import Xv6Cow.Lib.Prog
import Xv6Cow.Lib.Run
import Xv6Cow.Param

/-!
# Names: inodes, directories, paths and the system calls on them (`fs.c`, `file.c`, `sysfile.c`)

A system call is a program over the state of the file system; it stops in a panic, or when it waits
for a sleep-lock it holds itself.  The inode cache is kept by inode number.  Every change to a
cached inode is followed by `iupdate` under the same lock, so the cached fields and the dinode are
one record.  Of an inode's content only the entries of a directory are kept.
-/

namespace Xv6.Names

open Function Lts

/-! ## Directory entries and path elements -/

def dirsiz : ℕ := 14

/-- A string up to its NUL. -/
abbrev Name := List Char

structure Dirent where
  inum : ℕ
  name : Name
deriving DecidableEq

/-- `namecmp(s, t) == 0`. -/
def namecmp (s t : Name) : Bool := s.take dirsiz == t.take dirsiz

/-- The loop of `dirlookup`: slot and inode number of the entry found. -/
def scan (name : Name) : List Dirent → Option (ℕ × ℕ)
  | [] => none
  | e :: es =>
    if e.inum ≠ 0 ∧ namecmp name e.name then some (0, e.inum)
    else (scan name es).map fun r => (r.1 + 1, r.2)

/-- The write of `dirlink`: over the first entry with `inum` 0, or at the end. -/
def putEntry (e : Dirent) : List Dirent → List Dirent
  | [] => [e]
  | d :: ds => if d.inum = 0 then e :: ds else d :: putEntry e ds

/-- `MAXFILE * BSIZE / sizeof(struct dirent)`. -/
def maxents : ℕ := 140 * 512 / 16

/-- `skipelem`: the next element of the path, and the path after it. -/
def skipelem (path : List Char) : Option (Name × List Char) :=
  let s := path.dropWhile (· == '/')
  if s.isEmpty then none
  else some ((s.takeWhile (· != '/')).take dirsiz,
    (s.dropWhile (· != '/')).dropWhile (· == '/'))

def elemsFuel : ℕ → List Char → List Name
  | 0, _ => []
  | n + 1, path =>
    match skipelem path with
    | none => []
    | some (name, rest) => name :: elemsFuel n rest

/-- The elements `skipelem` yields one after another. -/
def elems (path : List Char) : List Name := elemsFuel path.length path

/-! ## The state -/

/-- `T_DIR`, `T_FILE` and `T_DEV`; a free inode has type 0. -/
inductive IType
  | free | dir | file | dev
deriving DecidableEq

structure Dinode where
  type : IType
  nlink : ℤ
  ents : List Dirent

/-- What the inode cache adds to an inode. -/
structure Cached where
  ref : ℕ
  valid : Bool
  locked : Bool

/-- An entry of the file table; `ip` is set for `FD_INODE`. -/
structure File where
  ref : ℕ
  ip : Option ℕ

/-- `sb.ninodes` as `mkfs` sets it. -/
def ninodes : ℕ := 200

def rootino : ℕ := 1

/-- The file system and the part of the processes that refers to it.  `freed` records each inode
that `iput` frees, with the inodes then. -/
structure Fs where
  inode : ℕ → Dinode
  icache : ℕ → Cached
  ftable : Fid → File
  live : Pid → Bool
  cwd : Pid → ℕ
  ofile : Pid → Fd → Option Fid
  freed : List (ℕ × (ℕ → Dinode))

namespace Fs

def setInode (s : Fs) (i : ℕ) (d : Dinode) : Fs := { s with inode := update s.inode i d }

def setCached (s : Fs) (i : ℕ) (c : Cached) : Fs :=
  { s with icache := update s.icache i c }

def setFile (s : Fs) (f : Fid) (x : File) : Fs := { s with ftable := update s.ftable f x }

def setOfile (s : Fs) (p : Pid) (fd : Fd) (f : Option Fid) : Fs :=
  { s with ofile := update s.ofile p (update (s.ofile p) fd f) }

def setCwd (s : Fs) (p : Pid) (i : ℕ) : Fs := { s with cwd := update s.cwd p i }

/-- The inodes that take a slot of the inode cache. -/
def cached (s : Fs) : Finset ℕ := (Finset.range ninodes).filter fun i => 0 < (s.icache i).ref

/-- `ip->nlink += n`. -/
def addLink (s : Fs) (i : ℕ) (n : ℤ) : Fs :=
  s.setInode i { s.inode i with nlink := (s.inode i).nlink + n }

def setEnts (s : Fs) (i : ℕ) (es : List Dirent) : Fs :=
  s.setInode i { s.inode i with ents := es }

end Fs

/-- How a call can fail to return. -/
inductive Stop
  | panic (msg : String)
  /-- The caller sleeps on the lock of the inode, which it holds. -/
  | waits (i : ℕ)
deriving DecidableEq

abbrev FsM := EStateM Stop Fs

def panic {α : Type} (msg : String) : FsM α := throw (.panic msg)

/-! ## The inode cache -/

/-- `acquiresleep(&ip->lock)`; between calls no lock is held, so a held one is the caller's. -/
def acquiresleep (i : ℕ) : FsM Unit := do
  let s ← get
  if (s.icache i).locked then throw (.waits i)
  else set (s.setCached i { s.icache i with locked := true })

def releasesleep (i : ℕ) : FsM Unit :=
  modify fun s => s.setCached i { s.icache i with locked := false }

def iget (i : ℕ) : FsM Unit := do
  let s ← get
  if 0 < (s.icache i).ref then set (s.setCached i { s.icache i with ref := (s.icache i).ref + 1 })
  else if s.cached.card < ninode then set (s.setCached i ⟨1, false, false⟩)
  else panic "iget: no inodes"

def idup (i : ℕ) : FsM Unit :=
  modify fun s => s.setCached i { s.icache i with ref := (s.icache i).ref + 1 }

def ilock (i : ℕ) : FsM Unit := do
  if ((← get).icache i).ref < 1 then panic "ilock"
  acquiresleep i
  let s ← get
  if ¬ (s.icache i).valid then
    set (s.setCached i { s.icache i with valid := true })
    if (s.inode i).type = .free then panic "ilock: no type"

def iunlock (i : ℕ) : FsM Unit := do
  let s ← get
  if ¬ (s.icache i).locked ∨ (s.icache i).ref < 1 then panic "iunlock"
  releasesleep i

/-- The branch of `iput` that truncates and frees. -/
def freeInode (i : ℕ) : FsM Unit :=
  modify fun s =>
    { (s.setInode i ⟨.free, 0, []⟩).setCached i { s.icache i with valid := false } with
      freed := (i, s.inode) :: s.freed }

def iput (i : ℕ) : FsM Unit := do
  acquiresleep i
  let s ← get
  if (s.icache i).valid ∧ (s.inode i).nlink = 0 ∧ (s.icache i).ref = 1 then freeInode i
  releasesleep i
  modify fun s => s.setCached i { s.icache i with ref := (s.icache i).ref - 1 }

def iunlockput (i : ℕ) : FsM Unit := do
  iunlock i
  iput i

def ialloc (type : IType) : FsM ℕ := do
  let s ← get
  match (List.range' 1 (ninodes - 1)).find? fun i => (s.inode i).type = .free with
  | none => panic "ialloc: no inodes"
  | some i =>
    set (s.setInode i ⟨type, 0, []⟩)
    iget i
    pure i

/-! ## Directories and paths -/

/-- `dirlookup`: slot and number of the inode found, which gets a reference. -/
def dirlookup (dp : ℕ) (name : Name) : FsM (Option (ℕ × ℕ)) := do
  let s ← get
  if (s.inode dp).type ≠ .dir then panic "dirlookup not DIR"
  match scan name (s.inode dp).ents with
  | none => pure none
  | some r =>
    iget r.2
    pure (some r)

def dirlink (dp : ℕ) (name : Name) (inum : ℕ) : FsM Bool := do
  match ← dirlookup dp name with
  | some r =>
    iput r.2
    pure false
  | none =>
    let s ← get
    let es := (s.inode dp).ents
    if maxents ≤ es.findIdx (·.inum = 0) then panic "dirlink"
    set (s.setEnts dp (putEntry ⟨inum, name.take dirsiz⟩ es))
    pure true

/-- The loop of `namex`, at the inode `i` with the elements still to come. -/
def namexFrom (parent : Bool) : ℕ → List Name → FsM (Option (ℕ × Name))
  | i, [] =>
    if parent then do
      iput i
      pure none
    else pure (some (i, []))
  | i, name :: rest => do
    ilock i
    if ((← get).inode i).type ≠ .dir then
      iunlockput i
      pure none
    else if parent ∧ rest = [] then
      iunlock i
      pure (some (i, name))
    else
      match ← dirlookup i name with
      | none =>
        iunlockput i
        pure none
      | some next =>
        iunlockput i
        namexFrom parent next.2 rest

/-- Does the path begin with a slash? -/
def absolute (path : List Char) : Bool := path.head? == some '/'

def namex (p : Pid) (path : List Char) (parent : Bool) : FsM (Option (ℕ × Name)) := do
  if absolute path then
    iget rootino
    namexFrom parent rootino (elems path)
  else
    let i := (← get).cwd p
    idup i
    namexFrom parent i (elems path)

def namei (p : Pid) (path : List Char) : FsM (Option ℕ) := do
  return (← namex p path false).map (·.1)

def nameiparent (p : Pid) (path : List Char) : FsM (Option (ℕ × Name)) := namex p path true

/-! ## Open files -/

def filealloc : FsM (Option Fid) := do
  let s ← get
  match (List.finRange 100).find? fun f => (s.ftable f).ref = 0 with
  | none => pure none
  | some f =>
    set (s.setFile f { s.ftable f with ref := 1 })
    pure (some f)

def filedup (f : Fid) : FsM Unit := do
  let s ← get
  if (s.ftable f).ref < 1 then panic "filedup"
  set (s.setFile f { s.ftable f with ref := (s.ftable f).ref + 1 })

def fileclose (f : Fid) : FsM Unit := do
  let s ← get
  let x := s.ftable f
  if x.ref < 1 then panic "fileclose"
  if 0 < x.ref - 1 then set (s.setFile f { x with ref := x.ref - 1 })
  else
    set (s.setFile f ⟨0, none⟩)
    match x.ip with
    | none => pure ()
    | some i => iput i

def fdalloc (p : Pid) (f : Fid) : FsM (Option Fd) := do
  let s ← get
  match (List.finRange 16).find? fun fd => (s.ofile p fd).isNone with
  | none => pure none
  | some fd =>
    set (s.setOfile p fd (some f))
    pure (some fd)

/-! ## System calls

`none` is the result `-1`. -/

def dot : Name := ['.']
def dotdot : Name := ['.', '.']

/-- The label `bad` of `sys_link`. -/
def linkBad (i : ℕ) : FsM (Option ℕ) := do
  ilock i
  modify fun s => s.addLink i (-1)
  iunlockput i
  pure none

def sysLink (p : Pid) (old new : List Char) : FsM (Option ℕ) := do
  match ← namei p old with
  | none => pure none
  | some i =>
    ilock i
    if ((← get).inode i).type = .dir then
      iunlockput i
      pure none
    else
      modify fun s => s.addLink i 1
      iunlock i
      match ← nameiparent p new with
      | none => linkBad i
      | some (dp, name) =>
        ilock dp
        if ← dirlink dp name i then
          iunlockput dp
          iput i
          pure (some 0)
        else
          iunlockput dp
          linkBad i

/-- `isdirempty`: no entry in use from the third slot on. -/
def isdirempty (es : List Dirent) : Bool := (es.drop 2).all fun e => e.inum = 0

/-- The part of `sys_unlink` that removes the entry in `slot` of `dp`, which names `i`. -/
def removeEntry (dp slot i : ℕ) : FsM (Option ℕ) := do
  modify fun s => s.setEnts dp ((s.inode dp).ents.set slot ⟨0, []⟩)
  if ((← get).inode i).type = .dir then modify fun s => s.addLink dp (-1)
  iunlockput dp
  modify fun s => s.addLink i (-1)
  iunlockput i
  pure (some 0)

def sysUnlink (p : Pid) (path : List Char) : FsM (Option ℕ) := do
  match ← nameiparent p path with
  | none => pure none
  | some (dp, name) =>
    ilock dp
    if namecmp name dot ∨ namecmp name dotdot then
      iunlockput dp
      pure none
    else
      match ← dirlookup dp name with
      | none =>
        iunlockput dp
        pure none
      | some (slot, i) =>
        ilock i
        let s ← get
        if (s.inode i).nlink < 1 then panic "unlink: nlink < 1"
        if (s.inode i).type = .dir ∧ ¬ isdirempty (s.inode i).ents then
          iunlockput i
          iunlockput dp
          pure none
        else removeEntry dp slot i

/-- A new inode with one link, locked. -/
def newInode (type : IType) : FsM ℕ := do
  let i ← ialloc type
  ilock i
  modify fun s => s.setInode i { s.inode i with nlink := 1 }
  pure i

/-- The part of `create` that makes a new inode, named `name` in `dp`. -/
def createNew (dp : ℕ) (name : Name) (type : IType) : FsM ℕ := do
  let i ← newInode type
  if type = .dir then
    modify fun s => s.addLink dp 1
    unless ← dirlink i dot i do panic "create dots"
    unless ← dirlink i dotdot dp do panic "create dots"
  unless ← dirlink dp name i do panic "create: dirlink"
  iunlockput dp
  pure i

/-- `create`; the inode returned is locked. -/
def create (p : Pid) (path : List Char) (type : IType) : FsM (Option ℕ) := do
  match ← nameiparent p path with
  | none => pure none
  | some (dp, name) =>
    ilock dp
    match ← dirlookup dp name with
    | some (_, i) =>
      iunlockput dp
      ilock i
      if type = .file ∧ ((← get).inode i).type = .file then pure (some i)
      else
        iunlockput i
        pure none
    | none =>
      let i ← createNew dp name type
      pure (some i)

def oCreate : ℕ := 0x200

/-- The inode `sys_open` is going to open, locked. -/
def openInode (p : Pid) (path : List Char) (omode : ℕ) : FsM (Option ℕ) := do
  if omode &&& oCreate ≠ 0 then create p path .file
  else
    match ← namei p path with
    | none => pure none
    | some i =>
      ilock i
      if ((← get).inode i).type = .dir ∧ omode ≠ 0 then
        iunlockput i
        pure none
      else pure (some i)

/-- The part of `sys_open` that gives the locked inode a file and a descriptor. -/
def openFd (p : Pid) (i : ℕ) : FsM (Option ℕ) := do
  match ← filealloc with
  | none =>
    iunlockput i
    pure none
  | some f =>
    match ← fdalloc p f with
    | none =>
      fileclose f
      iunlockput i
      pure none
    | some fd =>
      iunlock i
      modify fun s => s.setFile f { s.ftable f with ip := some i }
      pure (some fd)

def sysOpen (p : Pid) (path : List Char) (omode : ℕ) : FsM (Option ℕ) := do
  match ← openInode p path omode with
  | none => pure none
  | some i => openFd p i

/-- `sys_mkdir` and `sys_mknod`. -/
def sysCreate (p : Pid) (path : List Char) (type : IType) : FsM (Option ℕ) := do
  match ← create p path type with
  | none => pure none
  | some i =>
    iunlockput i
    pure (some 0)

def sysMkdir (p : Pid) (path : List Char) : FsM (Option ℕ) := sysCreate p path .dir

def sysMknod (p : Pid) (path : List Char) : FsM (Option ℕ) := sysCreate p path .dev

def sysChdir (p : Pid) (path : List Char) : FsM (Option ℕ) := do
  match ← namei p path with
  | none => pure none
  | some i =>
    ilock i
    if ((← get).inode i).type ≠ .dir then
      iunlockput i
      pure none
    else
      iunlock i
      iput ((← get).cwd p)
      modify fun s => s.setCwd p i
      pure (some 0)

/-- What `exec` does to the file system: it reads the file under its lock. -/
def exec (p : Pid) (path : List Char) : FsM (Option ℕ) := do
  match ← namei p path with
  | none => pure none
  | some i =>
    ilock i
    iunlockput i
    pure (some 0)

def sysDup (p : Pid) (fd : Fd) : FsM (Option ℕ) := do
  match (← get).ofile p fd with
  | none => pure none
  | some f =>
    match ← fdalloc p f with
    | none => pure none
    | some fd' =>
      filedup f
      pure (some fd')

def sysClose (p : Pid) (fd : Fd) : FsM (Option ℕ) := do
  match (← get).ofile p fd with
  | none => pure none
  | some f =>
    modify fun s => s.setOfile p fd none
    fileclose f
    pure (some 0)

/-- The loop of `fork` over the descriptors. -/
def forkFiles (p child : Pid) : List Fd → FsM Unit
  | [] => pure ()
  | fd :: fds => do
    match (← get).ofile p fd with
    | none => pure ()
    | some f =>
      filedup f
      modify fun s => s.setOfile child fd (some f)
    forkFiles p child fds

/-- `fork`, the slot `child` being the one `allocproc` found. -/
def fork (p child : Pid) : FsM (Option ℕ) := do
  forkFiles p child (List.finRange 16)
  let i := (← get).cwd p
  idup i
  modify fun s => { s.setCwd child i with live := update s.live child true }
  pure (some child)

/-- The loop of `exit` over the descriptors. -/
def exitFiles (p : Pid) : List Fd → FsM Unit
  | [] => pure ()
  | fd :: fds => do
    match (← get).ofile p fd with
    | none => pure ()
    | some f =>
      fileclose f
      modify fun s => s.setOfile p fd none
    exitFiles p fds

/-- `initproc`, the process `userinit` makes. -/
def initproc : Pid := 0

def exit (p : Pid) : FsM (Option ℕ) := do
  if p = initproc then panic "init exiting"
  exitFiles p (List.finRange 16)
  iput ((← get).cwd p)
  modify fun s => { s.setCwd p 0 with live := update s.live p false }
  pure (some 0)

inductive Call
  | openFile (p : Pid) (path : List Char) (omode : ℕ)
  | mkdir (p : Pid) (path : List Char)
  | mknod (p : Pid) (path : List Char)
  | link (p : Pid) (old new : List Char)
  | unlink (p : Pid) (path : List Char)
  | chdir (p : Pid) (path : List Char)
  | exec (p : Pid) (path : List Char)
  | dup (p : Pid) (fd : Fd)
  | close (p : Pid) (fd : Fd)
  | fork (p child : Pid)
  | exit (p : Pid)

namespace Call

/-- The process that makes the call. -/
def proc : Call → Pid
  | openFile p _ _ | mkdir p _ | mknod p _ | link p _ _ | unlink p _ | chdir p _ | exec p _
  | dup p _ | close p _ | fork p _ | exit p => p

def run : Call → FsM (Option ℕ)
  | openFile p path omode => sysOpen p path omode
  | mkdir p path => sysMkdir p path
  | mknod p path => sysMknod p path
  | link p old new => sysLink p old new
  | unlink p path => sysUnlink p path
  | chdir p path => sysChdir p path
  | exec p path => Names.exec p path
  | dup p fd => sysDup p fd
  | close p fd => sysClose p fd
  | fork p child => Names.fork p child
  | exit p => Names.exit p

/-- A call comes from a live process; `fork` fills a slot that is not in use. -/
def enabled (s : Fs) (c : Call) : Bool :=
  s.live c.proc &&
    match c with
    | fork _ child => !s.live child
    | _ => true

end Call

/-- A call that returns; one that stops has no next state. -/
def Fs.step (s : Fs) (c : Call) : Option Fs :=
  if c.enabled s then
    match c.run s with
    | .ok _ t => some t
    | .error _ _ => none
  else none

/-- Why the call does not return, if it does not. -/
def Call.stops (c : Call) (s : Fs) : Option Stop :=
  match c.run s with
  | .ok _ _ => none
  | .error e _ => some e

/-- The files `mkfs` is given; each takes an inode after the root's. -/
structure Image where
  names : List Name
  fits : names.length + 2 ≤ ninodes

namespace Image

/-- The entries of the root directory.  `mkfs` rounds its size up to a block of 32 entries. -/
def rootEnts (img : Image) : List Dirent :=
  let n := img.names.length + 2
  ⟨rootino, dot⟩ :: ⟨rootino, dotdot⟩ :: img.names.mapIdx (fun k name => ⟨k + 2, name.take dirsiz⟩) ++
    List.replicate ((n / 32 + 1) * 32 - n) ⟨0, []⟩

def inode (img : Image) (i : ℕ) : Dinode :=
  if i = rootino then ⟨.dir, 1, img.rootEnts⟩
  else if 2 ≤ i ∧ i < img.names.length + 2 then ⟨.file, 1, []⟩
  else ⟨.free, 0, []⟩

/-- The state in which the first process starts, in `/`. -/
def boot (img : Image) : Fs where
  inode := img.inode
  icache := update (fun _ => ⟨0, false, false⟩) rootino ⟨1, false, false⟩
  ftable := fun _ => ⟨0, none⟩
  live := fun p => p = initproc
  cwd := fun p => if p = initproc then rootino else 0
  ofile := fun _ _ => none
  freed := []

/-- The state after the calls, if they all return. -/
def after (img : Image) (cs : List Call) : Fs := (cs.foldlM Fs.step img.boot).getD img.boot

end Image

end Xv6.Names

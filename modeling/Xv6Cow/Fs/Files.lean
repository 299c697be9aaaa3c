import Xv6Cow.Fs.Blocks

/-!
# Directories, paths and the system calls over blocks

`fs.c`, `file.c`, `sysfile.c`, and what `exec.c`, `pipe.c` and `proc.c` do to files.

A directory is a file of 16-byte entries.  `begin_op` and `end_op` stand where the source has them.
A read or write of a pipe is as in `Pipe`; one that would have to wait does not return.
-/

namespace Xv6.Blocks

open Function Bytes Lts
open Names (Name Dirent namecmp elems absolute dot dotdot dirsiz oCreate)

/-! ## Directory entries -/

/-- `sizeof(struct dirent)`. -/
def direntSize : ℕ := 16

/-- Byte `x` of the entry, its name padded with zeros by `strncpy`. -/
def direntByte (e : Dirent) (x : ℕ) : UInt8 :=
  if x < 2 then leByte e.inum x
  else ((e.name.take dirsiz).map fun c => UInt8.ofNat c.toNat).getD (x - 2) 0

def direntBytes (e : Dirent) : List UInt8 := (List.range direntSize).map (direntByte e)

/-- The entry in the bytes read. -/
def direntOf (bs : List UInt8) : Dirent where
  inum := le (fun k => bs.getD k 0) 0 2
  name := ((bs.drop 2).takeWhile (· ≠ 0)).map fun b => Char.ofNat b.toNat

/-- `readi` of one entry, with the panic of the caller. -/
def readDirent (dp : Iptr) (off : ℕ) (msg : String) : FsM Dirent := do
  match ← readi dp off direntSize with
  | none => panic msg
  | some bs => if bs.length = direntSize then pure (direntOf bs) else panic msg

/-- The loop of `dirlookup` at `off`. -/
def dirScan (dp : Iptr) (name : Name) : ℕ → ℕ → FsM (Option (ℕ × Iptr))
  | 0, _ => pure none
  | fuel + 1, off => do
    if off < ((← get).icache dp).size.toNat then
      let de ← readDirent dp off "dirlookup read"
      if de.inum ≠ 0 ∧ namecmp name de.name then
        let ip ← iget ((← get).icache dp).dev de.inum
        pure (some (off, ip))
      else dirScan dp name fuel (off + direntSize)
    else pure none

/-- Rounds enough to read a whole directory. -/
def dirRounds (size : UInt32) : ℕ := size.toNat / direntSize + 1

/-- `dirlookup`: offset of the entry found and its inode, which gets a reference. -/
def dirlookup (dp : Iptr) (name : Name) : FsM (Option (ℕ × Iptr)) := do
  let x := (← get).icache dp
  if x.type ≠ tDir then panic "dirlookup not DIR"
  dirScan dp name (dirRounds x.size) 0

/-- The loop of `dirlink` that looks for an unused entry. -/
def emptyScan (dp : Iptr) : ℕ → ℕ → FsM ℕ
  | 0, off => pure off
  | fuel + 1, off => do
    if off < ((← get).icache dp).size.toNat then
      let de ← readDirent dp off "dirlink read"
      if de.inum = 0 then pure off else emptyScan dp fuel (off + direntSize)
    else pure off

/-- `writei` of one entry, with the panic of the caller. -/
def writeDirent (dp : Iptr) (off : ℕ) (e : Dirent) (msg : String) : FsM Unit := do
  let r ← writei dp (direntBytes e) off
  if r ≠ some direntSize then panic msg

def dirlink (dp : Iptr) (name : Name) (inum : ℕ) : FsM Bool := do
  match ← dirlookup dp name with
  | some (_, ip) =>
    iput ip
    pure false
  | none =>
    let off ← emptyScan dp (dirRounds ((← get).icache dp).size) 0
    writeDirent dp off ⟨inum, name⟩ "dirlink"
    pure true

/-- The loop of `namex`, at the inode `ip` with the elements still to come. -/
def namexFrom (parent : Bool) : Iptr → List Name → FsM (Option (Iptr × Name))
  | ip, [] =>
    if parent then do
      iput ip
      pure none
    else pure (some (ip, []))
  | ip, name :: rest => do
    ilock ip
    if ((← get).icache ip).type ≠ tDir then
      iunlockput ip
      pure none
    else if parent ∧ rest = [] then
      iunlock ip
      pure (some (ip, name))
    else
      match ← dirlookup ip name with
      | none =>
        iunlockput ip
        pure none
      | some (_, next) =>
        iunlockput ip
        namexFrom parent next rest

def rootino : ℕ := 1

def namex (p : Pid) (path : List Char) (parent : Bool) : FsM (Option (Iptr × Name)) := do
  if absolute path then
    let ip ← iget rootdev rootino
    namexFrom parent ip (elems path)
  else
    let ip := (← get).cwd p
    idup ip
    namexFrom parent ip (elems path)

def namei (p : Pid) (path : List Char) : FsM (Option Iptr) := do
  return (← namex p path false).map (·.1)

def nameiparent (p : Pid) (path : List Char) : FsM (Option (Iptr × Name)) := namex p path true

/-! ## Open files -/

def filealloc : FsM (Option Fid) := do
  let s ← get
  match (List.finRange 100).find? fun f => (s.ftable f).ref = 0 with
  | none => pure none
  | some f =>
    set (s.setFile f { s.ftable f with ref := 1 })
    pure (some f)

def filedup (f : Fid) : FsM Unit := do
  let s ← get
  if (s.ftable f).ref < 1 then panic "filedup"
  set (s.setFile f { s.ftable f with ref := (s.ftable f).ref + 1 })

/-- `kfree` of the page of a pipe. -/
def kfree (page : ℕ) : FsM Unit :=
  modify fun s =>
    { s.setPipe page none with
      hist.kfrees := update s.hist.kfrees page (s.hist.kfrees page + 1) }

/-- `kfree` leaves ones in the lock of the pipe, so nobody gets the lock of a pipe that is gone. -/
def pipeclose (page : ℕ) (writable : Bool) : FsM Unit := do
  match (← get).pipes page with
  | none => throw .sleeps
  | some pi =>
    modify fun s => s.setPipe page (some (pi.closeEnd writable))
    if (pi.closeEnd writable).freed then kfree page

def fileclose (f : Fid) : FsM Unit := do
  let s ← get
  let ff := s.ftable f
  if ff.ref < 1 then panic "fileclose"
  if 0 < ff.ref - 1 then set (s.setFile f { ff with ref := ff.ref - 1 })
  else
    set (s.setFile f { ff with ref := 0, type := .none })
    match ff.type with
    | .none => pure ()
    | .pipe page => pipeclose page ff.writable
    | .inode ip =>
      beginOp
      iput ip
      endOp

/-- The page that `kalloc` finds is filled with ones, apart from its first word. -/
def pipealloc (page : Option ℕ) : FsM (Option (Fid × Fid)) := do
  match ← filealloc with
  | none => pure none
  | some f0 =>
    match ← filealloc with
    | none =>
      fileclose f0
      pure none
    | some f1 =>
      match page with
      | none =>
        fileclose f0
        fileclose f1
        pure none
      | some page =>
        modify fun s =>
          { s.setPipe page (some ⟨fun _ => 1, 0, 0, true, true⟩) with
            hist.kallocs := update s.hist.kallocs page (s.hist.kallocs page + 1) }
        modify fun s =>
          s.setFile f0 { s.ftable f0 with type := .pipe page, readable := true, writable := false }
        modify fun s =>
          s.setFile f1 { s.ftable f1 with type := .pipe page, readable := false, writable := true }
        pure (some (f0, f1))

def fdalloc (p : Pid) (f : Fid) : FsM (Option Fd) := do
  let s ← get
  match (List.finRange 16).find? fun fd => (s.ofile p fd).isNone with
  | none => pure none
  | some fd =>
    set (s.setOfile p fd (some f))
    pure (some fd)

/-- What `stati` copies. -/
structure Stat where
  dev : ℕ
  type : Int16
  ino : ℕ
  nlink : Int16
  size : UInt32

def filestat (f : Fid) : FsM (Option Stat) := do
  match ((← get).ftable f).type with
  | .inode ip =>
    ilock ip
    let x := (← get).icache ip
    iunlock ip
    pure (some ⟨x.dev, x.type, x.inum, x.nlink, x.size⟩)
  | _ => pure none

/-- `f->off += r`. -/
def advance (f : Fid) (r : ℕ) : FsM Unit :=
  modify fun s =>
    s.setFile f { s.ftable f with off := ((s.ftable f).off + r) % 2 ^ 32 }

/-- `piperead` by a process that has not been killed. -/
def piperead (page n : ℕ) : FsM (Option (List UInt8)) := do
  match (← get).pipes page with
  | none => throw .sleeps
  | some pi =>
    modify fun s => s.setPipe page (some (pi.piperead false n).1)
    match (pi.piperead false n).2 with
    | .returns bytes => pure (some bytes)
    | .fails => pure none
    | .sleeps => throw .sleeps

/-- `pipewrite` by a process that has not been killed. -/
def pipewrite (page : ℕ) (src : List UInt8) : FsM (Option ℕ) := do
  match (← get).pipes page with
  | none => throw .sleeps
  | some pi =>
    let r := pi.pipewrite (fun k => src.getD k 0) false 0 src.length
    modify fun s => s.setPipe page (some r.1)
    match r.2.2 with
    | .returns => pure (some src.length)
    | .fails => pure none
    | .sleeps _ _ => throw .sleeps

def fileread (f : Fid) (n : ℕ) : FsM (Option (List UInt8)) := do
  let x := (← get).ftable f
  if ¬ x.readable then pure none
  else
    match x.type with
    | .none => panic "fileread"
    | .pipe page => piperead page n
    | .inode ip =>
      ilock ip
      let r ← readi ip ((← get).ftable f).off n
      advance f (r.getD []).length
      iunlock ip
      pure r

/-- `((MAXOPBLOCKS-1-1-2) / 2) * 512`. -/
def maxWrite : ℕ := (maxopblocks - 1 - 1 - 2) / 2 * 512

/-- One round of the loop of `filewrite`. -/
def writeChunk (f : Fid) (ip : Iptr) (src : List UInt8) : FsM (Option ℕ) := do
  beginOp
  ilock ip
  let r ← writei ip src ((← get).ftable f).off
  advance f (r.getD 0)
  iunlock ip
  endOp
  pure r

/-- The loop of `filewrite`, with the bytes still to write: are all of them written? -/
def writeChunks (f : Fid) (ip : Iptr) : ℕ → List UInt8 → FsM Bool
  | 0, _ => pure true
  | fuel + 1, src => do
    if src.length = 0 then pure true
    else
      let n := min src.length maxWrite
      match ← writeChunk f ip (src.take n) with
      | none => pure false
      | some r =>
        if r ≠ n then panic "short filewrite"
        writeChunks f ip fuel (src.drop n)

def filewrite (f : Fid) (src : List UInt8) : FsM (Option ℕ) := do
  let x := (← get).ftable f
  if ¬ x.writable then pure none
  else
    match x.type with
    | .none => panic "filewrite"
    | .pipe page => pipewrite page src
    | .inode ip =>
      let all ← writeChunks f ip src.length src
      pure (if all then some src.length else none)

/-! ## System calls

`none` is the result `-1`. -/

/-- `ip->nlink += n` and `iupdate(ip)`. -/
def addLink (ip : Iptr) (n : Int16) : FsM Unit := do
  modify fun s => s.setCopy ip { (s.icache ip).toDinode with nlink := (s.icache ip).nlink + n }
  iupdate ip

/-- The label `bad` of `sys_link`. -/
def linkBad (ip : Iptr) : FsM (Option ℕ) := do
  ilock ip
  addLink ip (-1)
  iunlockput ip
  endOp
  pure none

/-- The test of `sys_link` before its label `bad`: is the new entry made? -/
def linkEntry (dp ip : Iptr) (name : Name) : FsM Bool := do
  let s ← get
  if (s.icache dp).dev ≠ (s.icache ip).dev then pure false
  else dirlink dp name (s.icache ip).inum

def sysLink (p : Pid) (old new : List Char) : FsM (Option ℕ) := do
  beginOp
  match ← namei p old with
  | none =>
    endOp
    pure none
  | some ip =>
    ilock ip
    if ((← get).icache ip).type = tDir then
      iunlockput ip
      endOp
      pure none
    else
      addLink ip 1
      iunlock ip
      match ← nameiparent p new with
      | none => linkBad ip
      | some (dp, name) =>
        ilock dp
        if ← linkEntry dp ip name then
          iunlockput dp
          iput ip
          endOp
          pure (some 0)
        else
          iunlockput dp
          linkBad ip

/-- The loop of `isdirempty` at `off`. -/
def emptyFrom (dp : Iptr) : ℕ → ℕ → FsM Bool
  | 0, _ => pure true
  | fuel + 1, off => do
    if off < ((← get).icache dp).size.toNat then
      let de ← readDirent dp off "isdirempty: readi"
      if de.inum ≠ 0 then pure false else emptyFrom dp fuel (off + direntSize)
    else pure true

/-- `isdirempty`: no entry in use from the third on. -/
def isdirempty (dp : Iptr) : FsM Bool := do
  emptyFrom dp (dirRounds ((← get).icache dp).size) (2 * direntSize)

/-- The test of `sys_unlink` for a directory that is in use. -/
def inUseDir (ip : Iptr) : FsM Bool := do
  if ((← get).icache ip).type = tDir then
    return !(← isdirempty ip)
  else pure false

/-- The part of `sys_unlink` that removes the entry at `off` of `dp`, which names `ip`. -/
def removeEntry (dp : Iptr) (off : ℕ) (ip : Iptr) : FsM (Option ℕ) := do
  writeDirent dp off ⟨0, []⟩ "unlink: writei"
  if ((← get).icache ip).type = tDir then addLink dp (-1)
  iunlockput dp
  addLink ip (-1)
  iunlockput ip
  endOp
  pure (some 0)

/-- The label `bad` of `sys_unlink`. -/
def unlinkBad (dp : Iptr) : FsM (Option ℕ) := do
  iunlockput dp
  endOp
  pure none

def sysUnlink (p : Pid) (path : List Char) : FsM (Option ℕ) := do
  beginOp
  match ← nameiparent p path with
  | none =>
    endOp
    pure none
  | some (dp, name) =>
    ilock dp
    if namecmp name dot ∨ namecmp name dotdot then unlinkBad dp
    else
      match ← dirlookup dp name with
      | none => unlinkBad dp
      | some (off, ip) =>
        ilock ip
        if ((← get).icache ip).nlink < 1 then panic "unlink: nlink < 1"
        if ← inUseDir ip then
          iunlockput ip
          unlinkBad dp
        else removeEntry dp off ip

/-- A new inode with one link, locked. -/
def newInode (dev : ℕ) (type major minor : Int16) : FsM Iptr := do
  let ip ← ialloc dev type
  ilock ip
  modify fun s =>
    s.setCopy ip { (s.icache ip).toDinode with major := major, minor := minor, nlink := 1 }
  iupdate ip
  pure ip

/-- `dirlink` with the panic of `create`. -/
def mustLink (dp : Iptr) (name : Name) (inum : ℕ) (msg : String) : FsM Unit := do
  unless ← dirlink dp name inum do panic msg

/-- The part of `create` that makes a new inode, named `name` in `dp`. -/
def createNew (dp : Iptr) (name : Name) (type major minor : Int16) : FsM Iptr := do
  let ip ← newInode ((← get).icache dp).dev type major minor
  if type = tDir then
    addLink dp 1
    mustLink ip dot ((← get).icache ip).inum "create dots"
    mustLink ip dotdot ((← get).icache dp).inum "create dots"
  mustLink dp name ((← get).icache ip).inum "create: dirlink"
  iunlockput dp
  pure ip

/-- `create`; the inode returned is locked. -/
def create (p : Pid) (path : List Char) (type major minor : Int16) : FsM (Option Iptr) := do
  match ← nameiparent p path with
  | none => pure none
  | some (dp, name) =>
    ilock dp
    match ← dirlookup dp name with
    | some (_, ip) =>
      iunlockput dp
      ilock ip
      if type = tFile ∧ ((← get).icache ip).type = tFile then pure (some ip)
      else
        iunlockput ip
        pure none
    | none =>
      let ip ← createNew dp name type major minor
      pure (some ip)

def oWronly : ℕ := 1
def oRdwr : ℕ := 2

/-- The inode `sys_open` is going to open, locked. -/
def openInode (p : Pid) (path : List Char) (omode : ℕ) : FsM (Option Iptr) := do
  if omode &&& oCreate ≠ 0 then create p path tFile 0 0
  else
    match ← namei p path with
    | none => pure none
    | some ip =>
      ilock ip
      if ((← get).icache ip).type = tDir ∧ omode ≠ 0 then
        iunlockput ip
        pure none
      else pure (some ip)

/-- The part of `sys_open` that gives the locked inode a file and a descriptor. -/
def openFd (p : Pid) (ip : Iptr) (omode : ℕ) : FsM (Option ℕ) := do
  match ← filealloc with
  | none =>
    iunlockput ip
    endOp
    pure none
  | some f =>
    match ← fdalloc p f with
    | none =>
      fileclose f
      iunlockput ip
      endOp
      pure none
    | some fd =>
      iunlock ip
      endOp
      modify fun s =>
        s.setFile f
          { s.ftable f with
            type := .inode ip
            off := 0
            readable := omode &&& oWronly = 0
            writable := omode &&& oWronly ≠ 0 ∨ omode &&& oRdwr ≠ 0 }
      pure (some fd)

def sysOpen (p : Pid) (path : List Char) (omode : ℕ) : FsM (Option ℕ) := do
  beginOp
  match ← openInode p path omode with
  | none =>
    endOp
    pure none
  | some ip => openFd p ip omode

/-- `sys_mkdir` and `sys_mknod`. -/
def sysCreate (p : Pid) (path : List Char) (type major minor : Int16) : FsM (Option ℕ) := do
  beginOp
  match ← create p path type major minor with
  | none =>
    endOp
    pure none
  | some ip =>
    iunlockput ip
    endOp
    pure (some 0)

def sysMkdir (p : Pid) (path : List Char) : FsM (Option ℕ) := sysCreate p path tDir 0 0

def sysMknod (p : Pid) (path : List Char) (major minor : Int16) : FsM (Option ℕ) :=
  sysCreate p path tDev major minor

def sysChdir (p : Pid) (path : List Char) : FsM (Option ℕ) := do
  beginOp
  match ← namei p path with
  | none =>
    endOp
    pure none
  | some ip =>
    ilock ip
    if ((← get).icache ip).type ≠ tDir then
      iunlockput ip
      endOp
      pure none
    else
      iunlock ip
      iput ((← get).cwd p)
      endOp
      modify fun s => s.setCwd p ip
      pure (some 0)

/-- The reads of `exec`, up to the first that comes short. -/
def execReads (ip : Iptr) : List (ℕ × ℕ) → FsM Unit
  | [] => pure ()
  | (off, n) :: rest => do
    match ← readi ip off n with
    | none => pure ()
    | some bs => if bs.length = n then execReads ip rest else pure ()

/-- What `exec` does to the file system; which parts of the file it reads is given. -/
def exec (p : Pid) (path : List Char) (reads : List (ℕ × ℕ)) : FsM (Option ℕ) := do
  beginOp
  match ← namei p path with
  | none =>
    endOp
    pure none
  | some ip =>
    ilock ip
    execReads ip reads
    iunlockput ip
    endOp
    pure (some 0)

def sysDup (p : Pid) (fd : Fd) : FsM (Option ℕ) := do
  match (← get).ofile p fd with
  | none => pure none
  | some f =>
    match ← fdalloc p f with
    | none => pure none
    | some fd' =>
      filedup f
      pure (some fd')

def sysRead (p : Pid) (fd : Fd) (n : ℕ) : FsM (Option (List UInt8)) := do
  match (← get).ofile p fd with
  | none => pure none
  | some f => fileread f n

def sysWrite (p : Pid) (fd : Fd) (src : List UInt8) : FsM (Option ℕ) := do
  match (← get).ofile p fd with
  | none => pure none
  | some f => filewrite f src

def sysClose (p : Pid) (fd : Fd) : FsM (Option ℕ) := do
  match (← get).ofile p fd with
  | none => pure none
  | some f =>
    modify fun s => s.setOfile p fd none
    fileclose f
    pure (some 0)

/-- `sys_pipe`, with the page that `kalloc` finds. -/
def sysPipe (p : Pid) (page : Option ℕ) : FsM (Option ℕ) := do
  match ← pipealloc page with
  | none => pure none
  | some (rf, wf) =>
    match ← fdalloc p rf with
    | none =>
      fileclose rf
      fileclose wf
      pure none
    | some fd0 =>
      match ← fdalloc p wf with
      | none =>
        modify fun s => s.setOfile p fd0 none
        fileclose rf
        fileclose wf
        pure none
      | some _ => pure (some 0)

def sysFstat (p : Pid) (fd : Fd) : FsM (Option Stat) := do
  match (← get).ofile p fd with
  | none => pure none
  | some f => filestat f

/-- The loop of `fork` over the descriptors. -/
def forkFiles (p child : Pid) : List Fd → FsM Unit
  | [] => pure ()
  | fd :: fds => do
    match (← get).ofile p fd with
    | none => pure ()
    | some f =>
      filedup f
      modify fun s => s.setOfile child fd (some f)
    forkFiles p child fds

/-- `fork`, where `child` is the slot that `allocproc` found; none, if it or `copyuvm` failed. -/
def fork (p : Pid) (child : Option Pid) : FsM (Option ℕ) := do
  match child with
  | none => pure none
  | some child =>
    forkFiles p child (List.finRange 16)
    let ip := (← get).cwd p
    idup ip
    modify fun s => { s.setCwd child ip with live := update s.live child true }
    pure (some child)

/-- The loop of `exit` over the descriptors. -/
def exitFiles (p : Pid) : List Fd → FsM Unit
  | [] => pure ()
  | fd :: fds => do
    match (← get).ofile p fd with
    | none => pure ()
    | some f =>
      fileclose f
      modify fun s => s.setOfile p fd none
    exitFiles p fds

/-- `initproc`, the process `userinit` makes. -/
def initproc : Pid := 0

/-- `exit`; a process that is not live has no current directory. -/
def exit (p : Pid) : FsM (Option ℕ) := do
  if p = initproc then panic "init exiting"
  exitFiles p (List.finRange 16)
  beginOp
  iput ((← get).cwd p)
  endOp
  modify fun s => { s with live := update s.live p false }
  pure (some 0)

/-- A system call.  `read` and `exec` come with what the console is going to give. -/
inductive Call
  | openFile (p : Pid) (path : List Char) (omode : ℕ)
  | mkdir (p : Pid) (path : List Char)
  | mknod (p : Pid) (path : List Char) (major minor : Int16)
  | link (p : Pid) (old new : List Char)
  | unlink (p : Pid) (path : List Char)
  | chdir (p : Pid) (path : List Char)
  | exec (p : Pid) (path : List Char) (reads : List (ℕ × ℕ)) (input : Option (List UInt8))
  | dup (p : Pid) (fd : Fd)
  | pipe (p : Pid) (page : Option ℕ)
  | read (p : Pid) (fd : Fd) (n : ℕ) (input : Option (List UInt8))
  | write (p : Pid) (fd : Fd) (src : List UInt8)
  | close (p : Pid) (fd : Fd)
  | fstat (p : Pid) (fd : Fd)
  | fork (p : Pid) (child : Option Pid)
  | exit (p : Pid)

namespace Call

/-- The process that makes the call. -/
def proc : Call → Pid
  | openFile p _ _ | mkdir p _ | mknod p _ _ _ | link p _ _ | unlink p _ | chdir p _ | exec p _ _ _
  | dup p _ | pipe p _ | read p _ _ _ | write p _ _ | close p _ | fstat p _ | fork p _ | exit p => p

def run : Call → FsM (Option ℕ)
  | openFile p path omode => sysOpen p path omode
  | mkdir p path => sysMkdir p path
  | mknod p path major minor => sysMknod p path major minor
  | link p old new => sysLink p old new
  | unlink p path => sysUnlink p path
  | chdir p path => sysChdir p path
  | exec p path reads input => do
    modify fun s => { s with input := input }
    Blocks.exec p path reads
  | dup p fd => sysDup p fd
  | pipe p page => sysPipe p page
  | read p fd n input => do
    modify fun s => { s with input := input }
    return (← sysRead p fd n).map List.length
  | write p fd src => sysWrite p fd src
  | close p fd => sysClose p fd
  | fstat p fd => do return (← sysFstat p fd).map fun _ => 0
  | fork p child => Blocks.fork p child
  | exit p => Blocks.exit p

/-- A call comes from a live process; `fork` fills a slot, and `kalloc` finds a page, not in use. -/
def enabled (s : Fs) (c : Call) : Bool :=
  s.live c.proc &&
    match c with
    | fork _ (some child) => !s.live child
    | pipe _ (some page) => (s.pipes page).isNone
    | _ => true

end Call

/-- A call that returns; one that stops has no next state. -/
def Fs.step (s : Fs) (c : Call) : Option Fs :=
  if c.enabled s then
    match c.run s with
    | .ok _ t => some t
    | .error _ _ => none
  else none

/-- Why the call does not return, if it does not. -/
def Call.stops (c : Call) (s : Fs) : Option Stop :=
  match c.run s with
  | .ok _ _ => none
  | .error e _ => some e

/-- An entry of the inode cache before its first use. -/
def Inode.unused : Inode := ⟨.fresh 0, ⟨0, 0, 0, false, false, false⟩⟩

/-- The state in which the first process starts, in `/`, over the blocks of an image. -/
def boot (blk : ℕ → ℕ → UInt8) : Fs where
  blk := blk
  sb := superblockOf (blk 1)
  outstanding := 0
  lh := []
  icache := update (fun _ => .unused) 0
    ⟨.fresh 0, ⟨rootdev, rootino, 1, false, false, false⟩⟩
  ftable := fun _ => ⟨0, .none, false, false, 0⟩
  pipes := fun _ => none
  live := fun p => p = initproc
  cwd := fun _ => 0
  ofile := fun _ _ => none
  input := none
  hist := ⟨[], [], [], fun _ => none, false, fun _ => 0, fun _ => 0⟩

/-- The state after the calls, if they all return. -/
def after (blk : ℕ → ℕ → UInt8) (cs : List Call) : Fs := (cs.foldlM Fs.step (boot blk)).getD (boot blk)

end Xv6.Blocks

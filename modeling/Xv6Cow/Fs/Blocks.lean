import Xv6Cow.Lib.Bytes
import Xv6Cow.Fs.Names
import Xv6Cow.Pipe.Pipe

/-!
# Blocks, the bitmap and inodes (`fs.c`, `log.c`)

The file system over the bytes of its blocks, as the buffer cache holds them.  Dinodes, bitmap bits,
indirect blocks and directory entries are read out of these bytes and written back to them, so a
block that is reached in two ways is one block.  The calls run one after another.  A pointer to an
inode is the number of its entry in the inode cache.
-/

namespace Xv6.Blocks

open Function Bytes

def bsize : ℕ := 512
def ndirect : ℕ := 12
def nindirect : ℕ := 128
def maxfile : ℕ := ndirect + nindirect

/-- Inodes per block. -/
def ipb : ℕ := 8

/-- Bitmap bits per block. -/
def bpb : ℕ := 4096

def tDir : Int16 := 1
def tFile : Int16 := 2
def tDev : Int16 := 3

/-! ## What is on the disk -/

structure Superblock where
  size : ℕ
  nblocks : ℕ
  ninodes : ℕ
  nlog : ℕ
  logstart : ℕ
  inodestart : ℕ
  bmapstart : ℕ
deriving DecidableEq

/-- The superblock in the bytes of block 1. -/
def superblockOf (f : ℕ → UInt8) : Superblock where
  size := le f 0 4
  nblocks := le f 4 4
  ninodes := le f 8 4
  nlog := le f 12 4
  logstart := le f 16 4
  inodestart := le f 20 4
  bmapstart := le f 24 4

/-- `IBLOCK(i, sb)`. -/
def Superblock.iblock (sb : Superblock) (i : ℕ) : ℕ := i / ipb + sb.inodestart

/-- `BBLOCK(b, sb)`. -/
def Superblock.bblock (sb : Superblock) (b : ℕ) : ℕ := b / bpb + sb.bmapstart

/-- The fields that the dinode and its copy in the inode cache share. -/
structure Dinode where
  type : Int16
  major : Int16
  minor : Int16
  nlink : Int16
  size : UInt32
  addrs : Fin 13 → UInt32
deriving DecidableEq

/-- The `short` with the given two bytes. -/
def short (n : ℕ) : Int16 := (UInt16.ofNat n).toInt16

/-- The dinode in the 64 bytes at `o`. -/
def dinodeOf (f : ℕ → UInt8) (o : ℕ) : Dinode where
  type := short (le f o 2)
  major := short (le f (o + 2) 2)
  minor := short (le f (o + 4) 2)
  nlink := short (le f (o + 6) 2)
  size := UInt32.ofNat (le f (o + 8) 4)
  addrs j := UInt32.ofNat (le f (o + (12 + 4 * j)) 4)

/-- Byte `x` of the dinode. -/
def Dinode.byte (d : Dinode) (x : ℕ) : UInt8 :=
  if x < 2 then leByte d.type.toUInt16.toNat x
  else if x < 4 then leByte d.major.toUInt16.toNat (x - 2)
  else if x < 6 then leByte d.minor.toUInt16.toNat (x - 4)
  else if x < 8 then leByte d.nlink.toUInt16.toNat (x - 6)
  else if x < 12 then leByte d.size.toNat (x - 8)
  else leByte (d.addrs (Fin.ofNat 13 ((x - 12) / 4))).toNat ((x - 12) % 4)

/-- `sizeof(struct dinode)`. -/
def dinodeSize : ℕ := 64

instance neZero12 : NeZero 12 := ⟨by decide⟩
instance neZero13 : NeZero 13 := ⟨by decide⟩
instance neZero128 : NeZero 128 := ⟨by decide⟩

/-- What `memset` and the type leave of a dinode. -/
def Dinode.fresh (type : Int16) : Dinode := ⟨type, 0, 0, 0, 0, fun _ => 0⟩

/-- Block numbers in an inode: in `addrs`, or in the indirect block. -/
inductive Slot
  | direct (j : Fin 12)
  | indirect
  | entry (j : Fin 128)
deriving DecidableEq

/-- `a[j]` of an indirect block. -/
def word (f : ℕ → UInt8) (j : ℕ) : ℕ := le f (4 * j) 4

/-- The block number in the slot; 0 for none. -/
def Dinode.ptr (d : Dinode) (data : ℕ → ℕ → UInt8) : Slot → ℕ
  | .direct j => (d.addrs j.castSucc).toNat
  | .indirect => (d.addrs 12).toNat
  | .entry j => if d.addrs 12 = 0 then 0 else word (data (d.addrs 12).toNat) j

/-- The slot of block `bn` of a file. -/
def slotOf (bn : ℕ) : Slot :=
  if bn < ndirect then .direct (Fin.ofNat 12 bn) else .entry (Fin.ofNat 128 (bn - ndirect))

/-! ## The state -/

/-- A pointer into the inode cache. -/
abbrev Iptr := Fin ninode

instance : NeZero ninode := ⟨by decide⟩

/-- `ROOTDEV`, the device with the file system. -/
def rootdev : ℕ := 1

/-- An entry of the inode cache without the copy of the dinode.  `freed` records that the inode has
been freed since. -/
structure Handle where
  dev : ℕ
  inum : ℕ
  ref : ℕ
  valid : Bool
  locked : Bool
  freed : Bool
deriving DecidableEq

/-- The entry is in use and holds a copy of inode `i`. -/
def Handle.Caches (h : Handle) (i : ℕ) : Prop := 0 < h.ref ∧ h.valid = true ∧ h.inum = i

instance (h : Handle) (i : ℕ) : Decidable (h.Caches i) :=
  inferInstanceAs (Decidable (0 < h.ref ∧ h.valid = true ∧ h.inum = i))

/-- An entry of the inode cache. -/
structure Inode extends Dinode, Handle

/-- `FD_NONE`, `FD_PIPE` with the page of the pipe, `FD_INODE` with the inode. -/
inductive FileType
  | none
  | pipe (page : ℕ)
  | inode (ip : Iptr)
deriving DecidableEq

/-- An entry of the file table. -/
structure File where
  ref : ℕ
  type : FileType
  readable : Bool
  writable : Bool
  off : ℕ

/-- A block that `balloc` hands out, with the blocks and the inode cache then, and whether `readi`
asked. -/
structure Given where
  block : ℕ
  blk : ℕ → ℕ → UInt8
  icache : Iptr → Inode
  reading : Bool

/-- The blocks of a file before `itrunc`, and the bitmap after it. -/
structure Truncated where
  blocks : List ℕ
  used : ℕ → Bool

/-- The record of a run: the blocks handed out, the files truncated, and for each release of the
lock of a valid inode its copy and its dinode; the copy at the last release, as long as the inode is
not freed; and how often each page was allocated and freed as a pipe. -/
structure History where
  given : List Given
  truncated : List Truncated
  released : List (Dinode × Dinode)
  last : ℕ → Option Dinode
  reading : Bool
  kallocs : ℕ → ℕ
  kfrees : ℕ → ℕ

/-- The file system, and the part of the processes that refers to it.  `input` is what the console
gives to the call in progress. -/
structure Fs where
  blk : ℕ → ℕ → UInt8
  sb : Superblock
  outstanding : ℕ
  lh : List ℕ
  icache : Iptr → Inode
  ftable : Fid → File
  pipes : ℕ → Option Pipes.Pipe
  live : Pid → Bool
  cwd : Pid → Iptr
  ofile : Pid → Fd → Option Fid
  input : Option (List UInt8)
  hist : History

namespace Fs

def setBlk (s : Fs) (b : ℕ) (f : ℕ → UInt8) : Fs := { s with blk := update s.blk b f }

def setInode (s : Fs) (ip : Iptr) (x : Inode) : Fs :=
  { s with icache := update s.icache ip x }

def setFile (s : Fs) (f : Fid) (x : File) : Fs := { s with ftable := update s.ftable f x }

def setOfile (s : Fs) (p : Pid) (fd : Fd) (f : Option Fid) : Fs :=
  { s with ofile := update s.ofile p (update (s.ofile p) fd f) }

def setCwd (s : Fs) (p : Pid) (ip : Iptr) : Fs := { s with cwd := update s.cwd p ip }

def setPipe (s : Fs) (page : ℕ) (x : Option Pipes.Pipe) : Fs :=
  { s with pipes := update s.pipes page x }

/-- A change of the copy of an inode. -/
def setCopy (s : Fs) (ip : Iptr) (d : Dinode) : Fs := s.setInode ip { s.icache ip with toDinode := d }

/-- A change of the rest of an entry. -/
def setHandle (s : Fs) (ip : Iptr) (h : Handle) : Fs := s.setInode ip { s.icache ip with toHandle := h }

/-- The dinode of the inode. -/
def dinode (s : Fs) (i : ℕ) : Dinode := dinodeOf (s.blk (s.sb.iblock i)) (i % ipb * dinodeSize)

/-- The bit of the block in the bitmap. -/
def used (s : Fs) (b : ℕ) : Bool := bit (s.blk (s.sb.bblock b)) (b % bpb)

end Fs

/-- How a call can fail to return: it panics, or it sleeps and no one is going to wake it. -/
inductive Stop
  | panic (msg : String)
  | sleeps
deriving DecidableEq

abbrev FsM := EStateM Stop Fs

def panic {α : Type} (msg : String) : FsM α := throw (.panic msg)

def beginOp : FsM Unit := do
  let s ← get
  if logsize < s.lh.length + (s.outstanding + 1) * maxopblocks then throw .sleeps
  set { s with outstanding := s.outstanding + 1 }

/-- `end_op`; the last operation commits, which empties the log. -/
def endOp : FsM Unit :=
  modify fun s =>
    { s with
      outstanding := s.outstanding - 1
      lh := if s.outstanding - 1 = 0 then [] else s.lh }

/-- `log_write` of the block with the number `b`. -/
def logWrite (b : ℕ) : FsM Unit := do
  let s ← get
  if logsize ≤ s.lh.length ∨ s.sb.nlog - 1 ≤ s.lh.length then panic "too big a transaction"
  if s.outstanding < 1 then panic "log_write outside of trans"
  set { s with lh := if b ∈ s.lh then s.lh else s.lh ++ [b] }

/-- `bread`, a change of the data, `log_write`, `brelse`. -/
def modifyBlk (b : ℕ) (g : (ℕ → UInt8) → ℕ → UInt8) : FsM Unit := do
  modify fun s => s.setBlk b (g (s.blk b))
  logWrite b

def readsb : FsM Unit := modify fun s => { s with sb := superblockOf (s.blk 1) }

def bzero (b : ℕ) : FsM Unit := modifyBlk b fun _ _ => 0

/-- The inner loop of `balloc`: the first of `n` bits that is clear. -/
def clearIn (f : ℕ → UInt8) (n : ℕ) : Option ℕ := (List.range n).find? fun bi => !bit f bi

/-- The loops of `balloc`, one round of the outer loop for each block of the bitmap. -/
def Fs.freeBlock (s : Fs) : Option ℕ :=
  (List.range ((s.sb.size + bpb - 1) / bpb)).findSome? fun k =>
    (clearIn (s.blk (s.sb.bblock (k * bpb))) (min bpb (s.sb.size - k * bpb))).map (k * bpb + ·)

def balloc : FsM ℕ := do
  let s ← get
  match s.freeBlock with
  | none => panic "balloc: out of blocks"
  | some b =>
    modify fun s =>
      { s with hist.given := ⟨b, s.blk, s.icache, s.hist.reading⟩ :: s.hist.given }
    modifyBlk (s.sb.bblock b) (setBit (b % bpb))
    bzero b
    pure b

def bfree (b : ℕ) : FsM Unit := do
  readsb
  let s ← get
  if ¬ s.used b then panic "freeing free block"
  modifyBlk (s.sb.bblock b) (clearBit (b % bpb))

/-! ## The inode cache -/

/-- `acquiresleep(&ip->lock)`; between calls no lock is held, so a held one is the caller's. -/
def acquiresleep (ip : Iptr) : FsM Unit := do
  let s ← get
  if (s.icache ip).locked then throw .sleeps
  else set (s.setHandle ip { (s.icache ip).toHandle with locked := true })

def releasesleep (ip : Iptr) : FsM Unit :=
  modify fun s =>
    { s.setHandle ip { (s.icache ip).toHandle with locked := false } with
      hist.released :=
        if (s.icache ip).valid then
          ((s.icache ip).toDinode, s.dinode (s.icache ip).inum) :: s.hist.released
        else s.hist.released
      hist.last :=
        if (s.icache ip).valid then
          update s.hist.last (s.icache ip).inum (some (s.icache ip).toDinode)
        else s.hist.last }

/-- The store of a dinode to its block. -/
def putDinode (i : ℕ) (d : Dinode) : FsM Unit := do
  let s ← get
  modifyBlk (s.sb.iblock i) fun f => patch f (i % ipb * dinodeSize) dinodeSize d.byte

def iupdate (ip : Iptr) : FsM Unit := do
  let s ← get
  putDinode (s.icache ip).inum (s.icache ip).toDinode

/-- `iget`: the entry of the inode, if it has one, and otherwise the first that is not in use. -/
def iget (dev inum : ℕ) : FsM Iptr := do
  let s ← get
  match (List.finRange ninode).find? fun ip =>
      0 < (s.icache ip).ref ∧ (s.icache ip).dev = dev ∧ (s.icache ip).inum = inum with
  | some ip =>
    set (s.setHandle ip { (s.icache ip).toHandle with ref := (s.icache ip).ref + 1 })
    pure ip
  | none =>
    match (List.finRange ninode).find? fun ip => (s.icache ip).ref = 0 with
    | none => panic "iget: no inodes"
    | some ip =>
      set (s.setHandle ip
        { (s.icache ip).toHandle with dev := dev, inum := inum, ref := 1, valid := false, freed := false })
      pure ip

def idup (ip : Iptr) : FsM Unit :=
  modify fun s => s.setHandle ip { (s.icache ip).toHandle with ref := (s.icache ip).ref + 1 }

def ilock (ip : Iptr) : FsM Unit := do
  if ((← get).icache ip).ref < 1 then panic "ilock"
  acquiresleep ip
  let s ← get
  if ¬ (s.icache ip).valid then
    let d := s.dinode (s.icache ip).inum
    set (s.setInode ip { s.icache ip with toDinode := d, valid := true })
    if d.type = 0 then panic "ilock: no type"

def iunlock (ip : Iptr) : FsM Unit := do
  let s ← get
  if ¬ (s.icache ip).locked ∨ (s.icache ip).ref < 1 then panic "iunlock"
  releasesleep ip

def ialloc (dev : ℕ) (type : Int16) : FsM Iptr := do
  let s ← get
  match (List.range' 1 (s.sb.ninodes - 1)).find? fun i => (s.dinode i).type = 0 with
  | none => panic "ialloc: no inodes"
  | some i =>
    putDinode i (.fresh type)
    iget dev i

/-! ## The content of an inode -/

/-- `ip->addrs[j] = b`. -/
def Dinode.setAddr (d : Dinode) (j : Fin 13) (b : ℕ) : Dinode :=
  { d with addrs := update d.addrs j (UInt32.ofNat b) }

/-- `addrs[j]`, allocated if it is 0. -/
def addrOf (ip : Iptr) (j : Fin 13) : FsM ℕ := do
  let s ← get
  if (s.icache ip).addrs j = 0 then
    let b ← balloc
    modify fun s => s.setCopy ip ((s.icache ip).setAddr j b)
    pure b
  else pure ((s.icache ip).addrs j).toNat

/-- Word `j` of the indirect block, allocated if it is 0. -/
def entryOf (ind j : ℕ) : FsM ℕ := do
  let s ← get
  if word (s.blk ind) j = 0 then
    let b ← balloc
    modifyBlk ind fun f => patch f (4 * j) 4 (leByte b)
    pure b
  else pure (word (s.blk ind) j)

def bmap (ip : Iptr) (bn : ℕ) : FsM ℕ := do
  if bn < ndirect then addrOf ip (Fin.ofNat 13 bn)
  else if bn - ndirect < nindirect then
    let ind ← addrOf ip 12
    entryOf ind (bn - ndirect)
  else panic "bmap: out of range"

/-- The loop of `itrunc` over the direct blocks. -/
def truncDirect (ip : Iptr) : List (Fin 13) → FsM Unit
  | [] => pure ()
  | j :: js => do
    let s ← get
    if (s.icache ip).addrs j ≠ 0 then
      bfree ((s.icache ip).addrs j).toNat
      modify fun s => s.setCopy ip ((s.icache ip).setAddr j 0)
    truncDirect ip js

/-- The loop of `itrunc` over the words of the indirect block. -/
def truncEntries (ind : ℕ) : List ℕ → FsM Unit
  | [] => pure ()
  | j :: js => do
    let s ← get
    if word (s.blk ind) j ≠ 0 then bfree (word (s.blk ind) j)
    truncEntries ind js

def truncIndirect (ip : Iptr) : FsM Unit := do
  let s ← get
  if (s.icache ip).addrs 12 ≠ 0 then
    let ind := ((s.icache ip).addrs 12).toNat
    truncEntries ind (List.range nindirect)
    bfree ind
    modify fun s => s.setCopy ip ((s.icache ip).setAddr 12 0)

def slots : List Slot :=
  .indirect :: (List.finRange 12).map .direct ++ (List.finRange 128).map .entry

/-- The block numbers in the slots of the inode. -/
def Dinode.blocks (d : Dinode) (data : ℕ → ℕ → UInt8) : List ℕ :=
  (slots.map (d.ptr data)).filter (· ≠ 0)

def itrunc (ip : Iptr) : FsM Unit := do
  let blocks := ((← get).icache ip).blocks (← get).blk
  truncDirect ip ((List.finRange 12).map Fin.castSucc)
  truncIndirect ip
  modify fun s => s.setCopy ip { (s.icache ip).toDinode with size := 0 }
  iupdate ip
  modify fun s => { s with hist.truncated := ⟨blocks, s.used⟩ :: s.hist.truncated }

/-- The branch of `iput` that truncates and frees. -/
def freeInode (ip : Iptr) : FsM Unit := do
  itrunc ip
  modify fun s => s.setCopy ip { (s.icache ip).toDinode with type := 0 }
  iupdate ip
  modify fun s =>
    { s.setHandle ip { (s.icache ip).toHandle with valid := false, freed := true } with
      hist.last := update s.hist.last (s.icache ip).inum none }

def iput (ip : Iptr) : FsM Unit := do
  acquiresleep ip
  let s ← get
  if (s.icache ip).valid ∧ (s.icache ip).nlink = 0 ∧ (s.icache ip).ref = 1 then freeInode ip
  releasesleep ip
  modify fun s => s.setHandle ip { (s.icache ip).toHandle with ref := (s.icache ip).ref - 1 }

def iunlockput (ip : Iptr) : FsM Unit := do
  iunlock ip
  iput ip

def ndev : ℤ := 10

/-- `devsw[CONSOLE]` is the only entry with functions. -/
def console : Int16 := 1

/-- `consoleread`, which gives the lock up while it waits for input. -/
def consoleread (ip : Iptr) (n : ℕ) : FsM (Option (List UInt8)) := do
  iunlock ip
  let bs := (← get).input
  ilock ip
  pure (bs.map (List.take n))

def consolewrite (ip : Iptr) (n : ℕ) : FsM (Option ℕ) := do
  iunlock ip
  ilock ip
  pure (some n)

/-- `devsw` has no functions for the device. -/
def noDevice (major : Int16) : Bool := major.toInt < 0 || ndev ≤ major.toInt || major != console

/-- The loop of `readi` at `off`, with `left` bytes to go. -/
def readLoop (ip : Iptr) : ℕ → ℕ → ℕ → FsM (List UInt8)
  | 0, _, _ => pure []
  | fuel + 1, off, left => do
    if left = 0 then pure []
    else
      let b ← bmap ip (off / bsize)
      let m := min left (bsize - off % bsize)
      let f := (← get).blk b
      let rest ← readLoop ip fuel (off + m) (left - m)
      pure ((List.range m).map (fun k => f (off % bsize + k)) ++ rest)

/-- `readi`; `none` is `-1`.  Each round reads at least one byte, so `n` rounds are enough. -/
def readi (ip : Iptr) (off n : ℕ) : FsM (Option (List UInt8)) := do
  let x := (← get).icache ip
  if x.type = tDev then
    if noDevice x.major then pure none else consoleread ip n
  else if x.size.toNat < off ∨ (off + n) % 2 ^ 32 < off then pure none
  else
    let n' := if x.size.toNat < off + n then x.size.toNat - off else n
    modify fun s => { s with hist.reading := true }
    let bs ← readLoop ip n' off n'
    modify fun s => { s with hist.reading := false }
    pure (some bs)

/-- The loop of `writei` at `off`, with the bytes still to write. -/
def writeLoop (ip : Iptr) : ℕ → ℕ → List UInt8 → FsM Unit
  | 0, _, _ => pure ()
  | fuel + 1, off, src => do
    if src.length = 0 then pure ()
    else
      let b ← bmap ip (off / bsize)
      let part := src.take (min src.length (bsize - off % bsize))
      modifyBlk b fun f => patch f (off % bsize) part.length fun k => part.getD k 0
      writeLoop ip fuel (off + part.length) (src.drop part.length)

/-- `writei` of all of `src`. -/
def writei (ip : Iptr) (src : List UInt8) (off : ℕ) : FsM (Option ℕ) := do
  let x := (← get).icache ip
  let n := src.length
  if x.type = tDev then
    if noDevice x.major then pure none else consolewrite ip n
  else if x.size.toNat < off ∨ (off + n) % 2 ^ 32 < off then pure none
  else if maxfile * bsize < off + n then pure none
  else
    writeLoop ip n off src
    let x := (← get).icache ip
    if 0 < n ∧ x.size.toNat < off + n then
      modify fun s => s.setCopy ip { (s.icache ip).toDinode with size := UInt32.ofNat (off + n) }
      iupdate ip
    pure (some n)

end Xv6.Blocks

import Xv6Cow.Fs.Represent

/-!
# The image that `mkfs` writes (`mkfs.c`)

`mkfs` lays out an empty disk and copies host files into it with code of its own: `iappend`
allocates blocks by counting `freeblock` up, and the bitmap is written once, at the end.  A program
stops where the source exits with an error or an assertion fails.
-/

namespace Xv6.Mkfs

open Bytes Blocks Prog
open Names (Name Dirent dirsiz dot dotdot)

def fssize : ℕ := 1000

def ninodes : ℕ := 200

def nbitmap : ℕ := fssize / (bsize * 8) + 1
def ninodeblocks : ℕ := ninodes / ipb + 1
def nlog : ℕ := logsize
def nmeta : ℕ := 2 + nlog + ninodeblocks + nbitmap
def nblocks : ℕ := fssize - nmeta

def sb : Superblock where
  size := fssize
  nblocks := nblocks
  ninodes := ninodes
  nlog := nlog
  logstart := 2
  inodestart := 2 + nlog
  bmapstart := 2 + nlog + ninodeblocks

/-- Byte `x` of the block with the superblock. -/
def sbByte (x : ℕ) : UInt8 :=
  leByte ([sb.size, sb.nblocks, sb.ninodes, sb.nlog, sb.logstart, sb.inodestart, sb.bmapstart].getD
    (x / 4) 0) (x % 4)

/-! ## The program -/

structure Img where
  blk : ℕ → ℕ → UInt8
  freeinode : ℕ
  freeblock : ℕ

/-- The image full of zeros, with which `main` starts. -/
def Img.zero : Img := ⟨fun _ _ => 0, 1, nmeta⟩

/-- The dinode on the image. -/
def Img.dinode (s : Img) (i : ℕ) : Dinode := dinodeOf (s.blk (sb.iblock i)) (i % ipb * dinodeSize)

/-- The bit of the block in the bitmap of the image. -/
def Img.used (s : Img) (b : ℕ) : Bool := bit (s.blk (sb.bblock b)) (b % bpb)

abbrev MkM := EStateM String Img

def wsect (sec : ℕ) (buf : ℕ → UInt8) : MkM Unit :=
  modify fun s => { s with blk := Function.update s.blk sec buf }

/-- `rsect`; past the end of the image `read` comes up short. -/
def rsect (sec : ℕ) : MkM (ℕ → UInt8) := do
  if fssize ≤ sec then throw "read"
  return (← get).blk sec

def winode (inum : ℕ) (ip : Dinode) : MkM Unit := do
  let buf ← rsect (sb.iblock inum)
  wsect (sb.iblock inum) (patch buf (inum % ipb * dinodeSize) dinodeSize ip.byte)

def rinode (inum : ℕ) : MkM Dinode := do
  let buf ← rsect (sb.iblock inum)
  return dinodeOf buf (inum % ipb * dinodeSize)

def ialloc (type : Int16) : MkM ℕ := do
  let inum := (← get).freeinode
  modify fun s => { s with freeinode := s.freeinode + 1 }
  winode inum { Dinode.fresh type with nlink := 1 }
  return inum

def balloc (used : ℕ) : MkM Unit := do
  if bsize * 8 ≤ used then throw "used < BSIZE*8"
  wsect sb.bmapstart ((List.range used).foldl (fun buf i => setBit i buf) fun _ => 0)

/-- `freeblock++`. -/
def nextBlock : MkM ℕ := do
  let s ← get
  set { s with freeblock := s.freeblock + 1 }
  return s.freeblock

/-- `din.addrs[j]`, set if it is 0. -/
def addr (din : Dinode) (j : Fin 13) : MkM (Dinode × ℕ) := do
  if din.addrs j = 0 then
    let b ← nextBlock
    return (din.setAddr j b, ((din.setAddr j b).addrs j).toNat)
  else return (din, (din.addrs j).toNat)

/-- `indirect[j]`, set if it is 0. -/
def entry (ind j : ℕ) : MkM ℕ := do
  let indirect ← rsect ind
  if word indirect j = 0 then
    let b ← nextBlock
    let indirect := patch indirect (4 * j) 4 (leByte b)
    wsect ind indirect
    return word indirect j
  else return word indirect j

/-- Block `fbn` of the file: its number and what is in it. -/
def block (din : Dinode) (fbn : ℕ) : MkM (Dinode × ℕ × (ℕ → UInt8)) := do
  if fbn < ndirect then
    let (din, x) ← addr din (Fin.ofNat 13 fbn)
    return (din, x, ← rsect x)
  else
    let (din, ind) ← addr din 12
    let x ← entry ind (fbn - ndirect)
    return (din, x, ← rsect x)

/-- The loop of `iappend`. -/
def appendLoop : ℕ → Dinode → ℕ → List UInt8 → MkM (Dinode × ℕ)
  | 0, din, off, _ => return (din, off)
  | fuel + 1, din, off, p => do
    if p.length = 0 then return (din, off)
    else
      let fbn := off / bsize
      if maxfile ≤ fbn then throw "fbn < MAXFILE"
      let (din, x, buf) ← block din fbn
      let n1 := min p.length ((fbn + 1) * bsize - off)
      wsect x (patch buf (off - fbn * bsize) n1 fun k => p.getD k 0)
      appendLoop fuel din (off + n1) (p.drop n1)

/-- `iappend`.  Each round appends at least one byte. -/
def iappend (inum : ℕ) (p : List UInt8) : MkM Unit := do
  let din ← rinode inum
  let (din, off) ← appendLoop p.length din din.size.toNat p
  winode inum { din with size := UInt32.ofNat off }

/-- A file of the host: its name, which is an argument of `mkfs`, and what each `read` returns. -/
structure HostFile where
  name : List UInt8
  chunks : List (List UInt8)
  name_nul : 0 ∉ name
  chunk_length : ∀ c ∈ chunks, 0 < c.length ∧ c.length ≤ bsize

namespace HostFile

variable (f : HostFile)

def content : List UInt8 := f.chunks.flatten

/-- The name without a leading `_`. -/
def base : List UInt8 := if f.name.head? = some '_'.toUInt8 then f.name.tail else f.name

/-- The name as the kernel sees it. -/
def kname : Name := f.base.map fun b => Char.ofNat b.toNat

end HostFile

def appendAll (inum : ℕ) : List (List UInt8) → MkM Unit
  | [] => return ()
  | buf :: rest => do
    iappend inum buf
    appendAll inum rest

/-- The loop of `main` over its arguments. -/
def addFiles : List HostFile → MkM Unit
  | [] => return ()
  | f :: rest => do
    if '/'.toUInt8 ∈ f.name then throw "index(argv[i], '/') == 0"
    let inum ← ialloc tFile
    iappend rootino (direntBytes ⟨inum, f.kname⟩)
    appendAll inum f.chunks
    addFiles rest

/-- `main`, after the image is filled with zeros. -/
def main (files : List HostFile) : MkM Unit := do
  wsect 1 sbByte
  let root ← ialloc tDir
  if root ≠ rootino then throw "rootino == ROOTINO"
  iappend root (direntBytes ⟨root, dot⟩)
  iappend root (direntBytes ⟨root, dotdot⟩)
  addFiles files
  let din ← rinode root
  let off := din.size.toNat
  winode root { din with size := UInt32.ofNat ((off / bsize + 1) * bsize) }
  balloc (← get).freeblock

end Xv6.Mkfs

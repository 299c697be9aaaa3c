import Xv6Cow.Fs.Syscalls
import Xv6Cow.Proc.System
import Xv6Cow.Vm.Exec

/-!
# `exec` on the whole kernel (`exec.c`)

`exec` on the state it shares with the rest of the kernel: the process table, the size, name and
trap frame of each process, the file system over its blocks, and memory with its page tables.  The
file is read with `readi` under the lock of its inode, in a transaction; `goto bad` gives back what
`exec` has.

Of the trap frame only the two registers that `exec` writes are kept.
-/

namespace Xv6.Kernel

open Blocks (Iptr Fs FsM)
open Ptable (Table)

/-- What `struct proc` has beyond the process table. -/
structure Task where
  sz : ℕ
  eip : ℕ
  esp : ℕ
  name : List Char
deriving DecidableEq

structure Kern where
  table : Table
  task : Pid → Task
  fs : Fs
  vm : Vm
  /-- The directory the CPU uses. -/
  cr3 : Option ℕ

/-- How a call can fail to return: as in the file system, or with a panic of the rest of the kernel. -/
inductive Stop
  | fs (e : Blocks.Stop)
  | panic (msg : String)

abbrev KernM := EStateM Stop Kern

def onFs {α : Type} : FsM α → KernM α := Prog.zoom Kern.fs (fun k s => { k with fs := s }) .fs

def onVm {α : Type} : M α → KernM α := Prog.zoom Kern.vm (fun k s => { k with vm := s }) .panic

/-- The program is loaded from the file with the inode `ip`. -/
def loader (ip : Iptr) : Loader KernM := ⟨onVm, fun off n => onFs (Blocks.readi ip off n)⟩

section Link

variable [Link]

/-! ## `exec` -/

/-- What `exec` does to the numbers the scheduler goes by, before anything else. -/
def resetSched (p : Pid) (t : Table) : Table :=
  let pid := (t p).pid
  ((t.findAndSetSchedQueue Ptable.qLottery pid).findAndSetLotteryTicket 500 pid).findAndSetBurstTime
    0 pid

/-- `bad:` with the directory and the inode that `exec` has at that point. -/
def bad (pgdir : Option ℕ) (ip : Option Iptr) : KernM ℤ := do
  match pgdir with
  | some d => onVm (freevm d)
  | none => pure ()
  match ip with
  | some ip => do
    onFs (Blocks.iunlockput ip)
    onFs Blocks.endOp
  | none => pure ()
  pure (-1)

/-- The entry point in `struct elfhdr`. -/
def elfEntry (bs : List UInt8) : ℕ := Bytes.le (bytesOf bs) 24 4

/-- The path from behind its last `/`, as `safestrcpy` copies it to 16 characters. -/
def progName (path : List Char) : List Char := ((path.reverse.takeWhile (· ≠ '/')).reverse).take 15

/-- `panic`s of `switchuvm` first; the rest of it loads the directory. -/
def switchuvm (p : Pid) : KernM Unit := do
  let k ← get
  if (k.table p).kstack = none then throw (.panic "switchuvm: no kstack")
  else if (k.table p).pgdir = none then throw (.panic "switchuvm: no pgdir")
  else set { k with cr3 := (k.table p).pgdir }

/-- The new image is complete. -/
def commit (p : Pid) (path : List Char) (d sz eip esp : ℕ) : KernM ℤ := do
  let oldpgdir := ((← get).table p).pgdir
  modify fun k =>
    { k with
      table := k.table.set p ((k.table p).setPgdir d)
      task := Function.update k.task p ⟨sz, eip, esp, progName path⟩ }
  switchuvm p
  match oldpgdir with
  | some d => onVm (freevm d)
  | none => throw (.panic "freevm: no pgdir")
  pure 0

/-- `exec` from the point on where the file is closed. -/
def finishImage (p : Pid) (path : List Char) (d sz eip : ℕ) (argv : List (List UInt8)) : KernM ℤ := do
  match ← onVm (setupStack d sz argv) with
  | none => bad (some d) none
  | some (sz, sp) => commit p path d sz eip sp

/-- `exec` of the file with the inode `ip`, which is locked. -/
def execFile (p : Pid) (path : List Char) (ip : Iptr) (argv : List (List UInt8)) : KernM ℤ := do
  match ← (loader ip).readAll 0 Elfhdr.size with
  | none => bad none (some ip)
  | some bs =>
    let elf := Elfhdr.ofBytes bs
    if elf.magic ≠ elfMagic then bad none (some ip)
    else
      match ← onVm setupkvm with
      | none => bad none (some ip)
      | some d =>
        match ← (loader ip).loadSegments d elf.phnum elf.phoff 0 with
        | none => bad (some d) (some ip)
        | some sz => do
          onFs (Blocks.iunlockput ip)
          onFs Blocks.endOp
          finishImage p path d sz (elfEntry bs) argv

def exec (p : Pid) (path : List Char) (argv : List (List UInt8)) : KernM ℤ := do
  onFs Blocks.beginOp
  modify fun k => { k with table := resetSched p k.table }
  match ← onFs (Blocks.namei p path) with
  | none => do
    onFs Blocks.endOp
    pure (-1)
  | some ip => do
    onFs (Blocks.ilock ip)
    execFile p path ip argv

end Link

end Xv6.Kernel

import Xv6Cow.Lib.Ring
import Xv6Cow.Lib.Run

/-!
# Pipes

`pipe.c` for one pipe and any number of processes.  A step is what a process does between taking
`p->lock` and giving it up: `pipewrite` and `piperead` give it up when they return and when they
sleep, and a process that has been woken takes it again, after any others.  Calls of `pipeclose` may
come at any time until both ends are closed, when `kfree` takes the pipe away.
-/

namespace Xv6.Pipes

open Function Lts

abbrev pipeSize : ℕ := 512

instance : NeZero pipeSize := ⟨by decide⟩

structure Pipe where
  data : Fin pipeSize → UInt8
  /-- The number of bytes read. -/
  nread : BitVec 32
  /-- The number of bytes written. -/
  nwrite : BitVec 32
  readopen : Bool
  writeopen : Bool

/-- How a process leaves `pipewrite`: with `n`, with -1, or to sleep with `k` bytes left from
`addr[i]` on. -/
inductive WriteEnd
  | returns
  | fails
  | sleeps (i k : ℕ)
deriving DecidableEq

/-- How a process leaves `piperead`: with these bytes, with -1, or to sleep. -/
inductive ReadEnd
  | returns (bytes : List UInt8)
  | fails
  | sleeps

namespace Pipe

variable (p : Pipe)

/-- `p->data[p->nwrite++ % PIPESIZE] = b`. -/
def put (b : UInt8) : Pipe :=
  { p with data := update p.data (Ring.cell p.nwrite) b, nwrite := p.nwrite + 1#32 }

/-- `p->nread++`. -/
def advance : Pipe := { p with nread := p.nread + 1#32 }

/-- The loop of `pipewrite`, from `addr[i]` on with `k` bytes left.  It stores the bytes of the list. -/
def pipewrite (addr : ℕ → UInt8) (killed : Bool) (p : Pipe) (i : ℕ) :
    ℕ → Pipe × List UInt8 × WriteEnd
  | 0 => (p, [], .returns)
  | k + 1 =>
    if p.nwrite = p.nread + BitVec.ofNat 32 pipeSize then
      if p.readopen = false ∨ killed = true then (p, [], .fails) else (p, [], .sleeps i (k + 1))
    else
      let r := pipewrite addr killed (p.put (addr i)) (i + 1) k
      (r.1, addr i :: r.2.1, r.2.2)

/-- The second loop of `piperead`. -/
def copy (p : Pipe) : ℕ → Pipe × List UInt8
  | 0 => (p, [])
  | k + 1 =>
    if p.nread = p.nwrite then (p, [])
    else
      let r := p.advance.copy k
      (r.1, p.data (Ring.cell p.nread) :: r.2)

def piperead (killed : Bool) (n : ℤ) : Pipe × ReadEnd :=
  if p.nread = p.nwrite ∧ p.writeopen = true then
    if killed then (p, .fails) else (p, .sleeps)
  else ((p.copy n.toNat).1, .returns (p.copy n.toNat).2)

/-- The flags of `pipeclose`. -/
def closeEnd (writable : Bool) : Pipe :=
  if writable then { p with writeopen := false } else { p with readopen := false }

def isOpen (writable : Bool) : Bool := if writable then p.writeopen else p.readopen

/-- The pipe has been given to `kfree`. -/
def freed : Bool := !p.readopen && !p.writeopen

theorem isOpen_closeEnd (w w' : Bool) : (p.closeEnd w).isOpen w' = (w' != w && p.isOpen w') := by
  cases w <;> cases w' <;> simp [closeEnd, isOpen]

theorem copy_isOpen (p : Pipe) (w : Bool) (k : ℕ) : (p.copy k).1.isOpen w = p.isOpen w := by
  induction k generalizing p with
  | zero => rfl
  | succ k ih =>
    unfold copy
    split
    · rfl
    · exact (ih p.advance).trans rfl

theorem piperead_isOpen (killed : Bool) (n : ℤ) (w : Bool) :
    (p.piperead killed n).1.isOpen w = p.isOpen w := by
  unfold piperead
  split
  · split <;> rfl
  · exact p.copy_isOpen w n.toNat

theorem pipewrite_isOpen (addr : ℕ → UInt8) (killed : Bool) (p : Pipe) (i k : ℕ) (w : Bool) :
    (pipewrite addr killed p i k).1.isOpen w = p.isOpen w := by
  induction k generalizing p i with
  | zero => rfl
  | succ k ih =>
    unfold pipewrite
    split
    · split <;> rfl
    · exact (ih (p.put (addr i)) (i + 1)).trans rfl

theorem freed_eq_isOpen : p.freed = (!p.isOpen false && !p.isOpen true) := rfl

theorem isOpen_of_freed {p : Pipe} (h : p.freed = true) (w : Bool) : p.isOpen w = false := by
  cases w <;> simp_all [freed, isOpen]

end Pipe

/-- What a process is doing.  A writer sleeps on `&p->nwrite` and a reader on `&p->nread`; if not
asleep, it waits for the lock. -/
inductive Task
  | idle
  | write (addr : ℕ → UInt8) (i k : ℕ) (asleep : Bool)
  | read (n : ℤ) (asleep : Bool)

/-- `wakeup(&p->nread)`. -/
def Task.wakeReader : Task → Task
  | .read n _ => .read n false
  | t => t

/-- `wakeup(&p->nwrite)`. -/
def Task.wakeWriter : Task → Task
  | .write addr i k _ => .write addr i k false
  | t => t

variable {P : Type} [DecidableEq P]

structure Sys (P : Type) where
  pipe : Pipe
  task : P → Task
  killed : P → Bool
  /-- The bytes stored by all writes. -/
  written : List UInt8
  /-- The bytes returned by all reads. -/
  taken : List UInt8

inductive Op
  | pipewrite (addr : ℕ → UInt8) (n : ℤ)
  | piperead (n : ℤ)
  /-- The process gets the lock. -/
  | run
  | pipeclose (writable : Bool)
  | kill

namespace Sys

variable (s : Sys P)

def setTask (p : P) (t : Task) : Sys P := { s with task := update s.task p t }

def wakeReaders : Sys P := { s with task := fun q => (s.task q).wakeReader }

def wakeWriters : Sys P := { s with task := fun q => (s.task q).wakeWriter }

/-- A process in `pipewrite` runs until it returns or sleeps. -/
def runWrite (p : P) (addr : ℕ → UInt8) (i k : ℕ) : Sys P :=
  let r := s.pipe.pipewrite addr (s.killed p) i k
  let s' : Sys P := { s with pipe := r.1, written := s.written ++ r.2.1 }
  match r.2.2 with
  | .returns => s'.wakeReaders.setTask p .idle
  | .fails => s'.setTask p .idle
  | .sleeps i k => s'.wakeReaders.setTask p (.write addr i k true)

/-- A process in `piperead` runs until it returns or sleeps. -/
def runRead (p : P) (n : ℤ) : Sys P :=
  let r := s.pipe.piperead (s.killed p) n
  match r.2 with
  | .returns bytes =>
    { s with pipe := r.1, taken := s.taken ++ bytes }.wakeWriters.setTask p .idle
  | .fails => s.setTask p .idle
  | .sleeps => s.setTask p (.read n true)

def pipeclose (writable : Bool) : Sys P :=
  let s' := { s with pipe := s.pipe.closeEnd writable }
  if writable then s'.wakeReaders else s'.wakeWriters

/-- `kill` sets the flag and wakes the process. -/
def kill (p : P) : Sys P :=
  { s with
    killed := update s.killed p true
    task := update s.task p (s.task p).wakeReader.wakeWriter }

end Sys

/-- One section of a process. -/
def step (s : Sys P) (l : P × Op) : Option (Sys P) :=
  match l.2 with
  | .kill => some (s.kill l.1)
  | op =>
    if s.pipe.freed then none
    else
      match op, s.task l.1 with
      | .pipewrite addr n, .idle => some (s.setTask l.1 (.write addr 0 n.toNat false))
      | .piperead n, .idle => some (s.setTask l.1 (.read n false))
      | .run, .write addr i k false => some (s.runWrite l.1 addr i k)
      | .run, .read n false => some (s.runRead l.1 n)
      | .pipeclose writable, .idle => some (s.pipeclose writable)
      | _, _ => none

/-- After `pipealloc`, on a page with any contents. -/
def pipealloc (P : Type) (data : Fin pipeSize → UInt8) : Sys P where
  pipe := ⟨data, 0, 0, true, true⟩
  task _ := .idle
  killed _ := false
  written := []
  taken := []

end Xv6.Pipes

import Xv6Cow.Lib.Run
import Xv6Cow.Vm.Uvm

/-!
# Processes and their memory

The operations of processes on their address spaces: `fork`, `sbrk`, stores and loads, `exit` with
the parent's `wait`; each is one atomic step.  A store through an entry without `PTE_W` traps to
`pagefault` and is retried.  `EagerStep` is the reference: every process owns its pages, `fork`
copies all of them and a store changes the process's own page.
-/

namespace Xv6

open Function Prog

def nproc : ℕ := 64

theorem nproc_pos : 0 < nproc := by decide

/-- The fields of `struct proc` that matter to memory. -/
structure Proc where
  pgdir : ℕ
  sz : ℕ
  kstack : ℕ
  killed : Bool

/-- The process table (`none` is an `UNUSED` slot) and the memory.  Slot 0 holds `initproc`. -/
structure Sys where
  proc : Fin nproc → Option Proc
  vm : Vm

/-- Kernel code over the process table. -/
abbrev SysM := EStateM String Sys

/-- Code that only touches the memory. -/
def onVm {α : Type} (x : M α) : SysM α := fun s =>
  match x s.vm with
  | .ok a v => .ok a { s with vm := v }
  | .error e v => .error e { s with vm := v }

@[simp] theorem wp_onVm {α : Type} {x : M α} {Q : α → Sys → Prop} {E : String → Sys → Prop}
    {s : Sys} : wp (onVm x) Q E s =
      wp x (fun a v => Q a { s with vm := v }) (fun e v => E e { s with vm := v }) s.vm := by
  unfold wp onVm
  cases x s.vm <;> rfl

def setProc (p : Fin nproc) (q : Option Proc) : SysM Unit :=
  modify fun s => { s with proc := update s.proc p q }

/-- The first `UNUSED` slot. -/
def Sys.unused (s : Sys) : Option (Fin nproc) :=
  (List.finRange nproc).find? fun c => (s.proc c).isNone

section Link

variable [Link]

/-- `fork`, with the parts of `allocproc` that concern memory: the slot of the child, if any. -/
def fork (q : Proc) : SysM (Option (Fin nproc)) := do
  let s ← get
  match s.unused with
  | none => pure none
  | some c =>
    match ← onVm kalloc with
    | none => pure none
    | some kstack =>
      match ← onVm (copyuvm q.pgdir q.sz) with
      | none => do
        onVm (kfree kstack)
        pure none
      | some d => do
        setProc c (some ⟨d, q.sz, kstack, false⟩)
        pure (some c)

/-- `sz + n` as a `uint`. -/
def addSize (sz : ℕ) (n : ℤ) : ℕ := ((sz + n) % (word : ℤ)).toNat

/-- `growproc(n)`: whether it returned 0. -/
def growproc (p : Fin nproc) (q : Proc) (n : ℤ) : SysM Bool := do
  let sz ← if 0 < n then onVm (allocuvm q.pgdir q.sz (addSize q.sz n))
    else if n < 0 then onVm (deallocuvm q.pgdir q.sz (addSize q.sz n))
    else pure q.sz
  if n ≠ 0 ∧ sz = 0 then pure false
  else do
    setProc p (some { q with sz })
    pure true

/-- The frame the hardware writes to for a store to `va`: `%cr0` has `WP` set, so the kernel needs
`PTE_W` as well, but not `PTE_U`. -/
def Vm.writable (s : Vm) (d va : ℕ) (user : Bool) : Bool :=
  va < kernbase && (s.pte d (va / pgsize)).p && (s.pte d (va / pgsize)).w &&
    (!user || (s.pte d (va / pgsize)).u)

/-- A one-byte write to a page. -/
def Page.write (pg : Page) (o : ℕ) (b : UInt8) : Page := update pg o b

/-- The result of a store. -/
inductive Stored
  | stored
  | killed

/-- Write a byte through the entry of its page. -/
def writeByte (d va : ℕ) (b : UInt8) : M Unit := modify fun s =>
  let f := (s.pte d (va / pgsize)).frame
  s.setMem f (Page.write (s.mem f) (va % pgsize) b)

/-- A store; if it traps, it is tried again after the handler has returned. -/
def store (p : Fin nproc) (q : Proc) (user : Bool) (va : ℕ) (b : UInt8) : SysM Stored := do
  let s ← get
  if s.vm.writable q.pgdir va user then do
    onVm (writeByte q.pgdir va b)
    pure .stored
  else
    match ← onVm (pagefault q.pgdir va) with
    | .killed => do
      setProc p (some { q with killed := true })
      pure .killed
    | .handled => do
      let s ← get
      if s.vm.writable q.pgdir va user then do
        onVm (writeByte q.pgdir va b)
        pure .stored
      else throw "store faults again"

/-- A load by user code: the byte, or `none` if the access kills the process. -/
def load (p : Fin nproc) (q : Proc) (va : ℕ) : SysM (Option UInt8) := do
  let s ← get
  let e := s.vm.pte q.pgdir (va / pgsize)
  if va < kernbase && e.p && e.u then pure (some (s.vm.mem e.frame (va % pgsize)))
  else
    match ← onVm (pagefault q.pgdir va) with
    | .killed => do
      setProc p (some { q with killed := true })
      pure none
    | .handled => throw "load faults again"

/-- `exit` of a process, and the `wait` that frees what is left of it. -/
def exitWait (p : Fin nproc) (q : Proc) : SysM Unit := do
  if p.val = 0 then throw "init exiting"
  else do
    onVm (kfree q.kstack)
    onVm (freevm q.pgdir)
    setProc p none

/-- `userinit`: the first process, with the initcode in page 0. -/
def userinit (init : ℕ → UInt8) (n : ℕ) : SysM Unit := do
  match ← onVm kalloc with
  | none => throw "userinit: null process"
  | some kstack =>
    match ← onVm setupkvm with
    | none => throw "userinit: out of memory?"
    | some d => do
      onVm (inituvm d init n)
      setProc ⟨0, nproc_pos⟩ (some ⟨d, pgsize, kstack, false⟩)

/-- What can happen to the memory of processes. -/
inductive SysOp
  | fork (p : Fin nproc)
  | sbrk (p : Fin nproc) (n : ℤ)
  | store (p : Fin nproc) (user : Bool) (va : ℕ) (b : UInt8)
  | load (p : Fin nproc) (va : ℕ)
  | exitWait (p : Fin nproc)
  /-- The allocator may hand out its free pages in any order, and any allocation may fail. -/
  | shuffle (freelist : List ℕ) (oom : List Bool)

/-- What an operation returned. -/
inductive SysRes
  | child (c : Option (Fin nproc))
  | ok (b : Bool)
  | stored (r : Stored)
  | byte (b : Option UInt8)
  | unit

/-- One operation, by a live process. -/
inductive SysStep : Sys → SysOp × SysRes → Sys → Prop
  | fork {s t : Sys} {p : Fin nproc} {q : Proc} {r : Option (Fin nproc)} (hp : s.proc p = some q)
      (h : Xv6.fork q s = .ok r t) : SysStep s (.fork p, .child r) t
  | sbrk {s t : Sys} {p : Fin nproc} {q : Proc} {n : ℤ} {r : Bool} (hp : s.proc p = some q)
      (h : growproc p q n s = .ok r t) : SysStep s (.sbrk p n, .ok r) t
  | store {s t : Sys} {p : Fin nproc} {q : Proc} {user : Bool} {va : ℕ} {b : UInt8} {r : Stored}
      (hp : s.proc p = some q) (h : Xv6.store p q user va b s = .ok r t) :
      SysStep s (.store p user va b, .stored r) t
  | load {s t : Sys} {p : Fin nproc} {q : Proc} {va : ℕ} {r : Option UInt8}
      (hp : s.proc p = some q) (h : Xv6.load p q va s = .ok r t) :
      SysStep s (.load p va, .byte r) t
  | exitWait {s t : Sys} {p : Fin nproc} {q : Proc} (hp : s.proc p = some q)
      (h : Xv6.exitWait p q s = .ok () t) : SysStep s (.exitWait p, .unit) t
  | shuffle {s : Sys} {fl : List ℕ} {oom : List Bool} (hp : fl.Perm s.vm.freelist) :
      SysStep s (.shuffle fl oom, .unit) { s with vm := { s.vm with freelist := fl, oom } }

end Link

/-! ## The reference -/

/-- The address space of a process: its own pages, and its size. -/
structure Space where
  page : ℕ → Option Page
  sz : ℕ

/-- The byte a process reads at `va`. -/
def Space.read (a : Space) (va : ℕ) : Option UInt8 := (a.page (va / pgsize)).map (· (va % pgsize))

/-- The address spaces of the processes. -/
abbrev Spaces := Fin nproc → Option Space

/-- Page `v` lies between two sizes of an address space. -/
def Between (sz sz' v : ℕ) : Prop :=
  pgroundup (min sz sz') ≤ v ∧ v * pgsize < max sz sz'

/-- A store to the process's own page. -/
def Space.store (a : Space) (va : ℕ) (b : UInt8) : Space where
  page := update a.page (va / pgsize)
    ((a.page (va / pgsize)).map fun pg => Page.write pg (va % pgsize) b)
  sz := a.sz

/-- The reference semantics of the same operations. -/
inductive EagerStep : Spaces → SysOp × SysRes → Spaces → Prop
  /-- The child gets a copy of every page of the parent. -/
  | fork {m : Spaces} {p c : Fin nproc} {a : Space} (hp : m p = some a) :
      EagerStep m (.fork p, .child (some c)) (update m c (some a))
  | forkFailed {m : Spaces} {p : Fin nproc} : EagerStep m (.fork p, .child none) m
  /-- Growing adds zero pages above the old size. -/
  | grown {m : Spaces} {p : Fin nproc} {n : ℤ} {a : Space} {page : ℕ → Option Page}
      (hp : m p = some a) (hn : 0 < n)
      (hpage : ∀ v, page v = a.page v ∨ Between a.sz (addSize a.sz n) v ∧
        (page v = none ∨ page v = some fun _ => 0)) :
      EagerStep m (.sbrk p n, .ok true)
        (update m p (some ⟨page, max a.sz (addSize a.sz n)⟩))
  /-- Shrinking removes pages above the new size. -/
  | shrunk {m : Spaces} {p : Fin nproc} {n : ℤ} {a : Space} {page : ℕ → Option Page}
      (hp : m p = some a) (hn : n ≤ 0)
      (hpage : ∀ v, page v = a.page v ∨ Between a.sz (addSize a.sz n) v ∧ page v = none) :
      EagerStep m (.sbrk p n, .ok true)
        (update m p (some ⟨page, min a.sz (addSize a.sz n)⟩))
  /-- A failed `sbrk` keeps the size. -/
  | sbrkFailed {m : Spaces} {p : Fin nproc} {n : ℤ} {a : Space} {page : ℕ → Option Page}
      (hp : m p = some a)
      (hpage : ∀ v, page v = a.page v ∨ Between a.sz (addSize a.sz n) v ∧
        (page v = none ∨ page v = some fun _ => 0)) :
      EagerStep m (.sbrk p n, .ok false) (update m p (some { a with page }))
  | stored {m : Spaces} {p : Fin nproc} {user : Bool} {va : ℕ} {b : UInt8} {a : Space}
      (hp : m p = some a) :
      EagerStep m (.store p user va b, .stored .stored) (update m p (some (a.store va b)))
  | killed {m : Spaces} {p : Fin nproc} {user : Bool} {va : ℕ} {b : UInt8} :
      EagerStep m (.store p user va b, .stored .killed) m
  /-- A load reads the process's own page. -/
  | load {m : Spaces} {p : Fin nproc} {va : ℕ} {b : UInt8} {a : Space} {pg : Page}
      (hp : m p = some a) (hpg : a.page (va / pgsize) = some pg) (hb : pg (va % pgsize) = b) :
      EagerStep m (.load p va, .byte (some b)) m
  | loadKilled {m : Spaces} {p : Fin nproc} {va : ℕ} : EagerStep m (.load p va, .byte none) m
  | exitWait {m : Spaces} {p : Fin nproc} :
      EagerStep m (.exitWait p, .unit) (update m p none)
  | shuffle {m : Spaces} {fl : List ℕ} {oom : List Bool} : EagerStep m (.shuffle fl oom, .unit) m

end Xv6

import Xv6Cow.Vm.System

/-!
# Address spaces on several CPUs

The functions of `vm.c` again, cut where other CPUs can get in: every
`acquire(&lock)`…`release(&lock)` section, and every `kalloc` between two of them, is one step.
What lies between touches only the page table of the process itself.

A frame that is neither free nor a user page (a page table, a directory, a kernel stack, a pipe) is
an `other` frame; the rest of the kernel takes and returns such frames at any time.  No allocation
fails, and a panic leaves no step.
-/

namespace Xv6

open Function Lts

/-- The user half of a page directory: which page tables exist, and their entries. -/
structure Dir where
  tab : ℕ → Bool
  pte : ℕ → Pte

namespace Dir

def empty : Dir := ⟨fun _ => false, fun _ => .zero⟩

/-- Write the entry of page `v`. -/
def set (D : Dir) (v : ℕ) (e : Pte) : Dir := { D with pte := update D.pte v e }

/-- `mappages` of one page; `walkpgdir` creates the page table if there is none. -/
def map (D : Dir) (v : ℕ) (e : Pte) : Dir :=
  ⟨update D.tab (v / nptentries) true, update D.pte v e⟩

end Dir

/-- Who called `deallocuvm`. -/
inductive Caller
  | growproc
  | freevm
deriving DecidableEq

/-- Where a process stands in the code. -/
inductive Pc
  /-- No operation is in progress. -/
  | idle
  /-- A child whose address space `copyuvm` still fills. -/
  | embryo
  /-- `pagefault` has read a count above 1 and calls `kalloc`. -/
  | alloc (v f : ℕ)
  /-- `pagefault` has the copy and is before its second section. -/
  | swap (v f m : ℕ)
  /-- The head of the loop of `allocuvm`. -/
  | grow (v newsz : ℕ)
  /-- `allocuvm` has mapped the page and is before its section. -/
  | count (v newsz f : ℕ)
  /-- The head of the loop of `deallocuvm`. -/
  | dealloc (v oldsz newsz : ℕ) (caller : Caller)
  /-- The head of the loop of `copyuvm`, for the child in slot `c`. -/
  | copy (c : Fin nproc) (v : ℕ)
deriving DecidableEq

/-- A process. -/
structure Task where
  dir : Dir
  sz : ℕ
  pc : Pc

/-- The shared state. -/
structure Smp where
  freelist : List ℕ
  refcount : ℕ → ℤ
  task : Fin nproc → Option Task
  /-- The frames in use for anything but user memory. -/
  other : ℕ → Bool
  /-- The frames last handed out for user memory. -/
  user : ℕ → Bool

namespace Smp

def setTask (s : Smp) (p : Fin nproc) (t : Option Task) : Smp :=
  { s with task := update s.task p t }

/-- `pg_refcount[f] = pg_refcount[f] + k`. -/
def addRef (s : Smp) (f : ℕ) (k : ℤ) : Smp :=
  { s with refcount := update s.refcount f (toChar (s.refcount f + k)) }

/-- `kalloc` of the head of the free list, for user memory. -/
def take (s : Smp) (f : ℕ) (fs : List ℕ) : Smp :=
  { s with freelist := fs, user := update s.user f true }

end Smp

/-- The steps. -/
inductive SmpOp
  | fault (v : ℕ)
  | alloc
  | swap
  | sbrk (newsz : ℕ)
  | grow
  | count
  | dealloc
  | fork (c : Fin nproc)
  | copy
  | exitWait
  | kalloc
  | kfree (f : ℕ)
deriving DecidableEq

/-- One step of process `p`.  For `kalloc` and `kfree` of other frames it does not matter whose. -/
inductive SmpStep : Smp → Fin nproc × SmpOp → Smp → Prop
  /-- The first section of `pagefault`, with count 1. -/
  | grant {s p t v f} (hp : s.task p = some t) (hpc : t.pc = .idle) (hv : v < kernpage)
      (htab : t.dir.tab (v / nptentries) = true) (he : t.dir.pte v = ⟨f, true, false, true⟩)
      (hc : s.refcount f = 1) :
      SmpStep s (p, .fault v)
        (s.setTask p (some { t with dir := t.dir.set v ⟨f, true, true, true⟩ }))
  /-- The first section of `pagefault`, with a larger count. -/
  | shared {s p t v f} (hp : s.task p = some t) (hpc : t.pc = .idle) (hv : v < kernpage)
      (htab : t.dir.tab (v / nptentries) = true) (he : t.dir.pte v = ⟨f, true, false, true⟩)
      (hc : 1 < s.refcount f) :
      SmpStep s (p, .fault v) (s.setTask p (some { t with pc := .alloc v f }))
  /-- `kalloc` and `memmove` of `pagefault`. -/
  | alloc {s p t v f m fs} (hp : s.task p = some t) (hpc : t.pc = .alloc v f)
      (hf : s.freelist = m :: fs) :
      SmpStep s (p, .alloc) ((s.take m fs).setTask p (some { t with pc := .swap v f m }))
  /-- The second section of `pagefault`; the entry then points to the copy. -/
  | swap {s p t v f m} (hp : s.task p = some t) (hpc : t.pc = .swap v f m) :
      SmpStep s (p, .swap) (((s.addRef f (-1)).addRef m 1).setTask p
        (some { t with dir := t.dir.set v ⟨m, true, true, true⟩, pc := .idle }))
  /-- `allocuvm` starts. -/
  | sbrkGrow {s p t newsz} (hp : s.task p = some t) (hpc : t.pc = .idle) (hsz : t.sz ≤ newsz)
      (hk : newsz < kernbase) :
      SmpStep s (p, .sbrk newsz)
        (s.setTask p (some { t with pc := .grow (pgroundup t.sz) newsz }))
  | grow {s p t v newsz f fs} (hp : s.task p = some t) (hpc : t.pc = .grow v newsz)
      (hv : v * pgsize < newsz) (hf : s.freelist = f :: fs) :
      SmpStep s (p, .grow) ((s.take f fs).setTask p (some { t with pc := .count v newsz f }))
  /-- The section of `allocuvm`, with the `mappages` before it. -/
  | count {s p t v newsz f} (hp : s.task p = some t) (hpc : t.pc = .count v newsz f)
      (he : (t.dir.pte v).p = false) :
      SmpStep s (p, .count) ((s.addRef f 1).setTask p
        (some { t with dir := t.dir.map v ⟨f, true, true, true⟩, pc := .grow (v + 1) newsz }))
  | grown {s p t v newsz} (hp : s.task p = some t) (hpc : t.pc = .grow v newsz)
      (hv : newsz ≤ v * pgsize) :
      SmpStep s (p, .grow) (s.setTask p (some { t with sz := newsz, pc := .idle }))
  /-- `deallocuvm` starts, from `growproc`. -/
  | sbrkShrink {s p t newsz} (hp : s.task p = some t) (hpc : t.pc = .idle) (hsz : newsz < t.sz) :
      SmpStep s (p, .sbrk newsz)
        (s.setTask p (some { t with pc := .dealloc (pgroundup newsz) t.sz newsz .growproc }))
  /-- `exit`, and the `wait` that calls `freevm`. -/
  | exitWait {s p t} (hp : s.task p = some t) (hpc : t.pc = .idle) (h0 : p.val ≠ 0) :
      SmpStep s (p, .exitWait) (s.setTask p (some { t with pc := .dealloc 0 kernbase 0 .freevm }))
  /-- There is no page table: the source skips `NPTENTRIES` pages. -/
  | skipTable {s p t v oldsz newsz caller} (hp : s.task p = some t)
      (hpc : t.pc = .dealloc v oldsz newsz caller) (hv : v * pgsize < oldsz)
      (htab : t.dir.tab (v / nptentries) = false) :
      SmpStep s (p, .dealloc) (s.setTask p
        (some { t with pc := .dealloc (v + (nptentries - 1) + 1) oldsz newsz caller }))
  | skipPage {s p t v oldsz newsz caller} (hp : s.task p = some t)
      (hpc : t.pc = .dealloc v oldsz newsz caller) (hv : v * pgsize < oldsz)
      (htab : t.dir.tab (v / nptentries) = true) (he : (t.dir.pte v).p = false) :
      SmpStep s (p, .dealloc) (s.setTask p
        (some { t with pc := .dealloc (v + 1) oldsz newsz caller }))
  /-- The section of `deallocuvm`: other entries still map the frame. -/
  | drop {s p t v oldsz newsz caller f} (hp : s.task p = some t)
      (hpc : t.pc = .dealloc v oldsz newsz caller) (hv : v * pgsize < oldsz)
      (htab : t.dir.tab (v / nptentries) = true) (he : (t.dir.pte v).p = true)
      (hf : (t.dir.pte v).frame = f) (h0 : f ≠ 0) (hc : (s.addRef f (-1)).refcount f ≠ 0) :
      SmpStep s (p, .dealloc) ((s.addRef f (-1)).setTask p (some { t with
        dir := t.dir.set v .zero, pc := .dealloc (v + 1) oldsz newsz caller }))
  /-- The section of `deallocuvm`: the count reaches 0. -/
  | dropLast {s p t v oldsz newsz caller f} (hp : s.task p = some t)
      (hpc : t.pc = .dealloc v oldsz newsz caller) (hv : v * pgsize < oldsz)
      (htab : t.dir.tab (v / nptentries) = true) (he : (t.dir.pte v).p = true)
      (hf : (t.dir.pte v).frame = f) (h0 : f ≠ 0) (hc : (s.addRef f (-1)).refcount f = 0) :
      SmpStep s (p, .dealloc) ({ s.addRef f (-1) with freelist := f :: s.freelist }.setTask p
        (some { t with dir := t.dir.set v .zero, pc := .dealloc (v + 1) oldsz newsz caller }))
  /-- `growproc` keeps the old size if `deallocuvm` returns 0. -/
  | shrunk {s p t v oldsz newsz} (hp : s.task p = some t)
      (hpc : t.pc = .dealloc v oldsz newsz .growproc) (hv : oldsz ≤ v * pgsize) :
      SmpStep s (p, .dealloc) (s.setTask p
        (some { t with sz := if newsz = 0 then t.sz else newsz, pc := .idle }))
  /-- The page tables and the directory are other frames. -/
  | freed {s p t v oldsz newsz} (hp : s.task p = some t)
      (hpc : t.pc = .dealloc v oldsz newsz .freevm) (hv : oldsz ≤ v * pgsize) :
      SmpStep s (p, .dealloc) (s.setTask p none)
  /-- `fork` takes a slot, and `copyuvm` calls `setupkvm`. -/
  | fork {s p t c} (hp : s.task p = some t) (hpc : t.pc = .idle) (hc : s.task c = none) :
      SmpStep s (p, .fork c) ((s.setTask c (some ⟨.empty, 0, .embryo⟩)).setTask p
        (some { t with pc := .copy c 0 }))
  /-- The section of `copyuvm`, with the change of both entries before it. -/
  | copy {s p t c k v e} (hp : s.task p = some t) (hpc : t.pc = .copy c v)
      (hv : v * pgsize < t.sz) (htab : t.dir.tab (v / nptentries) = true)
      (he : t.dir.pte v = e) (hep : e.p = true) (hc : s.task c = some k)
      (hk : (k.dir.pte v).p = false) :
      SmpStep s (p, .copy) (((s.addRef e.frame 1).setTask c
        (some { k with dir := k.dir.map v { e with w := false } })).setTask p
        (some { t with dir := t.dir.set v { e with w := false }, pc := .copy c (v + 1) }))
  | copied {s p t c k v} (hp : s.task p = some t) (hpc : t.pc = .copy c v)
      (hv : t.sz ≤ v * pgsize) (hc : s.task c = some k) :
      SmpStep s (p, .copy) ((s.setTask c (some { k with sz := t.sz, pc := .idle })).setTask p
        (some { t with pc := .idle }))
  /-- The rest of the kernel takes a frame. -/
  | kalloc {s p f fs} (hf : s.freelist = f :: fs) :
      SmpStep s (p, .kalloc) { s with
        freelist := fs
        other := update s.other f true
        user := update s.user f false }
  /-- The rest of the kernel returns a frame. -/
  | kfree {s p f} (hf : s.other f = true) :
      SmpStep s (p, .kfree f) { s with
        freelist := f :: s.freelist
        other := update s.other f false }

namespace Smp

/-- The present user entries that map `f`. -/
def mappings (s : Smp) (f : ℕ) : Set (Fin nproc × ℕ) :=
  {x | ∃ t, s.task x.1 = some t ∧ (t.dir.pte x.2).p = true ∧ (t.dir.pte x.2).frame = f}

/-- No operation on an address space is in progress. -/
def Quiet (s : Smp) : Prop := ∀ p t, s.task p = some t → t.pc = .idle

/-- Every frame last handed out for user memory is free, or mapped as often as counted. -/
def NoneLost (s : Smp) : Prop :=
  ∀ f, s.user f = true → f ∈ s.freelist ∨
    0 < (s.mappings f).ncard ∧ s.refcount f = ((s.mappings f).ncard : ℤ)

/-- The state after `userinit`: one process, with one page in frame `f`. -/
def start (f : ℕ) (freelist : List ℕ) (other : List ℕ) : Smp where
  freelist := freelist
  refcount := update (fun _ => 0) f 1
  task := update (fun _ => none) ⟨0, nproc_pos⟩
    (some ⟨Dir.empty.map 0 ⟨f, true, true, true⟩, pgsize, .idle⟩)
  other := fun g => g ∈ other
  user := fun g => g = f

end Smp

/-- The condition on the second section of `pagefault`: the frame is still shared. -/
def StillShared (s : Smp) (l : Fin nproc × SmpOp) : Prop :=
  l.2 = .swap → ∀ t v f m, s.task l.1 = some t → t.pc = .swap v f m → 1 < s.refcount f

end Xv6

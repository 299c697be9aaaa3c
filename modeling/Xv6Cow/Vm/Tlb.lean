import Xv6Cow.Lib.Cached
import Xv6Cow.Vm.Smp

/-!
# Page tables and what the CPUs remember of them

A CPU may cache any present entry of the directory in `cr3`, at any time, and forgets it only when
`cr3` is loaded.  So the functions of `vm.c` that work on the directory of the running process are
modelled with what they do to it, entry by entry, and with their calls of `lcr3`.  What `kalloc`
returns and what `pg_refcount` holds is given to them.  All entries of a directory are those of its
user half, and `pagefault` is taken to work on the process that runs.
-/

namespace Xv6.Tlb

open Function Lts Cached

abbrev Ev := Cached.Ev ℕ Pte

/-- The directory `D`, and what has been done to it since. -/
structure Space (D : Dir) where
  dir : Dir
  evs : List Ev
  eq : dir.pte = applyAll D.pte evs

namespace Space

variable {D : Dir} (a : Space D)

def start (D : Dir) : Space D := ⟨D, [], rfl⟩

def write (v : ℕ) (e : Pte) : Space D where
  dir := a.dir.set v e
  evs := a.evs ++ [.write v e]
  eq := by
    rw [applyAll_append, ← a.eq]
    rfl

def map (v : ℕ) (e : Pte) : Space D where
  dir := a.dir.map v e
  evs := a.evs ++ [.write v e]
  eq := by
    rw [applyAll_append, ← a.eq]
    rfl

def lcr3 : Space D where
  dir := a.dir
  evs := a.evs ++ [.flush]
  eq := by
    rw [applyAll_append, ← a.eq]
    rfl

end Space

/-! ## The functions of `vm.c` -/

section Functions

variable {D : Dir}

/-- `mappages` of one page; the flag says whether there is, or will be, a page table. -/
def mappages (v : ℕ) (e : Pte) (table : Bool) (a : Space D) : Except String (Space D × Bool) :=
  if a.dir.tab (v / nptentries) || table then
    if (a.dir.pte v).p then throw "remap" else pure (a.map v e, true)
  else pure (a, false)

/-- The loop of `deallocuvm`, from page `v` on. -/
def deallocuvmLoop (oldsz v : ℕ) (a : Space D) : Except String (Space D) :=
  if v * pgsize < oldsz then
    if a.dir.tab (v / nptentries) then
      if (a.dir.pte v).p then
        if (a.dir.pte v).frame = 0 then throw "kfree"
        else deallocuvmLoop oldsz (v + 1) (a.write v .zero)
      else deallocuvmLoop oldsz (v + 1) a
    else deallocuvmLoop oldsz (v + (nptentries - 1) + 1) a
  else pure a
termination_by oldsz - v * pgsize
decreasing_by all_goals
  simp only [pgsize, nptentries] at *
  omega

def deallocuvm (oldsz newsz : ℕ) (a : Space D) : Except String (Space D × ℕ) :=
  if oldsz ≤ newsz then pure (a, oldsz)
  else do
    let a ← deallocuvmLoop oldsz (pgroundup newsz) a
    pure (a, newsz)

variable (frame : ℕ → Option ℕ) (table : ℕ → Bool)

/-- The loop of `allocuvm`, from page `v` on.  The result of `mappages` is ignored. -/
def allocuvmLoop (oldsz newsz v : ℕ) (a : Space D) : Except String (Space D × ℕ) :=
  if v * pgsize < newsz then
    match frame v with
    | none => do
      let (a, _) ← deallocuvm newsz oldsz a
      pure (a, 0)
    | some f => do
      let (a, _) ← mappages v ⟨f, true, true, true⟩ (table v) a
      allocuvmLoop oldsz newsz (v + 1) a
  else pure (a, newsz)
termination_by newsz - v * pgsize
decreasing_by
  simp only [pgsize] at *
  omega

def allocuvm (oldsz newsz : ℕ) (a : Space D) : Except String (Space D × ℕ) :=
  if kernbase ≤ newsz then pure (a, 0)
  else if newsz < oldsz then pure (a, oldsz)
  else allocuvmLoop frame table oldsz newsz (pgroundup oldsz) a

/-- What `growproc(n)` gets from `allocuvm` or `deallocuvm`. -/
def resize (sz : ℕ) (n : ℤ) (a : Space D) : Except String (Space D × ℕ) :=
  if 0 < n then allocuvm frame table sz (addSize sz n) a
  else if n < 0 then deallocuvm sz (addSize sz n) a
  else pure (a, sz)

/-- `growproc(n)` of a process of size `sz`: the new size, if it returns 0. -/
def growproc (sz : ℕ) (n : ℤ) (a : Space D) : Except String (Space D × Option ℕ) := do
  let (a, sz) ← resize frame table sz n a
  if n ≠ 0 ∧ sz = 0 then pure (a, none)
  -- `switchuvm` loads the directory again
  else pure (a.lcr3, some sz)

/-- The loop of `copyuvm`, from page `v` on, with the directory of the child so far. -/
def copyuvmLoop (sz v : ℕ) (a : Space D) (d : Dir) : Except String (Space D × Option Dir) :=
  if v * pgsize < sz then
    if a.dir.tab (v / nptentries) = false then throw "copyuvm: pte should exist"
    else if (a.dir.pte v).p = false then throw "copyuvm: page not present"
    else
      let e := { a.dir.pte v with w := false }
      let a := a.write v e
      -- `mappages` into the new directory, where nothing is mapped yet
      if d.tab (v / nptentries) || table v then
        if (d.pte v).p then throw "remap" else copyuvmLoop sz (v + 1) a (d.map v e)
      else pure (a.lcr3, none)
  else pure (a.lcr3, some d)
termination_by sz - v * pgsize
decreasing_by
  simp only [pgsize] at *
  omega

/-- `copyuvm`; the flag says whether `setupkvm` succeeds. -/
def copyuvm (setup : Bool) (sz : ℕ) (a : Space D) : Except String (Space D × Option Dir) :=
  if setup then copyuvmLoop table sz 0 a .empty else pure (a, none)

/-- The page-fault handler for an access to `va`, with the count of the frame and the page for a
copy. -/
def pagefault (va : ℕ) (count : ℤ) (mem : Option ℕ) (a : Space D) : Except String (Space D × Fault) :=
  let v := va / pgsize
  let e := a.dir.pte v
  if kernbase ≤ va then pure (a, .killed)
  else if a.dir.tab (v / nptentries) = false then pure (a, .killed)
  else if e.u = false then pure (a, .killed)
  else if e.p = false then pure (a, .killed)
  else if e.w then throw "Unknown page fault due to a writable pte"
  else if count = 1 then pure ((a.write v { e with w := true }).lcr3, .handled)
  else if 1 < count then
    match mem with
    | none => pure (a, .killed)
    | some m => pure ((a.write v ⟨m, true, true, true⟩).lcr3, .handled)
  else throw "Pagefault due to wrong ref count"

end Functions

/-! ## Processes and CPUs -/

structure Proc where
  dir : Dir
  sz : ℕ

structure Cpu (P : Type) where
  /-- The process whose directory is in `cr3`, or `none` for `kpgdir`. -/
  proc : Option P
  tlb : Set (ℕ × Pte)

structure Sys (P C : Type) where
  proc : P → Option Proc
  cpu : C → Cpu P

inductive Op (P : Type)
  | dispatch (p : P)
  /-- Back to `scheduler`, from `yield` or `sleep`. -/
  | sched
  /-- User code runs, and the CPU caches what it likes. -/
  | user
  | sbrk (n : ℤ) (frame : ℕ → Option ℕ) (table : ℕ → Bool)
  | fault (va : ℕ) (count : ℤ) (mem : Option ℕ)
  | fork (np : P) (setup : Bool) (table : ℕ → Bool)
  | exec (q : Proc)
  | exit

variable {P C : Type} [DecidableEq P] [DecidableEq C]

namespace Sys

variable (s : Sys P C)

def setProc (p : P) (q : Option Proc) : Sys P C := { s with proc := update s.proc p q }

def setCpu (c : C) (x : Cpu P) : Sys P C := { s with cpu := update s.cpu c x }

end Sys

/-- The entries a CPU can cache. -/
def present (e : Pte) : Prop := e.p = true

/-- A system call or trap of the process on the CPU: what it does to its directory and to what is
cached. -/
structure Call (s : Sys P C) (c : C) (p : P) (q : Proc) (a : Space q.dir) (tlb : Set (ℕ × Pte)) :
    Prop where
  runs : (s.cpu c).proc = some p
  proc : s.proc p = some q
  exec : Exec present q.dir.pte (s.cpu c).tlb a.evs a.dir.pte tlb

inductive Step : Sys P C → C × Op P → Sys P C → Prop
  | dispatch {s c p} (hc : (s.cpu c).proc = none) (hp : s.proc p ≠ none)
      (hone : ∀ c', (s.cpu c').proc ≠ some p) : Step s (c, .dispatch p) (s.setCpu c ⟨some p, ∅⟩)
  | sched {s c} : Step s (c, .sched) (s.setCpu c ⟨none, ∅⟩)
  | user {s c p q tlb} (h : Call s c p q (.start q.dir) tlb) :
      Step s (c, .user) (s.setCpu c ⟨some p, tlb⟩)
  | sbrk {s c p q n frame table a r tlb} (h : Call s c p q a tlb)
      (hr : growproc frame table q.sz n (.start q.dir) = .ok (a, r)) :
      Step s (c, .sbrk n frame table)
        ((s.setProc p (some ⟨a.dir, r.getD q.sz⟩)).setCpu c ⟨some p, tlb⟩)
  | fault {s c p q va count mem a r tlb} (h : Call s c p q a tlb)
      (hr : pagefault va count mem (.start q.dir) = .ok (a, r)) :
      Step s (c, .fault va count mem)
        ((s.setProc p (some ⟨a.dir, q.sz⟩)).setCpu c ⟨some p, tlb⟩)
  | fork {s c p q np setup table a d tlb} (h : Call s c p q a tlb) (hnp : s.proc np = none)
      (hr : copyuvm table setup q.sz (.start q.dir) = .ok (a, some d)) :
      Step s (c, .fork np setup table)
        (((s.setProc p (some ⟨a.dir, q.sz⟩)).setProc np (some ⟨d, q.sz⟩)).setCpu c ⟨some p, tlb⟩)
  | forkFails {s c p q np setup table a tlb} (h : Call s c p q a tlb)
      (hr : copyuvm table setup q.sz (.start q.dir) = .ok (a, none)) :
      Step s (c, .fork np setup table)
        ((s.setProc p (some ⟨a.dir, q.sz⟩)).setCpu c ⟨some p, tlb⟩)
  /-- The new image has a directory of its own, which `switchuvm` loads; a failed `exec` does
  nothing to the old one. -/
  | exec {s c p q q'} (hc : (s.cpu c).proc = some p) (hp : s.proc p = some q) :
      Step s (c, .exec q') ((s.setProc p (some q')).setCpu c ⟨some p, ∅⟩)
  | exit {s c p} (hc : (s.cpu c).proc = some p) :
      Step s (c, .exit) ((s.setProc p none).setCpu c ⟨none, ∅⟩)

/-- After `userinit`: one process, with one page. -/
def boot (P C : Type) [DecidableEq P] (init : P) (f : ℕ) : Sys P C where
  proc := update (fun _ => none) init (some ⟨Dir.empty.map 0 ⟨f, true, true, true⟩, pgsize⟩)
  cpu _ := ⟨none, ∅⟩

end Xv6.Tlb

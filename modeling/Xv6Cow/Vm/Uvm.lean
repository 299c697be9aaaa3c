import Xv6Cow.Vm.Memory

/-!
# Address spaces (`vm.c`)

The functions of `vm.c` that build, copy and free address spaces, and the page-fault handler of
copy-on-write.  `walkpgdir` returns whether the entry exists; the entry itself is then `Vm.pte`.
Loops over addresses are loops over page numbers, with the source's condition on `a`.
-/

namespace Xv6

variable [Link]

/-- Find the entry of page `v`, creating its page table if `alloc`. -/
def walkpgdir (d v : ℕ) (alloc : Bool) : M Bool := do
  let s ← get
  match s.tab d (v / nptentries) with
  | some _ => pure true
  | none =>
    if alloc then
      match ← kalloc with
      | none => pure false
      | some f => do
        modify fun s => s.setTab d (v / nptentries) (some ⟨f, fun _ => .zero⟩)
        pure true
    else pure false

/-- The loop of `mappages`: map the pages `v`, …, `v + n` to the frames from `f` on. -/
def mappagesLoop (d : ℕ) (w u : Bool) : (n v f : ℕ) → M Bool
  | n, v, f => do
    if ← walkpgdir d v true then
      let s ← get
      if (s.pte d v).p then throw "remap"
      else do
        modify fun s => s.setPte d v ⟨f, true, w, u⟩
        match n with
        | 0 => pure true
        | n + 1 => mappagesLoop d w u n (v + 1) (f + 1)
    else pure false

/-- Map `size` bytes at address `va` to the physical addresses from `pa` on. -/
def mappages (d va size pa : ℕ) (w u : Bool) : M Bool :=
  let a := va / pgsize
  let last := (va + size - 1) % word / pgsize
  mappagesLoop d w u (last - a) a (pa / pgsize)

/-! ## Freeing -/

/-- The loop of `deallocuvm`, from page `v` on.  Where there is no page table the source adds
`(NPTENTRIES - 1) * PGSIZE` to `a` before the increment. -/
def deallocuvmLoop (d oldsz v : ℕ) : M Unit :=
  if v * pgsize < oldsz then do
    if ← walkpgdir d v false then
      let s ← get
      if (s.pte d v).p then
        let f := (s.pte d v).frame
        if f = 0 then throw "kfree"
        else do
          addRef f (-1)
          let s ← get
          if s.refcount f = 0 then kfree f else pure ()
          modify fun s => s.setPte d v .zero
          deallocuvmLoop d oldsz (v + 1)
      else deallocuvmLoop d oldsz (v + 1)
    else deallocuvmLoop d oldsz (v + (nptentries - 1) + 1)
  else pure ()
termination_by oldsz - v * pgsize
decreasing_by all_goals
  simp only [pgsize, nptentries] at *
  omega

def deallocuvm (d oldsz newsz : ℕ) : M ℕ :=
  if oldsz ≤ newsz then pure oldsz
  else do
    deallocuvmLoop d oldsz (pgroundup newsz)
    pure newsz

/-- Free the page tables with the `n` indices from `i` on.  From here on their frames hold junk, so
the directory no longer has them. -/
def freeTables (d : ℕ) : (n i : ℕ) → M Unit
  | 0, _ => pure ()
  | n + 1, i => do
    let s ← get
    match s.tab d i with
    | none => pure ()
    | some t => do
      kfree t.frame
      modify fun s => s.setTab d i none
    freeTables d n (i + 1)

def freevm (d : ℕ) : M Unit := do
  let _ ← deallocuvm d kernbase 0
  freeTables d nptentries 0
  kfree d
  modify fun s => s.setDir d none

/-- A row of `kmap`. -/
structure Kmap where
  virt : ℕ
  physStart : ℕ
  physEnd : ℕ
  w : Bool

def v2p (a : ℕ) : ℕ := a - kernbase

def kmap : List Kmap :=
  [⟨kernbase, 0, extmem, true⟩,
   ⟨kernlink, v2p kernlink, v2p Link.data, false⟩,
   ⟨Link.data, v2p Link.data, phystop, true⟩,
   ⟨devspace, devspace, 0, true⟩]

/-- The loop of `setupkvm` over the rows of `kmap`. -/
def setupkvmLoop (d : ℕ) : List Kmap → M (Option ℕ)
  | [] => pure (some d)
  | k :: ks => do
    if ← mappages d k.virt ((k.physEnd + word - k.physStart) % word) k.physStart k.w false then
      setupkvmLoop d ks
    else do
      freevm d
      pure none

def setupkvm : M (Option ℕ) := do
  match ← kalloc with
  | none => pure none
  | some d => do
    modify fun s => s.setDir d (some fun _ => none)
    if devspace < kernbase + phystop then throw "PHYSTOP too high"
    else setupkvmLoop d kmap

/-- Load the initcode into page 0.  The source does not test the result of `kalloc`; with a null
page the model stops. -/
def inituvm (d : ℕ) (init : ℕ → UInt8) (sz : ℕ) : M Unit := do
  match ← kalloc with
  | none => throw "inituvm: null page"
  | some f => do
    addRef f 1
    if pgsize ≤ sz then throw "inituvm: more than a page"
    else do
      modify fun s => s.setMem f fun _ => 0
      let _ ← mappages d 0 pgsize (f * pgsize) true true
      modify fun s => s.setMem f fun o => if o < sz then init o else s.mem f o

/-- The loop of `allocuvm`, from page `v` on.  The result of `mappages` is ignored. -/
def allocuvmLoop (d oldsz newsz v : ℕ) : M ℕ :=
  if v * pgsize < newsz then do
    match ← kalloc with
    | none => do
      let _ ← deallocuvm d newsz oldsz
      pure 0
    | some f => do
      modify fun s => s.setMem f fun _ => 0
      let _ ← mappages d (v * pgsize) pgsize (f * pgsize) true true
      addRef f 1
      allocuvmLoop d oldsz newsz (v + 1)
  else pure newsz
termination_by newsz - v * pgsize
decreasing_by
  simp only [pgsize] at *
  omega

def allocuvm (d oldsz newsz : ℕ) : M ℕ :=
  if kernbase ≤ newsz then pure 0
  else if newsz < oldsz then pure oldsz
  else allocuvmLoop d oldsz newsz (pgroundup oldsz)

def clearpteu (d uva : ℕ) : M Unit := do
  if ← walkpgdir d (uva / pgsize) false then
    modify fun s => s.setPte d (uva / pgsize) { s.pte d (uva / pgsize) with u := false }
  else throw "clearpteu"

/-! ## Copy on write -/

/-- The loop of `copyuvm`, from page `v` on: the entry loses `PTE_W` and the child `c` maps the same
frame with the same flags. -/
def copyuvmLoop (d c sz v : ℕ) : M (Option ℕ) :=
  if v * pgsize < sz then do
    if ← walkpgdir d v false then
      let s ← get
      if (s.pte d v).p then do
        modify fun s => s.setPte d v { s.pte d v with w := false }
        let s ← get
        let e := s.pte d v
        if ← mappages c (v * pgsize) pgsize (e.frame * pgsize) e.w e.u then
          addRef e.frame 1
          copyuvmLoop d c sz (v + 1)
        else
          freevm c
          pure none
      else throw "copyuvm: page not present"
    else throw "copyuvm: pte should exist"
  else pure (some c)
termination_by sz - v * pgsize
decreasing_by
  simp only [pgsize] at *
  omega

def copyuvm (d sz : ℕ) : M (Option ℕ) := do
  match ← setupkvm with
  | none => pure none
  | some c => copyuvmLoop d c sz 0

/-- What a page fault does to the faulting process. -/
inductive Fault
  | handled
  | killed
deriving DecidableEq

/-- The page-fault handler, for the process with page directory `d` and the address in `%cr2`. -/
def pagefault (d va : ℕ) : M Fault := do
  let v := va / pgsize
  if kernbase ≤ va then pure .killed
  else if ← walkpgdir d v false then
    let s ← get
    let e := s.pte d v
    if !e.u then pure .killed
    else if !e.p then pure .killed
    else if e.w then throw "Unknown page fault due to a writable pte"
    else
      let f := e.frame
      if s.refcount f = 1 then
        modify fun s => s.setPte d v { e with w := true }
        pure .handled
      else if 1 < s.refcount f then
        match ← kalloc with
        | none => pure .killed
        | some m => do
          modify fun s => s.setMem m (s.mem f)
          addRef f (-1)
          addRef m 1
          modify fun s => s.setPte d v ⟨m, true, true, true⟩
          pure .handled
      else throw "Pagefault due to wrong ref count"
  else pure .killed

/-- `kinit1(end, P2V(4*1024*1024))`. -/
def kinit1 : M Unit := do
  freerange ((v2p Link.kend + pgsize - 1) / pgsize) 0x400000
  modify fun s => { s with numFreePages := 0 }

/-- `kinit2(P2V(4*1024*1024), P2V(PHYSTOP))`. -/
def kinit2 : M Unit := freerange (0x400000 / pgsize) phystop

/-- The machine before `main`: nothing is allocated and the counts are zero. -/
def Vm.start : Vm where
  freelist := []
  numFreePages := 0
  refcount := fun _ => 0
  mem := fun _ _ => 0
  pgdir := fun _ => none
  oom := []

/-- The part of `main` up to `userinit`: the kernel's own page directory is the one returned. -/
def mainInit : M (Option ℕ) := do
  kinit1
  let kpgdir ← setupkvm
  kinit2
  pure kpgdir

end Xv6

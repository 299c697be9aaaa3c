import Xv6Cow.Lib.Prog

/-!
# Physical memory, page directories and the page allocator

The state of the virtual memory system (`Vm`) and `kalloc.c` over it.  A frame is a physical page
number.  A page directory is kept as its page tables, and a page table as its frame and its
entries; all other pages are bytes.  Virtual addresses that the source keeps page-aligned are page
numbers here, so that `PDX` and `PTX` of page `v` are `v / 1024` and `v % 1024`.
-/

namespace Xv6

open Function

def pgsize : ℕ := 4096
def nptentries : ℕ := 1024
def extmem : ℕ := 0x100000
def phystop : ℕ := 0xE000000
def devspace : ℕ := 0xFE000000
def kernbase : ℕ := 0x80000000
def kernlink : ℕ := kernbase + extmem

/-- Addresses and sizes are 32-bit words. -/
def word : ℕ := 2 ^ 32

/-- The first page of the kernel half, `PGROUNDDOWN(KERNBASE) >> PGSHIFT`. -/
def kernpage : ℕ := 0x80000

/-- `PGROUNDUP(sz)`, as a page number. -/
def pgroundup (sz : ℕ) : ℕ := (sz + pgsize - 1) % word / pgsize

/-- The addresses that `kernel.ld` assigns: `data`, the start of the data segment, and `end`, the
first after the kernel. -/
class Link where
  data : ℕ
  kend : ℕ
  data_aligned : data % pgsize = 0
  kernlink_lt_data : kernlink < data
  data_lt : data < kernbase + phystop
  data_le_kend : data ≤ kend

/-- A kernel image that fits the 4 MB which `entrypgdir` maps and `kinit1` frees the rest of. -/
class Image extends Link where
  kend_le : kend ≤ kernbase + 0x400000

/-- The addresses in the `kernel.sym` of the repository. -/
instance kernelSym : Image where
  data := 0x80109000
  kend := 0x80124e18
  data_aligned := by decide
  kernlink_lt_data := by decide
  data_lt := by decide
  data_le_kend := by decide
  kend_le := by decide

/-! ## State -/

/-- The bytes of a page, by offset. -/
abbrev Page := ℕ → UInt8

/-- A page-table entry: the frame it maps and its flags `PTE_P`, `PTE_W`, `PTE_U`. -/
structure Pte where
  frame : ℕ
  p : Bool
  w : Bool
  u : Bool
deriving DecidableEq

/-- The entry with all bits clear. -/
def Pte.zero : Pte := ⟨0, false, false, false⟩

/-- A page table: the frame it occupies and its entries. -/
structure PgTab where
  frame : ℕ
  pte : ℕ → Pte

/-- A page directory: its present page tables. -/
abbrev PgDir := ℕ → Option PgTab

/-- The state of the virtual memory system. -/
structure Vm where
  /-- `kmem.freelist`. -/
  freelist : List ℕ
  /-- `kmem.numFreePages`. -/
  numFreePages : ℤ
  /-- `pg_refcount`, an array of (signed) `char`. -/
  refcount : ℕ → ℤ
  /-- The contents of the frames. -/
  mem : ℕ → Page
  /-- The page directories, by the frame they occupy. -/
  pgdir : ℕ → Option PgDir
  /-- Which of the coming calls of `kalloc` fail although the free list is not empty. -/
  oom : List Bool
  /-- Whether an update of `refcount` has ever overflowed its `char`; no code reads this. -/
  wrapped : Bool := false

/-- Kernel code: it changes the memory, and it may end in `panic(msg)`. -/
abbrev M := EStateM String Vm

namespace Vm

/-- The page table with index `i` in directory `d`. -/
def tab (s : Vm) (d i : ℕ) : Option PgTab := (s.pgdir d).bind (· i)

/-- The entry of page `v` in directory `d`; it is zero where there is no page table. -/
def pte (s : Vm) (d v : ℕ) : Pte :=
  match s.tab d (v / nptentries) with
  | none => .zero
  | some t => t.pte (v % nptentries)

/-- Put a page table into a directory (or take it out of it). -/
def setTab (s : Vm) (d i : ℕ) (t : Option PgTab) : Vm :=
  { s with pgdir := update s.pgdir d ((s.pgdir d).map fun D => update D i t) }

/-- Write the entry of page `v`. -/
def setPte (s : Vm) (d v : ℕ) (e : Pte) : Vm :=
  match s.tab d (v / nptentries) with
  | none => s
  | some t =>
    s.setTab d (v / nptentries) (some { t with pte := update t.pte (v % nptentries) e })

/-- Write a whole page of memory. -/
def setMem (s : Vm) (f : ℕ) (pg : Page) : Vm := { s with mem := update s.mem f pg }

def setDir (s : Vm) (d : ℕ) (D : Option PgDir) : Vm :=
  { s with pgdir := update s.pgdir d D }

/-- Put a page on the free list, filled with junk. -/
def freed (s : Vm) (f : ℕ) : Vm :=
  { s.setMem f (fun _ => 1) with
    freelist := f :: s.freelist
    numFreePages := s.numFreePages + 1 }

end Vm

/-- What a `char` holds after an `int` is stored in it. -/
def toChar (n : ℤ) : ℤ := (n + 128) % 256 - 128

theorem toChar_of_mem {n : ℤ} (h : -128 ≤ n) (h' : n ≤ 127) : toChar n = n := by
  unfold toChar
  omega

def Vm.addRef (s : Vm) (f : ℕ) (k : ℤ) : Vm :=
  { s with
    refcount := update s.refcount f (toChar (s.refcount f + k))
    wrapped := s.wrapped || toChar (s.refcount f + k) != s.refcount f + k }

/-- `pg_refcount[f] = pg_refcount[f] + k`. -/
def addRef (f : ℕ) (k : ℤ) : M Unit := modify fun s => s.addRef f k

section Kalloc

/-- Pop the head of the free list. -/
def kalloc : M (Option ℕ) := do
  let s ← get
  let s' := { s with numFreePages := s.numFreePages - 1, oom := s.oom.tail }
  if s.oom.head? = some true then
    set s'
    pure none
  else
    match s.freelist with
    | [] =>
      set s'
      pure none
    | f :: fs =>
      set { s' with freelist := fs }
      pure (some f)

variable [Link]

/-- Push a page on the free list and fill it with junk. -/
def kfree (f : ℕ) : M Unit :=
  if kernbase + f * pgsize < Link.kend ∨ phystop ≤ f * pgsize then do
    -- the counter is incremented before the check
    modify fun s => { s with numFreePages := s.numFreePages + 1 }
    throw "kfree"
  else modify fun s => s.freed f

/-- Free the frames from `f` on, up to the one that ends at address `vend` (physical). -/
def freerange (f vend : ℕ) : M Unit :=
  if (f + 1) * pgsize ≤ vend then do
    kfree f
    freerange (f + 1) vend
  else pure ()
termination_by vend - f * pgsize
decreasing_by
  simp only [pgsize] at *
  omega

end Kalloc

end Xv6

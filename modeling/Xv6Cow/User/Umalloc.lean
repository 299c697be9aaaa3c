import Xv6Cow.Lib.Clist
import Xv6Cow.Lib.Prog
import Xv6Cow.Lib.Run

/-!
# The allocator of user programs (`umalloc.c`)

Memory is a function from addresses to words; a header is two words, the pointer and the size in
headers.  `base` is the address of the static header of that name.  `sbrk` fails, or extends the heap at
its end; `answers` says which of the coming calls succeed.  The loops of `free` and `malloc` are cut
after `2 ^ 32` rounds, more than there are headers in memory.
-/

namespace Xv6.Umalloc

open Prog Lts Clist

structure Heap where
  mem : ℕ → ℕ
  freep : ℕ
  brk : ℕ
  answers : ℕ → Bool

abbrev M := EStateM String Heap

namespace Heap

/-- `p->s.ptr`. -/
def ptr (s : Heap) (p : ℕ) : ℕ := s.mem p

/-- `p->s.size`. -/
def size (s : Heap) (p : ℕ) : ℕ := s.mem (p + 4)

def setPtr (s : Heap) (p v : ℕ) : Heap := { s with mem := Function.update s.mem p v }

def setSize (s : Heap) (p v : ℕ) : Heap := { s with mem := Function.update s.mem (p + 4) v }

end Heap

/-- `p + n` for a `Header *p`. -/
def plus (p n : ℕ) : ℕ := (p + 8 * n) % 2 ^ 32

/-- `sbrk`, with `none` for -1; a negative argument would shrink the heap. -/
def sbrk (n : ℕ) : M (Option ℕ) := do
  if 2 ^ 31 ≤ n then throw "sbrk: negative"
  let s ← get
  set { s with answers := fun i => s.answers (i + 1) }
  if s.answers 0 ∧ s.brk + n < 2 ^ 32 then
    modify fun s => { s with brk := s.brk + n }
    return some s.brk
  else
    return none

/-- Where the loop of `free` stops. -/
def between (s : Heap) (bp p : ℕ) : Bool :=
  (bp > p && bp < s.ptr p) || (p ≥ s.ptr p && (bp > p || bp < s.ptr p))

/-- `free` above the block: join it with the next one, or point to that. -/
def joinUpper (bp p : ℕ) : M Unit := do
  let s ← get
  if plus bp (s.size bp) = s.ptr p then
    modify fun s => s.setSize bp ((s.size bp + s.size (s.ptr p)) % 2 ^ 32)
    modify fun s => s.setPtr bp (s.ptr (s.ptr p))
  else
    modify fun s => s.setPtr bp (s.ptr p)

/-- `free` below the block: join the one before with it, or point from there to it. -/
def joinLower (bp p : ℕ) : M Unit := do
  let s ← get
  if plus p (s.size p) = bp then
    modify fun s => s.setSize p ((s.size p + s.size bp) % 2 ^ 32)
    modify fun s => s.setPtr p (s.ptr bp)
  else
    modify fun s => s.setPtr p bp

/-- A bound for the rounds of a loop. -/
@[irreducible] def rounds : ℕ := 2 ^ 32

def free (ap : ℕ) : M Unit := do
  let bp := (ap + 2 ^ 32 - 8) % 2 ^ 32
  let s ← get
  match search s.ptr (between s bp) rounds s.freep with
  | none => throw "loops"
  | some p =>
    joinUpper bp p
    joinLower bp p
    modify fun s => { s with freep := p }

def morecore (nu : ℕ) : M ℕ := do
  let nu := if nu < 4096 then 4096 else nu
  match ← sbrk (nu * 8 % 2 ^ 32) with
  | none => return 0
  | some hp =>
    modify fun s => s.setSize hp nu
    free (plus hp 1)
    return (← get).freep

/-- The block that the loop of `malloc` has found: all of it, or its tail. -/
def carve (nunits prevp p : ℕ) : M ℕ := do
  let s ← get
  if s.size p = nunits then
    modify fun s => s.setPtr prevp (s.ptr p)
    modify fun s => { s with freep := prevp }
    return plus p 1
  else
    modify fun s => s.setSize p (s.size p - nunits)
    let s ← get
    let p := plus p (s.size p)
    modify fun s => s.setSize p nunits
    modify fun s => { s with freep := prevp }
    return plus p 1

def mallocLoop (nunits : ℕ) : ℕ → ℕ → ℕ → M ℕ
  | 0, _, _ => throw "loops"
  | fuel + 1, prevp, p => do
    let s ← get
    if nunits ≤ s.size p then
      carve nunits prevp p
    else if p = s.freep then do
      let p ← morecore nunits
      if p = 0 then
        return 0
      else
        mallocLoop nunits fuel p ((← get).ptr p)
    else
      mallocLoop nunits fuel p (s.ptr p)

def malloc (base nbytes : ℕ) : M ℕ := do
  let nunits := (nbytes + 8 - 1) % 2 ^ 32 / 8 + 1
  if (← get).freep = 0 then
    modify fun s => { s.setPtr base base with freep := base }
    modify fun s => s.setSize base 0
  let s ← get
  mallocLoop nunits rounds s.freep (s.ptr s.freep)

/-! ## Clients -/

/-- A program with what it has got from `malloc` and not freed: the pointers, and what it asked for. -/
structure Client where
  heap : Heap
  live : List (ℕ × ℕ)

inductive Act
  | malloc (nbytes : ℕ)
  | free (ap : ℕ)
  | store

inductive Step (base : ℕ) : Client → Act → Client → Prop
  | malloc {s t nbytes ap} (hn : nbytes ≤ 2 ^ 30) (hrun : malloc base nbytes s.heap = .ok ap t) :
      Step base s (.malloc nbytes) ⟨t, if ap = 0 then s.live else (ap, nbytes) :: s.live⟩
  | free {s t ap nbytes} (hap : (ap, nbytes) ∈ s.live) (hrun : free ap s.heap = .ok () t) :
      Step base s (.free ap) ⟨t, s.live.erase (ap, nbytes)⟩
  | store {s mem} (hmem : ∀ a, mem a = s.heap.mem a ∨ ∃ r ∈ s.live, a ∈ Set.Ico r.1 (r.1 + r.2)) :
      Step base s .store ⟨{ s.heap with mem := mem }, s.live⟩

/-- The program starts; `base` lies below the heap. -/
structure Start (base : ℕ) (s : Client) : Prop where
  base_pos : 0 < base
  base_le : base + 8 ≤ s.heap.brk
  brk_lt : s.heap.brk < 2 ^ 32
  freep : s.heap.freep = 0
  live : s.live = []

/-- The calls of a program, with any request. -/
inductive Call (base : ℕ) : Client → Act → Client → Prop
  | malloc {s t nbytes ap} (hrun : malloc base nbytes s.heap = .ok ap t) :
      Call base s (.malloc nbytes) ⟨t, if ap = 0 then s.live else (ap, nbytes) :: s.live⟩
  | other {s a t} (ha : ∀ nbytes, a ≠ .malloc nbytes) (hs : Step base s a t) : Call base s a t

/-- The request, rounded up to headers, is an `int`. -/
def Small (_ : Client) : Act → Prop
  | .malloc nbytes => nbytes ≤ 2 ^ 31 - 16
  | _ => True

/-- `malloc` has failed and left the break, or it has returned a block from `sbrk` that is large
enough. -/
def Served (lo nbytes : ℕ) (s : Heap) (ap : ℕ) (t : Heap) : Prop :=
  ap = 0 ∧ s.brk ≤ t.brk ∨
    8 ≤ ap ∧ nbytes ≤ 8 * (t.size (ap - 8) - 1) ∧ lo ≤ ap - 8 ∧ ap - 8 + 8 * t.size (ap - 8) ≤ t.brk

end Xv6.Umalloc

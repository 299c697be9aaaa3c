import Xv6Cow.Lib.Tiles
import Xv6Cow.User.Umalloc

/-!
# The heap as a row of blocks

The memory between the first break and the present one is a row of blocks, each with a header at its
address; a block is free, or in use for a request of some bytes.  The free ones, in this order and with
`base` in front, are the circular list, and no two of them touch.
-/

namespace Xv6.Umalloc

open Function Prog Clist Tiles

/-- A block of the heap, of `size` headers; `user` is the request that it is in use for. -/
structure Block where
  addr : ℕ
  size : ℕ
  user : Option ℕ

/-- The length in bytes. -/
def Block.len (b : Block) : ℕ := 8 * b.size

/-- The headers of the free blocks. -/
def frees (bs : List Block) : List ℕ := (bs.filter fun b => b.user.isNone).map Block.addr

/-- What is in use, as the program knows it. -/
def users (bs : List Block) : List (ℕ × ℕ) := bs.filterMap fun b => b.user.map fun n => (b.addr + 8, n)

variable {base lo : ℕ} {s t : Heap} {bs l₁ l₂ : List Block} {b c : Block} {x y p n k : ℕ}

section Lists

theorem frees_append : frees (l₁ ++ l₂) = frees l₁ ++ frees l₂ := by
  simp [frees]

theorem frees_free (hb : b.user = none) : frees (b :: bs) = b.addr :: frees bs := by
  simp [frees, hb]

theorem frees_used (hb : b.user = some n) : frees (b :: bs) = frees bs := by
  simp [frees, hb]

theorem users_append : users (l₁ ++ l₂) = users l₁ ++ users l₂ := by
  simp [users]

theorem users_free (hb : b.user = none) : users (b :: bs) = users bs := by
  simp [users, hb]

theorem users_used (hb : b.user = some n) : users (b :: bs) = (b.addr + 8, n) :: users bs := by
  simp [users, hb]

theorem mem_frees : x ∈ frees bs ↔ ∃ b ∈ bs, b.user = none ∧ b.addr = x := by
  simp [frees, and_assoc]

theorem mem_users {r : ℕ × ℕ} : r ∈ users bs ↔ ∃ b ∈ bs, b.user = some r.2 ∧ b.addr + 8 = r.1 := by
  obtain ⟨p, n⟩ := r
  simp only [users, List.mem_filterMap, Option.map_eq_some_iff, Prod.mk.injEq]
  constructor
  · rintro ⟨b, hb, _, hu, rfl, rfl⟩
    exact ⟨b, hb, hu, rfl⟩
  · rintro ⟨b, hb, hu, rfl⟩
    exact ⟨b, hb, n, hu, rfl, rfl⟩

end Lists

/-- Two headers do not overlap. -/
def Clear (x y : ℕ) : Prop := x + 8 ≤ y ∨ y + 8 ≤ x

theorem Clear.ne (h : Clear x y) : x ≠ y := by
  unfold Clear at h
  omega

theorem Clear.symm (h : Clear x y) : Clear y x := Or.symm h

namespace Heap

variable (s : Heap) {v : ℕ}

@[simp] theorem ptr_setPtr_self : (s.setPtr x v).ptr x = v := update_self ..

theorem ptr_setPtr (h : Clear y x) : (s.setPtr x v).ptr y = s.ptr y := update_of_ne h.ne ..

@[simp] theorem size_setPtr_self : (s.setPtr x v).size x = s.size x := update_of_ne (by omega) ..

theorem size_setPtr (h : Clear y x) : (s.setPtr x v).size y = s.size y :=
  update_of_ne (by unfold Clear at h; omega) ..

@[simp] theorem size_setSize_self : (s.setSize x v).size x = v := update_self ..

theorem size_setSize (h : Clear y x) : (s.setSize x v).size y = s.size y :=
  update_of_ne (by unfold Clear at h; omega) ..

@[simp] theorem ptr_setSize_self : (s.setSize x v).ptr x = s.ptr x := update_of_ne (by omega) ..

theorem ptr_setSize (h : Clear y x) : (s.setSize x v).ptr y = s.ptr y :=
  update_of_ne (by unfold Clear at h; omega) ..

end Heap

/-! ## The invariant -/

/-- No two free blocks touch. -/
def Apart (bs : List Block) : Prop := bs.IsChain fun a b => ¬ (a.user = none ∧ b.user = none)

theorem apart_used (hb : b.user = some n) : Apart (l₁ ++ b :: l₂) ↔ Apart l₁ ∧ Apart l₂ := by
  have hne : b.user ≠ none := by
    rw [hb]
    nofun
  unfold Apart
  rw [List.isChain_append, List.isChain_cons]
  constructor
  · exact fun h => ⟨h.1, h.2.1.2⟩
  · refine fun h => ⟨h.1, ⟨fun _ _ hc => hne hc.1, h.2⟩, fun a _ c hc hac => ?_⟩
    cases hc
    exact hne hac.2

theorem apart_free (hb : b.user = none) : Apart (l₁ ++ b :: l₂) ↔ Apart l₁ ∧ Apart l₂ ∧
    (∀ c ∈ l₁.getLast?, c.user ≠ none) ∧ ∀ c ∈ l₂.head?, c.user ≠ none := by
  unfold Apart
  rw [List.isChain_append, List.isChain_cons]
  constructor
  · exact fun h => ⟨h.1, h.2.1.2, fun c hc hu => h.2.2 c hc b rfl ⟨hu, hb⟩,
      fun c hc hu => h.2.1.1 c hc ⟨hb, hu⟩⟩
  · refine fun h => ⟨h.1, ⟨fun c hc hbc => h.2.2.2 c hc hbc.2, h.2.1⟩, fun a ha c hc hac => ?_⟩
    exact h.2.2.1 a ha hac.1

/-- The heap is the row of blocks `bs`, from `lo`. -/
structure Inv (base lo : ℕ) (s : Heap) (bs : List Block) : Prop where
  base_pos : 0 < base
  base_le : base + 8 ≤ lo
  brk_lt : s.brk < 2 ^ 32
  tiled : Tiled Block.addr Block.len lo bs s.brk
  size : ∀ b ∈ bs, s.size b.addr = b.size
  base_size : s.size base = 0
  ring : Seg s.ptr base (base :: frees bs) base
  freep : s.freep ∈ base :: frees bs
  apart : Apart bs
  room : ∀ b ∈ bs, ∀ n, b.user = some n → n + 8 ≤ b.len

/-- The free block `b` is not yet linked from below; `pl` and then `p` are the free blocks there. -/
structure Cut (base lo : ℕ) (s : Heap) (pl : List ℕ) (p : ℕ) (l₁ : List Block) (b : Block)
    (l₂ : List Block) : Prop where
  base_pos : 0 < base
  base_le : base + 8 ≤ lo
  brk_lt : s.brk < 2 ^ 32
  tiled : Tiled Block.addr Block.len lo (l₁ ++ b :: l₂) s.brk
  size : ∀ c ∈ l₁ ++ b :: l₂, s.size c.addr = c.size
  base_size : s.size base = 0
  lower : base :: frees l₁ = pl ++ [p]
  left : Seg s.ptr base pl p
  right : Seg s.ptr (s.ptr b.addr) (frees l₂) base
  free : b.user = none
  apart₁ : Apart l₁
  apart₂ : Apart l₂
  above : ∀ c ∈ l₂.head?, c.user ≠ none
  room : ∀ c ∈ l₁ ++ l₂, ∀ n, c.user = some n → n + 8 ≤ c.len

/-! ## Where headers are -/

section Tiled

variable {hi : ℕ} (h : Tiled Block.addr Block.len lo (l₁ ++ b :: l₂) hi)
include h

theorem below (hc : c ∈ l₁) : c.addr + c.len ≤ b.addr ∧ 8 ≤ c.len := by
  obtain ⟨-, hpos, hle⟩ := (tiled_middle.1 h).1.mem hc
  unfold Block.len at hpos hle ⊢
  omega

theorem above (hc : c ∈ l₂) : b.addr + b.len ≤ c.addr ∧ 8 ≤ b.len := by
  obtain ⟨-, hpos, hl2⟩ := tiled_middle.1 h
  have hle := (hl2.mem hc).1
  unfold Block.len at hpos hle ⊢
  omega

theorem clear_block (hc : c ∈ l₁ ++ l₂) : Clear c.addr b.addr := by
  rcases List.mem_append.1 hc with hc | hc
  · obtain ⟨hle, hlen⟩ := below h hc
    exact .inl (by omega)
  · obtain ⟨hle, hlen⟩ := above h hc
    exact .inr (by omega)

theorem clear_base (hbase : base + 8 ≤ lo) : Clear base b.addr := by
  have hlo := (h.mem (List.mem_append_right _ List.mem_cons_self)).1
  exact .inl (by omega)

theorem clear_frees (hbase : base + 8 ≤ lo) (hx : x ∈ base :: frees (l₁ ++ l₂)) : Clear x b.addr := by
  rcases List.mem_cons.1 hx with rfl | hx
  · exact clear_base h hbase
  · obtain ⟨c, hc, -, rfl⟩ := mem_frees.1 hx
    exact clear_block h hc

theorem plus_size (hhi : hi < 2 ^ 32) : plus b.addr b.size = b.addr + b.len := by
  have hle := (h.mem (List.mem_append_right _ List.mem_cons_self)).2.2
  exact Nat.mod_eq_of_lt (hle.trans_lt hhi)

end Tiled

section Rows

variable {hi : ℕ} (h : Tiled Block.addr Block.len lo bs hi) (hbase : base + 8 ≤ lo)
include h hbase

theorem eq_or_clear (hx : x ∈ base :: bs.map Block.addr) (hy : y ∈ base :: bs.map Block.addr) :
    x = y ∨ Clear x y := by
  have hblock : ∀ c ∈ bs, Clear base c.addr := fun c hc => by
    obtain ⟨l₁, l₂, rfl⟩ := List.append_of_mem hc
    exact clear_base h hbase
  rcases List.mem_cons.1 hx with hx | hx <;> rcases List.mem_cons.1 hy with hy | hy
  · exact .inl (hx.trans hy.symm)
  · obtain ⟨c, hc, rfl⟩ := List.mem_map.1 hy
    exact .inr (hx ▸ hblock c hc)
  · obtain ⟨c, hc, rfl⟩ := List.mem_map.1 hx
    exact .inr (hy ▸ (hblock c hc).symm)
  obtain ⟨c, hc, rfl⟩ := List.mem_map.1 hx
  obtain ⟨d, hd, rfl⟩ := List.mem_map.1 hy
  obtain ⟨l₁, l₂, rfl⟩ := List.append_of_mem hd
  by_cases hcd : c = d
  · exact .inl (congrArg Block.addr hcd)
  · refine .inr (clear_block h ?_)
    simpa [hcd] using hc

theorem frees_sorted : (base :: frees bs).Pairwise (· < ·) := by
  refine .cons (fun x hx => ?_) ?_
  · obtain ⟨c, hc, -, rfl⟩ := mem_frees.1 hx
    have := (h.mem hc).1
    omega
  have hlt : bs.Pairwise fun c d => c.addr < d.addr := h.pairwise.imp_of_mem fun hc _ hle => by
    have := (h.mem hc).2.1
    omega
  exact (hlt.filter _).map _ fun _ _ => id

end Rows

theorem mem_headers (hx : x ∈ base :: frees bs) : x ∈ base :: bs.map Block.addr := by
  rcases List.mem_cons.1 hx with rfl | hx
  · exact List.mem_cons_self
  · obtain ⟨c, hc, -, rfl⟩ := mem_frees.1 hx
    exact List.mem_cons_of_mem _ (List.mem_map_of_mem hc)

/-- Setting the pointer of the free block `p` links it to the row that begins at `q`. -/
theorem Inv.relinked {pl l : List ℕ} {q : ℕ} (hpos : 0 < base) (hbase : base + 8 ≤ lo)
    (hbrk : s.brk < 2 ^ 32) (h : Tiled Block.addr Block.len lo bs s.brk)
    (hsize : ∀ c ∈ bs, s.size c.addr = c.size) (hzero : s.size base = 0)
    (hrow : base :: frees bs = pl ++ p :: l) (hleft : Seg s.ptr base pl p)
    (hright : Seg s.ptr q l base) (hapart : Apart bs)
    (hroom : ∀ c ∈ bs, ∀ n, c.user = some n → n + 8 ≤ c.len) :
    Inv base lo { s.setPtr p q with freep := p } bs := by
  have hp : p ∈ base :: frees bs := by simp [hrow]
  have hheader : ∀ x ∈ base :: bs.map Block.addr, x = p ∨ Clear x p := fun x hx =>
    eq_or_clear h hbase hx (mem_headers hp)
  have hkeep : ∀ x ∈ base :: bs.map Block.addr, (s.setPtr p q).size x = s.size x := fun x hx => by
    rcases hheader x hx with rfl | hx
    · exact s.size_setPtr_self
    · exact s.size_setPtr hx
  have hptr : ∀ x ∈ base :: frees bs, x ≠ p → (s.setPtr p q).ptr x = s.ptr x :=
    fun x hx hne => s.ptr_setPtr ((hheader x (mem_headers hx)).resolve_left hne)
  have hsorted := frees_sorted h hbase
  rw [hrow] at hptr hsorted
  obtain ⟨-, hafter, hbefore⟩ := List.pairwise_append.1 hsorted
  refine ⟨hpos, hbase, hbrk, h, fun c hc => ?_, ?_, ?_, hp, hapart, hroom⟩
  · rw [← hsize c hc]
    exact hkeep _ (List.mem_cons_of_mem _ (List.mem_map_of_mem hc))
  · exact (hkeep base List.mem_cons_self).trans hzero
  rw [hrow]
  refine seg_middle.2 ⟨hleft.congr fun x hx => hptr x (by simp [hx]) ?_, ?_⟩
  · exact (hbefore x hx p List.mem_cons_self).ne
  show Seg (s.setPtr p q).ptr ((s.setPtr p q).ptr p) l base
  rw [s.ptr_setPtr_self]
  refine hright.congr fun x hx => hptr x (by simp [hx]) ?_
  exact ((List.pairwise_cons.1 hafter).1 x hx).ne'

end Xv6.Umalloc

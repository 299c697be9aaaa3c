import Mathlib

/-!
# Circular singly linked lists

`Seg next a l b`: from `a`, the `next` pointers go through the nodes of `l` to `b`.  A circular list is a
segment that ends where it begins; it can be entered at each of its nodes, and `next` is injective on it.
-/

namespace Clist

variable {α : Type} {next next' : α → α} {a b x y : α} {l m : List α}

/-- From `a` through the nodes of `l` to `b`. -/
def Seg (next : α → α) : α → List α → α → Prop
  | a, [], b => a = b
  | a, x :: l, b => a = x ∧ Seg next (next x) l b

/-- The loop `for(p = a; !stop(p); p = next(p))`. -/
def search (next : α → α) (stop : α → Bool) : ℕ → α → Option α
  | 0, _ => none
  | fuel + 1, a => if stop a then some a else search next stop fuel (next a)

theorem seg_append : Seg next a (l ++ m) b ↔ ∃ c, Seg next a l c ∧ Seg next c m b := by
  induction l generalizing a with
  | nil =>
    constructor
    · exact fun h => ⟨a, rfl, h⟩
    · rintro ⟨c, rfl, h⟩
      exact h
  | cons x l ih =>
    constructor
    · rintro ⟨rfl, h⟩
      obtain ⟨c, hl, hm⟩ := ih.1 h
      exact ⟨c, ⟨rfl, hl⟩, hm⟩
    · rintro ⟨c, ⟨rfl, hl⟩, hm⟩
      exact ⟨rfl, ih.2 ⟨c, hl, hm⟩⟩

theorem seg_middle : Seg next a (l ++ x :: m) b ↔ Seg next a l x ∧ Seg next (next x) m b := by
  rw [seg_append]
  constructor
  · rintro ⟨c, hl, rfl, hm⟩
    exact ⟨hl, hm⟩
  · rintro ⟨hl, hm⟩
    exact ⟨x, hl, rfl, hm⟩

theorem Seg.congr (h : Seg next a l b) (hn : ∀ x ∈ l, next' x = next x) : Seg next' a l b := by
  induction l generalizing a with
  | nil => exact h
  | cons x l ih =>
    refine ⟨h.1, ?_⟩
    rw [hn x List.mem_cons_self]
    exact ih h.2 fun y hy => hn y (List.mem_cons_of_mem _ hy)

/-- A circular list can be entered at each of its nodes. -/
theorem Seg.enter (h : Seg next a (l ++ x :: m) a) : Seg next x (x :: (m ++ l)) x := by
  obtain ⟨hl, hm⟩ := seg_middle.1 h
  exact ⟨rfl, seg_append.2 ⟨a, hm, hl⟩⟩

/-- What comes next is the end or another node, which is later in the list. -/
theorem Seg.next_cases {r : α → α → Prop} (h : Seg next a l b) (hl : l.Pairwise r) (hx : x ∈ l) :
    next x = b ∨ next x ∈ l ∧ r x (next x) := by
  obtain ⟨u, v, rfl⟩ := List.append_of_mem hx
  obtain ⟨-, hv⟩ := seg_middle.1 h
  cases v with
  | nil => exact .inl hv
  | cons y v =>
    rw [hv.1]
    have hxy := (List.pairwise_cons.1 (List.pairwise_append.1 hl).2.1).1 y List.mem_cons_self
    exact .inr ⟨by simp, hxy⟩

theorem Seg.map_next (h : Seg next a l b) : a :: l.map next = l ++ [b] := by
  induction l generalizing a with
  | nil => exact congrArg (· :: []) h
  | cons x l ih =>
    obtain ⟨rfl, h⟩ := h
    exact congrArg (a :: ·) (ih h)

theorem Seg.next_inj (h : Seg next a l a) (hl : l.Nodup) (hx : x ∈ l) (hy : y ∈ l)
    (hxy : next x = next y) : x = y := by
  have hperm : (l.map next).Perm l := by
    have hmap : (a :: l.map next).Perm (a :: l) := by
      rw [h.map_next]
      exact List.perm_append_singleton a l
    exact hmap.cons_inv
  exact List.inj_on_of_nodup_map (hperm.nodup_iff.2 hl) hx hy hxy

theorem Seg.search {stop : α → Bool} (h : Seg next a l b) (hx : x ∈ l)
    (hstop : ∀ y ∈ l, stop y = true ↔ y = x) {fuel : ℕ} (hfuel : l.length ≤ fuel) :
    search next stop fuel a = some x := by
  induction l generalizing a fuel with
  | nil => cases hx
  | cons y l ih =>
    obtain ⟨rfl, h⟩ := h
    rw [List.length_cons] at hfuel
    obtain ⟨fuel, rfl⟩ := Nat.exists_eq_succ_of_ne_zero (Nat.ne_of_gt (Nat.zero_lt_of_lt hfuel))
    rw [Clist.search]
    by_cases hs : stop a = true
    · rw [if_pos hs, (hstop a List.mem_cons_self).1 hs]
    rw [if_neg hs]
    have hne : x ≠ a := fun he => hs ((hstop a List.mem_cons_self).2 he.symm)
    refine ih h ((List.mem_cons.1 hx).resolve_left hne) (fun z hz => ?_) (by omega)
    exact hstop z (List.mem_cons_of_mem _ hz)

end Clist

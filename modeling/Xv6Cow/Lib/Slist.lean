import Mathlib

/-!
# Null-terminated singly linked lists

`Chain next a l`: from the pointer `a`, the `next` pointers go through the nodes of `l` and end.  A loop
over `pp = &head; *pp; pp = &(*pp)->next` stops at the place that holds the last pointer: the `next`
field of the last node, or the head pointer.
-/

namespace Slist

variable {α : Type} {next next' : α → Option α} {a : Option α} {x : α} {l : List α}

/-- The pointers go through the nodes of `l`. -/
def Chain (next : α → Option α) : Option α → List α → Prop
  | a, [] => a = none
  | a, x :: l => a = some x ∧ Chain next (next x) l

/-- The place that the loop stops at, `none` for the head pointer; it starts at the place `pp` that
holds `a`. -/
def walk (next : α → Option α) : ℕ → Option α → Option α → Option (Option α)
  | 0, _, _ => none
  | _ + 1, pp, none => some pp
  | fuel + 1, _, some x => walk next fuel (some x) (next x)

theorem Chain.head? (h : Chain next a l) : a = l.head? := by
  cases l with
  | nil => exact h
  | cons x l => exact h.1

theorem Chain.congr (h : Chain next a l) (hn : ∀ x ∈ l, next' x = next x) : Chain next' a l := by
  induction l generalizing a with
  | nil => exact h
  | cons x l ih =>
    refine ⟨h.1, ?_⟩
    rw [hn x List.mem_cons_self]
    exact ih h.2 fun y hy => hn y (List.mem_cons_of_mem _ hy)

/-- The loop ends after as many rounds as there are nodes. -/
theorem Chain.walk (h : Chain next a l) {fuel : ℕ} (hfuel : l.length < fuel) (pp : Option α) :
    walk next fuel pp a = some (l.getLast?.or pp) := by
  induction l generalizing a fuel pp with
  | nil =>
    obtain rfl : a = none := h
    obtain ⟨fuel, rfl⟩ := Nat.exists_eq_succ_of_ne_zero (Nat.ne_of_gt hfuel)
    rfl
  | cons x l ih =>
    obtain ⟨rfl, hrest⟩ := h
    rw [List.length_cons] at hfuel
    obtain ⟨fuel, rfl⟩ := Nat.exists_eq_succ_of_ne_zero (Nat.ne_of_gt (Nat.zero_lt_of_lt hfuel))
    rw [Slist.walk, ih hrest (Nat.lt_of_succ_lt_succ hfuel)]
    cases l with
    | nil => rfl
    | cons y l =>
      rw [List.getLast?_cons_cons, List.getLast?_cons]
      rfl

theorem Chain.concat (h : Chain next a l) (hne : l ≠ []) (hnodup : (l ++ [x]).Nodup)
    (hlast : ∀ y, l.getLast? = some y → next' y = some x)
    (hother : ∀ y ∈ l, l.getLast? ≠ some y → next' y = next y) (hx : next' x = none) :
    Chain next' a (l ++ [x]) := by
  induction l generalizing a with
  | nil => exact absurd rfl hne
  | cons y l ih =>
    refine ⟨h.1, ?_⟩
    rw [List.cons_append, List.nodup_cons] at hnodup
    cases l with
    | nil => exact ⟨hlast y rfl, hx⟩
    | cons z l =>
      have hy : next' y = next y := by
        refine hother y List.mem_cons_self fun hl => hnodup.1 ?_
        rw [List.getLast?_cons_cons] at hl
        exact List.mem_append_left _ (List.mem_of_getLast? hl)
      rw [hy]
      refine ih h.2 nofun hnodup.2 (fun w hw => hlast w ?_) fun w hw hl => hother w ?_ ?_
      · rwa [List.getLast?_cons_cons]
      · exact List.mem_cons_of_mem _ hw
      · rwa [List.getLast?_cons_cons]

end Slist

import Mathlib

/-!
# Drawing from weighted holders

The tickets of the holders in a list are numbered one holder after another, from 1 on; number 0 is one
more ticket of the first holder.  `winner l r` is the holder of ticket `r`.
-/

namespace Tickets

variable {ι : Type} {l l₁ l₂ : List (ι × ℕ)} {p : ι} {w r : ℕ}

/-- The holder of ticket `r`. -/
def winner : List (ι × ℕ) → ℕ → Option ι
  | [], _ => none
  | (p, w) :: l, r => if r ≤ w then some p else winner l (r - w)

/-- How many tickets there are. -/
def total (l : List (ι × ℕ)) : ℕ := (l.map Prod.snd).sum

@[simp] theorem total_nil : total ([] : List (ι × ℕ)) = 0 := rfl

@[simp] theorem total_cons : total ((p, w) :: l) = w + total l := by
  simp [total]

@[simp] theorem total_append : total (l₁ ++ l₂) = total l₁ + total l₂ := by
  simp [total]

theorem winner_mem (h : winner l r = some p) : p ∈ l.map Prod.fst := by
  induction l generalizing r with
  | nil => cases h
  | cons x l ih =>
    obtain ⟨q, w⟩ := x
    rw [winner] at h
    split_ifs at h with hr
    · cases h
      exact List.mem_cons_self
    · exact List.mem_cons_of_mem _ (ih h)

theorem exists_winner (hl : l ≠ []) (hr : r ≤ total l) : ∃ p, winner l r = some p := by
  induction l generalizing r with
  | nil => exact absurd rfl hl
  | cons x l ih =>
    obtain ⟨q, w⟩ := x
    rw [winner]
    split_ifs with hw
    · exact ⟨q, rfl⟩
    rw [total_cons] at hr
    refine ih ?_ (by omega)
    rintro rfl
    rw [total_nil] at hr
    omega

/-- The tickets of a holder come after those of the holders before. -/
theorem winner_iff (hl : ((l₁ ++ (p, w) :: l₂).map Prod.fst).Nodup) :
    winner (l₁ ++ (p, w) :: l₂) r = some p ↔ (l₁ = [] ∨ total l₁ < r) ∧ r ≤ total l₁ + w := by
  induction l₁ generalizing r with
  | nil =>
    have hp : ∀ r, winner l₂ r ≠ some p := fun r hr => by
      rw [List.nil_append, List.map_cons, List.nodup_cons] at hl
      exact hl.1 (winner_mem hr)
    rw [List.nil_append, winner, total_nil, Nat.zero_add]
    split_ifs with hr
    · simp [hr]
    · simp [hr, hp]
  | cons x l₁ ih =>
    obtain ⟨q, v⟩ := x
    rw [List.cons_append, List.map_cons, List.nodup_cons] at hl
    have hq : q ≠ p := by
      rintro rfl
      exact hl.1 (by simp)
    rw [List.cons_append, winner, total_cons]
    split_ifs with hr
    · have hne : ¬ (v + total l₁ < r) := by omega
      simp [hq, hne]
    rw [ih hl.2]
    have hlt : total l₁ < r - v ↔ v + total l₁ < r := by omega
    have hle : r - v ≤ total l₁ + w ↔ r ≤ v + total l₁ + w := by omega
    rw [hlt, hle]
    constructor
    · rintro ⟨hfirst | hafter, h⟩
      · subst hfirst
        exact ⟨.inr (by rw [total_nil]; omega), h⟩
      · exact ⟨.inr hafter, h⟩
    · rintro ⟨hfirst | hafter, h⟩
      · cases hfirst
      · exact ⟨.inr hafter, h⟩

/-- Each holder has as many tickets as its weight says, and the first one more. -/
theorem card_winner [DecidableEq ι] (hl : ((l₁ ++ (p, w) :: l₂).map Prod.fst).Nodup) :
    ((Finset.range (total (l₁ ++ (p, w) :: l₂) + 1)).filter fun r =>
      winner (l₁ ++ (p, w) :: l₂) r = some p).card = if l₁ = [] then w + 1 else w := by
  simp only [winner_iff hl, total_append, total_cons]
  split_ifs with hfirst
  · have hzero : total l₁ = 0 := by rw [hfirst, total_nil]
    have hset : ((Finset.range (total l₁ + (w + total l₂) + 1)).filter fun r =>
        (l₁ = [] ∨ total l₁ < r) ∧ r ≤ total l₁ + w) = Finset.range (w + 1) := by
      ext r
      simp only [Finset.mem_filter, Finset.mem_range, hfirst, total_nil, true_or, true_and]
      omega
    rw [hset, Finset.card_range]
  · have hset : ((Finset.range (total l₁ + (w + total l₂) + 1)).filter fun r =>
        (l₁ = [] ∨ total l₁ < r) ∧ r ≤ total l₁ + w) = Finset.Ioc (total l₁) (total l₁ + w) := by
      ext r
      simp only [Finset.mem_filter, Finset.mem_range, Finset.mem_Ioc, hfirst, false_or]
      omega
    rw [hset, Nat.card_Ioc, Nat.add_sub_cancel_left]

end Tickets

import Mathlib

/-!
# Reference counts

Holders in `A` refer to objects in `B`, and each object counts the references to it.  In the middle
of an operation some references are held by no one yet: they are the multiset `T`.  The rules are
the moves of a program: it takes or drops a reference, stores one in a holder or moves it out.
-/

namespace Refs

open Function Finset

theorem card_filter_swap {α : Type} [Fintype α] [DecidableEq α] {P Q : α → Prop}
    [DecidablePred P] [DecidablePred Q] (a : α) (h : ∀ b, b ≠ a → (P b ↔ Q b)) :
    (univ.filter P).card + (if Q a then 1 else 0) = (univ.filter Q).card + if P a then 1 else 0 := by
  have hrest : ∑ b ∈ univ.erase a, (if P b then 1 else 0) =
      ∑ b ∈ univ.erase a, if Q b then 1 else 0 :=
    sum_congr rfl fun b hb => by simp only [h b (ne_of_mem_erase hb)]
  rw [card_filter, card_filter, ← add_sum_erase _ _ (mem_univ a), hrest,
    ← add_sum_erase univ (fun b => if Q b then 1 else 0) (mem_univ a)]
  omega

variable {A B : Type} [Fintype A] [DecidableEq B]

theorem card_filter_pos {P : A → Prop} [DecidablePred P] : 0 < (univ.filter P).card ↔ ∃ a, P a := by
  simp [card_pos, filter_nonempty_iff]

/-- The number of holders that refer to the object. -/
def holders (hold : A → Option B) (b : B) : ℕ := (univ.filter fun a => hold a = some b).card

theorem holders_eq_card {hold : A → Option B} {b : B} {P : A → Prop} [DecidablePred P]
    (h : ∀ a, hold a = some b ↔ P a) : holders hold b = (univ.filter P).card :=
  congrArg card (filter_congr fun a _ => h a)

theorem holders_sum {A' : Type} [Fintype A'] (hold : A ⊕ A' → Option B) (b : B) :
    holders hold b = holders (fun a => hold (.inl a)) b + holders (fun a => hold (.inr a)) b := by
  simp only [holders, card_filter, Fintype.sum_sum_type]

/-- The count of every object is the number of references to it. -/
def Balanced (cnt : B → ℕ) (hold : A → Option B) (T : Multiset B) : Prop :=
  ∀ b, cnt b = holders hold b + T.count b

variable {cnt cnt' : B → ℕ} {hold hold' : A → Option B} {T : Multiset B} {a : A} {b : B}

namespace Balanced

theorem congr (h : Balanced cnt hold T) (hc : ∀ b, cnt' b = cnt b) (hh : ∀ a, hold' a = hold a) :
    Balanced cnt' hold' T := by
  obtain rfl : cnt' = cnt := funext hc
  obtain rfl : hold' = hold := funext hh
  exact h

theorem pos_of_hold (h : Balanced cnt hold T) (ha : hold a = some b) : 0 < cnt b := by
  have : 0 < holders hold b := card_filter_pos.2 ⟨a, ha⟩
  rw [h b]
  omega

theorem pos_of_mem (h : Balanced cnt hold T) (hb : b ∈ T) : 0 < cnt b := by
  have := Multiset.count_pos.2 hb
  rw [h b]
  omega

theorem alone (h : Balanced cnt hold (b ::ₘ T)) (hone : cnt b = 1) :
    (∀ a, hold a ≠ some b) ∧ b ∉ T := by
  have hb := h b
  rw [Multiset.count_cons_self] at hb
  refine ⟨fun a ha => ?_, fun hT => ?_⟩
  · have : 0 < holders hold b := card_filter_pos.2 ⟨a, ha⟩
    omega
  · have := Multiset.count_pos.2 hT
    omega

theorem inc (h : Balanced cnt hold T) (hb : cnt' b = cnt b + 1) (ho : ∀ c, c ≠ b → cnt' c = cnt c) :
    Balanced cnt' hold (b ::ₘ T) := by
  intro c
  have hc := h c
  by_cases hcb : c = b
  · subst hcb
    rw [Multiset.count_cons_self]
    omega
  · rw [Multiset.count_cons_of_ne hcb, ho c hcb, hc]

theorem dec (h : Balanced cnt hold (b ::ₘ T)) (hb : cnt' b = cnt b - 1)
    (ho : ∀ c, c ≠ b → cnt' c = cnt c) : Balanced cnt' hold T := by
  intro c
  have hc := h c
  by_cases hcb : c = b
  · subst hcb
    rw [Multiset.count_cons_self] at hc
    omega
  · rw [Multiset.count_cons_of_ne hcb] at hc
    rw [ho c hcb, hc]

variable [DecidableEq A]

theorem holders_move (ho : ∀ c, c ≠ a → hold' c = hold c) (b : B) :
    holders hold' b + (if hold a = some b then 1 else 0) =
      holders hold b + if hold' a = some b then 1 else 0 :=
  card_filter_swap (P := fun c => hold' c = some b) (Q := fun c => hold c = some b) a
    fun c hc => by rw [ho c hc]

theorem give (h : Balanced cnt hold (b ::ₘ T)) (ha : hold a = none) (ha' : hold' a = some b)
    (ho : ∀ c, c ≠ a → hold' c = hold c) : Balanced cnt hold' T := by
  intro c
  have hc := h c
  have hm := holders_move ho c
  rw [ha, ha'] at hm
  rw [Multiset.count_cons] at hc
  simp only [reduceCtorEq, if_false, Option.some.injEq, add_zero] at hm
  by_cases hcb : c = b
  · simp only [hcb, if_true] at hc hm ⊢
    omega
  · simp only [hcb, Ne.symm hcb, if_false] at hc hm
    omega

theorem take (h : Balanced cnt hold T) (ha : hold a = some b) (ha' : hold' a = none)
    (ho : ∀ c, c ≠ a → hold' c = hold c) : Balanced cnt hold' (b ::ₘ T) := by
  intro c
  have hc := h c
  have hm := holders_move ho c
  rw [ha, ha'] at hm
  simp only [reduceCtorEq, if_false, Option.some.injEq, add_zero] at hm
  rw [Multiset.count_cons]
  by_cases hcb : c = b
  · simp only [hcb, if_true] at hc hm ⊢
    omega
  · simp only [hcb, Ne.symm hcb, if_false] at hc hm ⊢
    omega

end Balanced

end Refs

import Mathlib

/-!
# Runs of a labelled transition system

`Run step s ls t`: the labels `ls`, taken one after another from `s`, lead to `t`.  A condition on
the steps of a run is part of the step relation (`given step ok`), so that "every run whose steps
meet the condition" is again a `Run`.
-/

namespace Lts

variable {σ ℓ : Type}

/-- The finite runs of a step relation. -/
inductive Run (step : σ → ℓ → σ → Prop) : σ → List ℓ → σ → Prop
  | nil (s : σ) : Run step s [] s
  | cons {s t u : σ} {l : ℓ} {ls : List ℓ} (head : step s l t) (tail : Run step t ls u) :
      Run step s (l :: ls) u

/-- The steps that meet a condition on the state before the step and its label. -/
def given (step : σ → ℓ → σ → Prop) (ok : σ → ℓ → Prop) : σ → ℓ → σ → Prop :=
  fun s l t => ok s l ∧ step s l t

variable {step : σ → ℓ → σ → Prop} {s t u : σ} {l : ℓ} {ls ms : List ℓ}

/-- What every step preserves, every run preserves. -/
theorem Run.invariant {I : σ → Prop} (h : Run step s ls t) (hs : I s)
    (hI : ∀ s l t, I s → step s l t → I t) : I t := by
  induction h with
  | nil => exact hs
  | cons head _ ih => exact ih (hI _ _ _ hs head)

theorem Run.mono {step' : σ → ℓ → σ → Prop} (h : Run step s ls t)
    (hst : ∀ s l t, step s l t → step' s l t) : Run step' s ls t := by
  induction h with
  | nil => exact .nil _
  | cons head _ ih => exact .cons (hst _ _ _ head) ih

/-- A condition that the labels alone decide. -/
theorem Run.given_labels {ok : σ → ℓ → Prop} (h : Run step s ls t) (hok : ∀ l ∈ ls, ∀ s, ok s l) :
    Run (given step ok) s ls t := by
  induction h with
  | nil => exact .nil _
  | cons head _ ih =>
    exact .cons ⟨hok _ List.mem_cons_self _, head⟩ (ih fun l hl => hok l (List.mem_cons_of_mem _ hl))

theorem Run.append (h1 : Run step s ls t) (h2 : Run step t ms u) : Run step s (ls ++ ms) u := by
  induction h1 with
  | nil => exact h2
  | cons head _ ih => exact .cons head (ih h2)

theorem Run.one (h : step s l t) : Run step s [l] t := .cons h (.nil t)

/-- A step function as a step relation. -/
def ofFun (f : σ → ℓ → Option σ) : σ → ℓ → σ → Prop := fun s l t => f s l = some t

theorem Run.of_foldlM {f : σ → ℓ → Option σ} (h : ls.foldlM f s = some t) :
    Run (ofFun f) s ls t := by
  induction ls generalizing s with
  | nil =>
    cases h
    exact .nil _
  | cons l ls ih =>
    rw [List.foldlM_cons] at h
    obtain ⟨u, hu, ht⟩ := Option.bind_eq_some_iff.1 h
    exact .cons hu (ih ht)

end Lts

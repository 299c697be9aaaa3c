import Mathlib

/-!
# Exclusive ownership

Owners in `U` hold elements of `F`, each owner at most one and each element at most once.  `used`
marks the elements that are handed out.  The rules are the moves of a program: an owner takes an
unused element, gives its element back, forgets it, or two owners exchange what they hold.
-/

namespace Lts

open Function

variable {U F : Type}

theorem of_update_some [DecidableEq U] {own : U → Option F} {a b : U} {f g : F}
    (h : update own a (some f) b = some g) : b = a ∧ g = f ∨ b ≠ a ∧ own b = some g := by
  by_cases e : b = a
  · subst e
    rw [update_self, Option.some.injEq] at h
    exact .inl ⟨rfl, h.symm⟩
  · rw [update_of_ne e] at h
    exact .inr ⟨e, h⟩

theorem inj_update_some [DecidableEq U] {own : U → Option F} {K : Type} {key : F → K} {a : U} {f : F}
    (h : ∀ {b c x y}, own b = some x → own c = some y → key x = key y → b = c)
    (hf : ∀ {b x}, b ≠ a → own b = some x → key x ≠ key f) {b c : U} {x y : F}
    (hb : update own a (some f) b = some x) (hc : update own a (some f) c = some y)
      (e : key x = key y) :
    b = c := by
  rcases of_update_some hb with ⟨rfl, rfl⟩ | ⟨hne, hb'⟩
  · rcases of_update_some hc with ⟨rfl, -⟩ | ⟨hne, hc'⟩
    · rfl
    · exact absurd e.symm (hf hne hc')
  · rcases of_update_some hc with ⟨-, rfl⟩ | ⟨-, hc'⟩
    · exact absurd e (hf hne hb')
    · exact h hb' hc' e

/-- No element is held twice, and what is held is in use. -/
structure Own (own : U → Option F) (used : F → Bool) : Prop where
  inj : ∀ {a b f}, own a = some f → own b = some f → a = b
  used : ∀ {a f}, own a = some f → used f = true

namespace Own

variable {own own' : U → Option F} {used : F → Bool} {a b : U} {f : F}

theorem congr (h : Own own used) (ho : ∀ c, own' c = own c) : Own own' used := by
  obtain rfl : own' = own := funext ho
  exact h

theorem ne_of_unused (h : Own own used) (hf : used f = false) (a : U) : own a ≠ some f := by
  intro ha
  rw [h.used ha] at hf
  cases hf

theorem forget (h : Own own used) (ha : own' a = none) (ho : ∀ c, c ≠ a → own' c = own c) :
    Own own' used := by
  have hle : ∀ {c f}, own' c = some f → own c = some f := by
    intro c f hc
    rw [← ho c, hc]
    rintro rfl
    rw [ha] at hc
    cases hc
  exact ⟨fun h1 h2 => h.inj (hle h1) (hle h2), fun h1 => h.used (hle h1)⟩

theorem dropAll (h : Own own used) {used' : F → Bool} (S : U → Prop) (hin : ∀ c, S c → own' c = none)
    (hout : ∀ c, ¬ S c → own' c = own c)
    (hused : ∀ f, used f = true → (∀ c, S c → own c ≠ some f) → used' f = true) : Own own' used' := by
  have hle : ∀ {c f}, own' c = some f → ¬ S c ∧ own c = some f := by
    intro c f hc
    by_cases hS : S c
    · rw [hin c hS] at hc
      cases hc
    · exact ⟨hS, hout c hS ▸ hc⟩
  refine ⟨fun h1 h2 => h.inj (hle h1).2 (hle h2).2, fun {c f} hc => ?_⟩
  obtain ⟨hS, hc⟩ := hle hc
  refine hused f (h.used hc) fun d hd hdf => ?_
  exact hS (h.inj hc hdf ▸ hd)

theorem swap (h : Own own used) (ha : own' a = own b) (hb : own' b = own a)
    (ho : ∀ c, c ≠ a → c ≠ b → own' c = own c) : Own own' used := by
  classical
  have hswap : ∀ c, own' c = own (Equiv.swap a b c) := by
    intro c
    by_cases hca : c = a
    · rw [hca, ha, Equiv.swap_apply_left]
    by_cases hcb : c = b
    · rw [hcb, hb, Equiv.swap_apply_right]
    rw [ho c hca hcb, Equiv.swap_apply_of_ne_of_ne hca hcb]
  refine ⟨fun {x y f} hx hy => ?_, fun {x f} hx => ?_⟩
  · rw [hswap] at hx hy
    exact (Equiv.swap a b).injective (h.inj hx hy)
  · rw [hswap] at hx
    exact h.used hx

variable [DecidableEq F]

theorem take (h : Own own used) (hf : used f = false) (ha : own' a = some f)
    (ho : ∀ c, c ≠ a → own' c = own c) : Own own' (update used f true) := by
  have hne : ∀ c, c ≠ a → own' c ≠ some f := fun c hc => by
    rw [ho c hc]
    exact h.ne_of_unused hf c
  refine ⟨fun {x y g} hx hy => ?_, fun {x g} hx => ?_⟩
  · by_cases hxa : x = a
    · by_cases hya : y = a
      · rw [hxa, hya]
      · rw [hxa, ha] at hx
        exact absurd (hx ▸ hy) (hne y hya)
    by_cases hya : y = a
    · rw [hya, ha] at hy
      exact absurd (hy ▸ hx) (hne x hxa)
    · rw [ho x hxa] at hx
      rw [ho y hya] at hy
      exact h.inj hx hy
  · by_cases hg : g = f
    · rw [hg, update_self]
    rw [update_of_ne hg]
    have hxa : x ≠ a := by
      rintro rfl
      rw [ha] at hx
      exact hg (by simpa using hx.symm)
    rw [ho x hxa] at hx
    exact h.used hx

theorem drop (h : Own own used) (ha : own a = some f) (ha' : own' a = none)
    (ho : ∀ c, c ≠ a → own' c = own c) : Own own' (update used f false) := by
  have h' := h.forget ha' ho
  refine ⟨h'.inj, fun {x g} hx => ?_⟩
  have hg : g ≠ f := by
    rintro rfl
    have hxa : x ≠ a := by
      rintro rfl
      rw [ha'] at hx
      cases hx
    rw [ho x hxa] at hx
    exact hxa (h.inj hx ha)
  rw [update_of_ne hg]
  exact h'.used hx

end Own

end Lts

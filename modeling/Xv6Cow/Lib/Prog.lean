import Mathlib

/-!
# Weakest preconditions of stateful programs that can stop

A program over the state `σ` is an `EStateM ε σ α`: it either returns a value or stops with an
error `e : ε`, and in both cases the state it left behind is known.  `wp x Q E s` says that `x`, run
from `s`, returns with `Q` or stops with `E`.
-/

namespace Prog

variable {ε σ α β : Type}

/-- Run from `s`, the program returns with `Q` or stops with `E`. -/
def wp (x : EStateM ε σ α) (Q : α → σ → Prop) (E : ε → σ → Prop) (s : σ) : Prop :=
  match x s with
  | .ok a s' => Q a s'
  | .error e s' => E e s'

variable {x : EStateM ε σ α} {Q Q' : α → σ → Prop} {E E' : ε → σ → Prop} {s : σ}

@[simp] theorem wp_pure (a : α) : wp (pure a : EStateM ε σ α) Q E s = Q a s := rfl

@[simp] theorem wp_throw (e : ε) : wp (throw e : EStateM ε σ α) Q E s = E e s := rfl

@[simp] theorem wp_get {Q : σ → σ → Prop} : wp (get : EStateM ε σ σ) Q E s = Q s s := rfl

@[simp] theorem wp_set {Q : PUnit → σ → Prop} (t : σ) :
    wp (set t : EStateM ε σ PUnit) Q E s = Q ⟨⟩ t := rfl

@[simp] theorem wp_modify {Q : PUnit → σ → Prop} (f : σ → σ) :
    wp (modify f : EStateM ε σ PUnit) Q E s = Q ⟨⟩ (f s) := rfl

@[simp] theorem wp_bind (f : α → EStateM ε σ β) {Q : β → σ → Prop} :
    wp (x >>= f) Q E s = wp x (fun a s' => wp (f a) Q E s') E s := by
  simp only [wp, bind, EStateM.bind]
  cases x s <;> rfl

@[simp] theorem wp_ite (c : Prop) [Decidable c] (y : EStateM ε σ α) :
    wp (if c then x else y) Q E s = if c then wp x Q E s else wp y Q E s := by
  split <;> rfl

/-- The rules that run a program step by step, as one lemma for `simp`. -/
theorem wp_run : (∀ {ε σ α β : Type} {x : EStateM ε σ α} (f : α → EStateM ε σ β) {Q E s},
      wp (x >>= f) Q E s = wp x (fun a s' => wp (f a) Q E s') E s) ∧
    (∀ {ε σ α : Type} (a : α) {Q E s}, wp (pure a : EStateM ε σ α) Q E s = Q a s) ∧
    (∀ {ε σ α : Type} (e : ε) {Q E s}, wp (throw e : EStateM ε σ α) Q E s = E e s) ∧
    (∀ {ε σ : Type} {Q E s}, wp (get : EStateM ε σ σ) Q E s = Q s s) ∧
    (∀ {ε σ : Type} (t : σ) {Q E s}, wp (set t : EStateM ε σ PUnit) Q E s = Q ⟨⟩ t) ∧
    (∀ {ε σ : Type} (f : σ → σ) {Q E s}, wp (modify f : EStateM ε σ PUnit) Q E s = Q ⟨⟩ (f s)) ∧
    (∀ {ε σ α : Type} {x : EStateM ε σ α} (c : Prop) [Decidable c] (y : EStateM ε σ α) {Q E s},
      wp (if c then x else y) Q E s = if c then wp x Q E s else wp y Q E s) ∧
    (∀ {α : Type} {_ : Decidable True} (x y : α), (if True then x else y) = x) ∧
    (∀ {α : Type} {_ : Decidable False} (x y : α), (if False then x else y) = y) ∧
    (false = true) = False :=
  ⟨fun f => wp_bind f, fun a => wp_pure a, fun e => wp_throw e, wp_get, fun t => wp_set t,
    fun f => wp_modify f, fun c _ y => wp_ite c y, if_true, if_false, Bool.false_eq_true⟩

theorem wp_mono (h : wp x Q E s) (hQ : ∀ a s', Q a s' → Q' a s')
    (hE : ∀ e s', E e s' → E' e s') : wp x Q' E' s := by
  unfold wp at *
  cases hx : x s with
  | ok a s' => simp only [hx] at h ⊢; exact hQ a s' h
  | error e s' => simp only [hx] at h ⊢; exact hE e s' h

theorem wp_imp (h : wp x Q E s) (hQ : ∀ a s', Q a s' → Q' a s') : wp x Q' E s :=
  wp_mono h hQ fun _ _ hE => hE

theorem wp_call (h : wp x Q (fun _ _ => False) s) (hQ : ∀ a s', Q a s' → Q' a s') : wp x Q' E s :=
  wp_mono h hQ fun _ _ hE => hE.elim

theorem wp_lax (h : wp x Q E s) (hQ : ∀ a s', Q a s' → Q' a s') : wp x Q' (fun _ _ => True) s :=
  wp_mono h hQ fun _ _ _ => trivial

theorem wp_and (h : wp x Q E s) (h' : wp x Q' E' s) :
    wp x (fun a s' => Q a s' ∧ Q' a s') (fun e s' => E e s' ∧ E' e s') s := by
  unfold wp at *
  cases hx : x s with
  | ok a s' => simp only [hx] at h h' ⊢; exact ⟨h, h'⟩
  | error e s' => simp only [hx] at h h' ⊢; exact ⟨h, h'⟩

theorem wp_also (h : wp x Q E s) (h' : wp x Q' E' s) : wp x (fun a s' => Q a s' ∧ Q' a s') E s :=
  wp_mono (wp_and h h') (fun _ _ hQ => hQ) fun _ _ hE => hE.1

theorem wp_returns (h : wp x Q (fun _ _ => False) s) : ∃ a s', x s = .ok a s' ∧ Q a s' := by
  unfold wp at h
  cases hx : x s with
  | ok a s' => simp only [hx] at h; exact ⟨a, s', rfl, h⟩
  | error e s' => simp only [hx] at h

/-- What holds of every outcome is what `wp` says. -/
theorem wp_iff : wp x Q E s ↔
    (∀ a s', x s = .ok a s' → Q a s') ∧ ∀ e s', x s = .error e s' → E e s' := by
  unfold wp
  cases hx : x s with
  | ok a s' => simp
  | error e s' => simp

theorem wp_ok (h : wp x Q E s) {a : α} {s' : σ} (hx : x s = .ok a s') : Q a s' :=
  (wp_iff.1 h).1 a s' hx

theorem wp_error (h : wp x Q E s) {e : ε} {s' : σ} (hx : x s = .error e s') : E e s' :=
  (wp_iff.1 h).2 e s' hx

section Zoom

variable {ε' τ : Type} {view : σ → τ} {put : σ → τ → σ} {wrap : ε → ε'}

/-- Run a program on the part of the state that `view` shows and `put` replaces. -/
def zoom (view : σ → τ) (put : σ → τ → σ) (wrap : ε → ε') (x : EStateM ε τ α) :
    EStateM ε' σ α := fun s =>
  match x (view s) with
  | .ok a t => .ok a (put s t)
  | .error e t => .error (wrap e) (put s t)

@[simp] theorem wp_zoom {x : EStateM ε τ α} {E : ε' → σ → Prop} : wp (zoom view put wrap x) Q E s =
      wp x (fun a t => Q a (put s t)) (fun e t => E (wrap e) (put s t)) (view s) := by
  unfold wp zoom
  cases x (view s) <;> rfl

end Zoom

theorem ok_of_bind {y : Except ε α} {f : α → Except ε β} {b : β} (h : y >>= f = .ok b) :
    ∃ a, y = .ok a ∧ f a = .ok b := by
  cases y with
  | error e => cases h
  | ok a => exact ⟨a, rfl, h⟩

end Prog

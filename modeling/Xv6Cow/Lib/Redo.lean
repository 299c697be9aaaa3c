import Mathlib

/-!
# Redo logs

A store with a redo log: a header that lists addresses, one log slot for each of them, and the home
locations.  `recovered` is what the home locations hold once the log is applied.  Installing a slot
and dropping the header after all slots are installed do not change it; only writing the header
does.
-/

namespace Redo

open Function

variable {A D : Type} [DecidableEq A]

/-- A store with a redo log. -/
structure Store (A D : Type) where
  head : List A
  slot : ℕ → D
  home : A → D

/-- The home contents after the log has been applied. -/
def Store.recovered (d : Store A D) (a : A) : D :=
  if a ∈ d.head then d.slot (d.head.idxOf a) else d.home a

variable {d : Store A D} {a : A}

theorem recovered_of_mem (h : a ∈ d.head) : d.recovered a = d.slot (d.head.idxOf a) := if_pos h

theorem recovered_of_notMem (h : a ∉ d.head) : d.recovered a = d.home a := if_neg h

theorem recovered_of_nil (h : d.head = []) : d.recovered a = d.home a :=
  recovered_of_notMem (by simp [h])

theorem recovered_get (hnd : d.head.Nodup) {i : ℕ} (hi : i < d.head.length) :
    d.recovered d.head[i] = d.slot i := by
  rw [recovered_of_mem (List.getElem_mem hi), hnd.idxOf_getElem i hi]

theorem recovered_install {i : ℕ} (hi : i < d.head.length) (a : A) :
    Store.recovered { d with home := update d.home d.head[i] (d.slot i) } a =
      d.recovered a := by
  by_cases ha : a ∈ d.head
  · rw [recovered_of_mem ha]
    exact recovered_of_mem ha
  have hne : a ≠ d.head[i] := by
    rintro rfl
    exact ha (List.getElem_mem hi)
  rw [recovered_of_notMem ha]
  exact (if_neg ha).trans (update_of_ne hne ..)

theorem recovered_clear (hnd : d.head.Nodup)
    (h : ∀ i (hi : i < d.head.length), d.home d.head[i] = d.slot i) (a : A) :
    d.home a = d.recovered a := by
  by_cases ha : a ∈ d.head
  · obtain ⟨i, hi, rfl⟩ := List.getElem_of_mem ha
    rw [recovered_get hnd hi, h i hi]
  · rw [recovered_of_notMem ha]

/-- The contents after a list of writes. -/
def applyAll (m : A → D) (ws : List (A × D)) : A → D :=
  ws.foldl (fun m w => update m w.1 w.2) m

theorem applyAll_append (m : A → D) (ws vs : List (A × D)) :
    applyAll m (ws ++ vs) = applyAll (applyAll m ws) vs := List.foldl_append ..

theorem applyAll_of_notMem {m : A → D} {ws : List (A × D)} (h : ∀ w ∈ ws, w.1 ≠ a) :
    applyAll m ws a = m a := by
  induction ws generalizing m with
  | nil => rfl
  | cons w ws ih =>
    have hw := h w List.mem_cons_self
    calc applyAll m (w :: ws) a = applyAll (update m w.1 w.2) ws a := rfl
      _ = update m w.1 w.2 a := ih fun v hv => h v (List.mem_cons_of_mem _ hv)
      _ = m a := update_of_ne hw.symm ..

end Redo

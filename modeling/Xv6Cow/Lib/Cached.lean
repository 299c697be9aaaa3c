import Mathlib

/-!
# A table and a cache of its entries

A table is written to one entry at a time.  A cache picks up entries of the table at any moment and
keeps them, whatever happens to the table, until it is flushed.  `Exec` is all that can come of a
list of writes and flushes; in between the cache may also be flushed from outside.
-/

namespace Cached

variable {K V : Type} [DecidableEq K]

inductive Ev (K V : Type)
  | write (k : K) (v : V)
  | flush

/-- The table after some events. -/
def applyAll (m : K → V) : List (Ev K V) → K → V
  | [] => m
  | .write k v :: es => applyAll (Function.update m k v) es
  | .flush :: es => applyAll m es

theorem applyAll_append (m : K → V) (es fs : List (Ev K V)) :
    applyAll m (es ++ fs) = applyAll (applyAll m es) fs := by
  induction es generalizing m with
  | nil => rfl
  | cons e es ih =>
    cases e with
    | write k v => exact ih _
    | flush => exact ih _

/-- From a table and a cache to a table and a cache; only some entries can be cached. -/
inductive Exec (cacheable : V → Prop) :
    (K → V) → Set (K × V) → List (Ev K V) → (K → V) → Set (K × V) → Prop
  | done (m c) : Exec cacheable m c [] m c
  | fill {m c es m' c'} (k : K) (hk : cacheable (m k))
      (h : Exec cacheable m (insert (k, m k) c) es m' c') : Exec cacheable m c es m' c'
  | drop {m c es m' c'} (h : Exec cacheable m ∅ es m' c') : Exec cacheable m c es m' c'
  | write {m c k v es m' c'} (h : Exec cacheable (Function.update m k v) c es m' c') :
      Exec cacheable m c (.write k v :: es) m' c'
  | flush {m c es m' c'} (h : Exec cacheable m ∅ es m' c') : Exec cacheable m c (.flush :: es) m' c'

/-- Every cached entry is allowed by the one in the table. -/
def Coherent (le : V → V → Prop) (m : K → V) (c : Set (K × V)) : Prop := ∀ x ∈ c, le x.2 (m x.1)

variable {cacheable : V → Prop} {le : V → V → Prop} {m m' : K → V} {c c' : Set (K × V)}
  {es : List (Ev K V)}

omit [DecidableEq K] in
theorem coherent_empty : Coherent le m ∅ := fun _ hx => absurd hx (Set.notMem_empty _)

omit [DecidableEq K] in
theorem Coherent.insert (h : Coherent le m c) {k : K} (hk : le (m k) (m k)) :
    Coherent le m (insert (k, m k) c) := by
  rintro x (rfl | hx)
  · exact hk
  · exact h x hx

theorem Exec.coherent_nil (hle : ∀ v, cacheable v → le v v) (h : Exec cacheable m c [] m' c')
    (hc : Coherent le m c) : Coherent le m' c' := by
  generalize hes : ([] : List (Ev K V)) = es at h
  induction h with
  | done => exact hc
  | fill k hk _ ih => exact ih (hc.insert (hle _ hk)) hes
  | drop _ ih => exact ih coherent_empty hes
  | write => cases hes
  | flush => cases hes

/-- Whatever was cached before, a flush at the end makes up for all writes. -/
theorem Exec.coherent_flush (hle : ∀ v, cacheable v → le v v)
    (h : Exec cacheable m c (es ++ [.flush]) m' c') : Coherent le m' c' := by
  generalize hfs : es ++ [.flush] = fs at h
  induction h generalizing es with
  | done => simp at hfs
  | fill k hk _ ih => exact ih hfs
  | drop _ ih => exact ih hfs
  | @write m c k v fs m' c' _ ih =>
    cases es with
    | nil => simp at hfs
    | cons e es =>
      rw [List.cons_append, List.cons.injEq] at hfs
      exact ih hfs.2
  | @flush m c fs m' c' hrest ih =>
    cases es with
    | nil =>
      obtain rfl : fs = [] := by simpa using hfs.symm
      exact hrest.coherent_nil hle coherent_empty
    | cons e es =>
      rw [List.cons_append, List.cons.injEq] at hfs
      exact ih hfs.2

end Cached

import Mathlib

/-!
# Intervals cut into pieces

`Tiled addr len lo bs hi`: the pieces of `bs`, each from `addr` and of length `len`, follow each other
without a gap from `lo` to `hi`.
-/

namespace Tiles

variable {β : Type} {addr len : β → ℕ} {lo hi : ℕ} {a b c : β} {bs l m : List β}

/-- The pieces follow each other from `lo` to `hi`. -/
def Tiled (addr len : β → ℕ) : ℕ → List β → ℕ → Prop
  | lo, [], hi => lo = hi
  | lo, b :: bs, hi => addr b = lo ∧ 0 < len b ∧ Tiled addr len (lo + len b) bs hi

theorem tiled_append :
    Tiled addr len lo (l ++ m) hi ↔ ∃ mid, Tiled addr len lo l mid ∧ Tiled addr len mid m hi := by
  induction l generalizing lo with
  | nil =>
    constructor
    · exact fun h => ⟨lo, rfl, h⟩
    · rintro ⟨mid, rfl, h⟩
      exact h
  | cons x l ih =>
    constructor
    · rintro ⟨hx, hpos, h⟩
      obtain ⟨mid, hl, hm⟩ := ih.1 h
      exact ⟨mid, ⟨hx, hpos, hl⟩, hm⟩
    · rintro ⟨mid, ⟨hx, hpos, hl⟩, hm⟩
      exact ⟨hx, hpos, ih.2 ⟨mid, hl, hm⟩⟩

theorem tiled_middle :
    Tiled addr len lo (l ++ b :: m) hi ↔ Tiled addr len lo l (addr b) ∧ 0 < len b ∧
      Tiled addr len (addr b + len b) m hi := by
  rw [tiled_append]
  constructor
  · rintro ⟨mid, hl, rfl, hpos, hm⟩
    exact ⟨hl, hpos, hm⟩
  · rintro ⟨hl, hpos, hm⟩
    exact ⟨_, hl, rfl, hpos, hm⟩

theorem Tiled.le (h : Tiled addr len lo bs hi) : lo ≤ hi := by
  induction bs generalizing lo with
  | nil => exact h.le
  | cons b bs ih => exact (Nat.le_add_right _ _).trans (ih h.2.2)

theorem Tiled.hi_unique {hi' : ℕ} (h : Tiled addr len lo bs hi) (h' : Tiled addr len lo bs hi') :
    hi = hi' := by
  induction bs generalizing lo with
  | nil => exact h.symm.trans h'
  | cons b bs ih => exact ih h.2.2 h'.2.2

theorem Tiled.length_le {k : ℕ} (h : Tiled addr len lo bs hi) (hk : ∀ b ∈ bs, k ≤ len b) :
    lo + k * bs.length ≤ hi := by
  induction bs generalizing lo with
  | nil => exact h.le
  | cons b bs ih =>
    have hb := hk b List.mem_cons_self
    have hbs := ih h.2.2 fun c hc => hk c (List.mem_cons_of_mem _ hc)
    rw [List.length_cons, Nat.mul_succ]
    omega

section

variable (h : Tiled addr len lo bs hi)

include h

theorem Tiled.mem (hb : b ∈ bs) : lo ≤ addr b ∧ 0 < len b ∧ addr b + len b ≤ hi := by
  obtain ⟨l, m, rfl⟩ := List.append_of_mem hb
  obtain ⟨hl, hpos, hm⟩ := tiled_middle.1 h
  exact ⟨hl.le, hpos, hm.le⟩

theorem Tiled.pairwise : bs.Pairwise fun a b => addr a + len a ≤ addr b := by
  induction bs generalizing lo with
  | nil => exact .nil
  | cons b bs ih =>
    refine .cons (fun c hc => ?_) (ih h.2.2)
    rw [h.1]
    exact (h.2.2.mem hc).1

theorem Tiled.cover {x : ℕ} :
    x ∈ Set.Ico lo hi ↔ ∃ b ∈ bs, x ∈ Set.Ico (addr b) (addr b + len b) := by
  constructor
  · intro hx
    induction bs generalizing lo with
    | nil =>
      obtain rfl : lo = hi := h
      exact absurd (hx.1.trans_lt hx.2) (lt_irrefl _)
    | cons b bs ih =>
      by_cases hb : x < lo + len b
      · exact ⟨b, List.mem_cons_self, by rw [h.1]; exact ⟨hx.1, hb⟩⟩
      · obtain ⟨c, hc, hxc⟩ := ih h.2.2 ⟨not_lt.1 hb, hx.2⟩
        exact ⟨c, List.mem_cons_of_mem _ hc, hxc⟩
  · rintro ⟨b, hb, hx⟩
    obtain ⟨hlo, -, hhi⟩ := h.mem hb
    exact ⟨hlo.trans hx.1, hx.2.trans_le hhi⟩

theorem Tiled.head (hc : c ∈ bs) (hlo : addr c = lo) : bs.head? = some c := by
  cases bs with
  | nil => cases hc
  | cons b bs =>
    rcases List.mem_cons.1 hc with rfl | hc
    · rfl
    · have hpos := h.2.1
      have hle := (h.2.2.mem hc).1
      omega

theorem Tiled.last (hc : c ∈ bs) (hhi : addr c + len c = hi) : bs.getLast? = some c := by
  obtain ⟨l, m, rfl⟩ := List.append_of_mem hc
  obtain ⟨-, -, hm⟩ := tiled_middle.1 h
  cases m with
  | nil => simp
  | cons b m =>
    have hpos := hm.2.1
    have hle := hm.2.2.le
    omega

theorem Tiled.touch (ha : a ∈ bs) (hc : c ∈ bs)
    (hac : addr a + len a = addr c) : ∃ l m, bs = l ++ a :: c :: m := by
  obtain ⟨l, m, rfl⟩ := List.append_of_mem ha
  obtain ⟨hl, hpos, hm⟩ := tiled_middle.1 h
  have hcm : c ∈ m := by
    rcases List.mem_append.1 hc with hc | hc
    · obtain ⟨-, hcpos, hle⟩ := hl.mem hc
      omega
    · rcases List.mem_cons.1 hc with rfl | hc
      · omega
      · exact hc
  cases m with
  | nil => cases hcm
  | cons b m =>
    obtain rfl : b = c := Option.some.inj (hm.head hcm hac.symm)
    exact ⟨l, m, rfl⟩

end

end Tiles

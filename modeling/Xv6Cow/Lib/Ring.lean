import Mathlib

/-!
# Ring buffers

A ring of `N` cells with two counters of `w` bits that only go up, and wrap: elements are put in at
one and taken out at the other.  The counters may wrap because `N` divides `2 ^ w`.
-/

namespace Ring

open Function

variable {α : Type} {w N : ℕ} {r u : BitVec w} {k : ℕ}

/-- The number of elements between the counters. -/
def size (r u : BitVec w) : ℕ := (u - r).toNat

theorem add_size : r + BitVec.ofNat w (size r u) = u := by
  rw [size, BitVec.ofNat_toNat, BitVec.setWidth_eq, BitVec.add_comm, BitVec.sub_add_cancel]

theorem size_add (hk : k < 2 ^ w) : size r (r + BitVec.ofNat w k) = k := by
  rw [size, BitVec.add_comm, BitVec.add_sub_cancel, BitVec.toNat_ofNat, Nat.mod_eq_of_lt hk]

theorem size_lt : size r u < 2 ^ w := BitVec.isLt _

theorem size_eq_zero : size r u = 0 ↔ r = u := by
  constructor
  · intro h
    have hadd := add_size (r := r) (u := u)
    rwa [h, BitVec.add_zero] at hadd
  · rintro rfl
    rw [size, BitVec.sub_self]
    rfl

theorem size_eq_full (hN : N < 2 ^ w) : size r u = N ↔ u = r + BitVec.ofNat w N := by
  constructor
  · intro h
    rw [← h, add_size]
  · rintro rfl
    exact size_add hN

theorem size_put (h : size r u + 1 < 2 ^ w) : size r (u + 1#w) = size r u + 1 := by
  have hadd : u + 1#w = r + BitVec.ofNat w (size r u + 1) := by
    rw [BitVec.ofNat_add, ← BitVec.add_assoc, add_size]
  rw [hadd, size_add h]

theorem size_get (h : r ≠ u) : size (r + 1#w) u + 1 = size r u := by
  obtain ⟨k, hk⟩ : ∃ k, size r u = k + 1 :=
    Nat.exists_eq_succ_of_ne_zero fun h0 => h (size_eq_zero.1 h0)
  have hadd : u = r + 1#w + BitVec.ofNat w k := by
    rw [← add_size (r := r) (u := u), hk, BitVec.add_assoc, ← BitVec.ofNat_add, Nat.add_comm]
  have hlt : k < 2 ^ w := by
    have := size_lt (r := r) (u := u)
    omega
  rw [hk, hadd, size_add hlt]

theorem size_pred (h : r ≠ u) : size r (u - 1#w) + 1 = size r u := by
  obtain ⟨k, hk⟩ : ∃ k, size r u = k + 1 :=
    Nat.exists_eq_succ_of_ne_zero fun h0 => h (size_eq_zero.1 h0)
  have hlt := size_lt (r := r) (u := u)
  have hpred : u - 1#w = r + BitVec.ofNat w k := by
    rw [← add_size (r := r) (u := u), hk, BitVec.ofNat_add, ← BitVec.add_assoc, BitVec.add_sub_cancel]
  rw [hpred, size_add (by omega), hk]

theorem size_trans {v : BitVec w} (h : size r u + size u v < 2 ^ w) :
    size r v = size r u + size u v := by
  have hv : v = r + BitVec.ofNat w (size r u + size u v) := by
    rw [BitVec.ofNat_add, ← BitVec.add_assoc, add_size, add_size]
  rw [hv, size_add h, ← hv]

variable [NeZero N] {data : Fin N → α} {b : α}

/-- The cell a counter points to. -/
def cell (n : BitVec w) : Fin N := Fin.ofNat N n.toNat

/-- The `k` elements from a counter on. -/
def window (data : Fin N → α) (r : BitVec w) (k : ℕ) : List α :=
  (List.range k).map fun j => data (cell (r + BitVec.ofNat w j))

@[simp] theorem window_length : (window data r k).length = k := by simp [window]

/-- Two counters less than `N` apart point to different cells. -/
theorem cell_ne (hdvd : N ∣ 2 ^ w) {i j : ℕ} (hij : i < j) (hj : j < N) :
    (cell (r + BitVec.ofNat w i) : Fin N) ≠ cell (r + BitVec.ofNat w j) := by
  intro h
  have hmod : ∀ i, (r + BitVec.ofNat w i).toNat % N = (r.toNat + i) % N := by
    intro i
    rw [BitVec.toNat_add, BitVec.toNat_ofNat, Nat.add_mod_mod, Nat.mod_mod_of_dvd _ hdvd]
  have heq : (r.toNat + i) % N = (r.toNat + j) % N := by
    rw [← hmod, ← hmod]
    exact congrArg Fin.val h
  have hcancel : i % N = j % N := Nat.ModEq.add_left_cancel' r.toNat heq
  rw [Nat.mod_eq_of_lt (hij.trans hj), Nat.mod_eq_of_lt hj] at hcancel
  exact hij.ne hcancel

theorem window_succ : window data r (k + 1) = window data r k ++
    [data (cell (r + BitVec.ofNat w k))] := by
  rw [window, List.range_succ, List.map_append, List.map_singleton]
  rfl

theorem window_append {m : ℕ} : window data r (k + m) =
    window data r k ++ window data (r + BitVec.ofNat w k) m := by
  induction m with
  | zero => simp [window]
  | succ m ih =>
    rw [← Nat.add_assoc, window_succ, window_succ, ih, List.append_assoc, BitVec.ofNat_add,
      BitVec.add_assoc]

theorem window_update (hdvd : N ∣ 2 ^ w) (hk : k ≤ size r u) (hN : size r u < N) :
    window (update data (cell u) b) r k = window data r k := by
  refine List.map_congr_left fun j hj => update_of_ne ?_ ..
  have hne := cell_ne (r := r) hdvd (lt_of_lt_of_le (List.mem_range.1 hj) hk) hN
  rwa [add_size] at hne

theorem window_put (hdvd : N ∣ 2 ^ w) (hk : size r u < N) :
    window (update data (cell u) b) r (size r u + 1) = window data r (size r u) ++ [b] := by
  rw [window_succ, add_size, update_self, window_update hdvd le_rfl hk]

theorem window_get : window data r (k + 1) = data (cell r) :: window data (r + 1#w) k := by
  rw [window, List.range_succ_eq_map, List.map_cons, List.map_map, BitVec.add_zero, window]
  refine congrArg _ (List.map_congr_left fun j _ => ?_)
  have hadd : r + BitVec.ofNat w (j + 1) = r + 1#w + BitVec.ofNat w j := by
    rw [BitVec.add_assoc, ← BitVec.ofNat_add, Nat.add_comm]
  exact congrArg (fun n => data (cell n)) hadd

end Ring

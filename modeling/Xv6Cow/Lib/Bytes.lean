import Mathlib

/-!
# Bytes, numbers and bits

A block of memory is a function from offsets to bytes.  `le` reads a little-endian number out of it,
`patch` copies bytes into it, and `bit`, `setBit` and `clearBit` treat it as a bitmap.
-/

namespace Bytes

open Function

/-- The little-endian number in the `n` bytes at `o`. -/
def le (f : ℕ → UInt8) (o : ℕ) : ℕ → ℕ
  | 0 => 0
  | n + 1 => (f o).toNat + 256 * le f (o + 1) n

/-- Byte `k` of the number `v`. -/
def leByte (v k : ℕ) : UInt8 := UInt8.ofNat (v / 256 ^ k)

/-- The `n` bytes of `g` copied to `f` at `o`. -/
def patch (f : ℕ → UInt8) (o n : ℕ) (g : ℕ → UInt8) : ℕ → UInt8 :=
  fun x => if o ≤ x ∧ x < o + n then g (x - o) else f x

variable {f g : ℕ → UInt8} {o p n m v x : ℕ}

theorem le_congr (h : ∀ k < n, f (o + k) = g (p + k)) : le f o n = le g p n := by
  induction n generalizing o p with
  | zero => rfl
  | succ n ih =>
    have h0 : f o = g p := h 0 (Nat.succ_pos n)
    have hrest : le f (o + 1) n = le g (p + 1) n := by
      refine ih fun k hk => ?_
      have := h (k + 1) (by omega)
      rwa [show o + (k + 1) = o + 1 + k by omega, show p + (k + 1) = p + 1 + k by omega] at this
    rw [le, le, h0, hrest]

theorem le_leByte (v n : ℕ) : le (leByte v) 0 n = v % 256 ^ n := by
  induction n generalizing v with
  | zero => rw [le, pow_zero, Nat.mod_one]
  | succ n ih =>
    have hrest : le (leByte v) 1 n = le (leByte (v / 256)) 0 n := by
      refine le_congr fun k _ => ?_
      rw [leByte, leByte, Nat.div_div_eq_div_mul, show 1 + k = k + 1 by omega, Nat.zero_add,
        pow_succ']
    have hbyte : (leByte v 0).toNat = v % 256 := by simp [leByte]
    rw [le, Nat.zero_add, hrest, ih, hbyte, pow_succ', Nat.mod_mul]

theorem le_leByte_of_lt (h : v < 256 ^ n) : le (leByte v) 0 n = v := by
  rw [le_leByte, Nat.mod_eq_of_lt h]

theorem patch_in (h1 : o ≤ x) (h2 : x < o + n) : patch f o n g x = g (x - o) := if_pos ⟨h1, h2⟩

theorem patch_out (h : x < o ∨ o + n ≤ x) : patch f o n g x = f x := if_neg (by omega)

theorem le_patch_in (h : p + m ≤ n) : le (patch f o n g) (o + p) m = le g p m := by
  refine le_congr fun k hk => ?_
  rw [patch_in (by omega) (by omega), show o + p + k - o = p + k by omega]

theorem le_patch_out (h : p + m ≤ o ∨ o + n ≤ p) : le (patch f o n g) p m = le f p m :=
  le_congr fun k hk => patch_out (by omega)

/-! ## Bits -/

/-- The mask of bit `k` of a byte. -/
def mask (k : Fin 8) : UInt8 := 1 <<< UInt8.ofNat k

/-- Bit `bi % 8` of byte `bi / 8`. -/
def bit (f : ℕ → UInt8) (bi : ℕ) : Bool := f (bi / 8) &&& mask (Fin.ofNat 8 bi) != 0

def setBit (bi : ℕ) (f : ℕ → UInt8) : ℕ → UInt8 :=
  update f (bi / 8) (f (bi / 8) ||| mask (Fin.ofNat 8 bi))

def clearBit (bi : ℕ) (f : ℕ → UInt8) : ℕ → UInt8 :=
  update f (bi / 8) (f (bi / 8) &&& ~~~ mask (Fin.ofNat 8 bi))

theorem and_mask (b : UInt8) (k : Fin 8) : (b &&& mask k != 0) = b.toBitVec.getLsbD k := by
  have hall : ∀ (b : BitVec 8) (k : Fin 8), (UInt8.ofBitVec b &&& mask k != 0) = b.getLsbD k := by
    decide +kernel
  exact hall b.toBitVec k

theorem getLsbD_mask (k l : Fin 8) : (mask k).toBitVec.getLsbD l = decide (k = l) := by
  revert k l
  decide

theorem bit_eq (f : ℕ → UInt8) (bi : ℕ) : bit f bi = (f (bi / 8)).toBitVec.getLsbD (bi % 8) :=
  and_mask (f (bi / 8)) (Fin.ofNat 8 bi)

theorem ofNat_eq_iff {bi bj : ℕ} (h : bj / 8 = bi / 8) :
    Fin.ofNat 8 bi = Fin.ofNat 8 bj ↔ bi = bj := by
  rw [Fin.ext_iff]
  simp only [Fin.val_ofNat]
  omega

theorem bit_update {bi bj : ℕ} {b : UInt8} (val : Bool) (hb : ∀ k : Fin 8, b.toBitVec.getLsbD k =
      if k = Fin.ofNat 8 bi then val else (f (bi / 8)).toBitVec.getLsbD k) :
    bit (update f (bi / 8) b) bj = if bj = bi then val else bit f bj := by
  rw [bit_eq, bit_eq]
  by_cases h : bj / 8 = bi / 8
  · have hk := hb (Fin.ofNat 8 bj)
    simp only [ofNat_eq_iff h.symm] at hk
    rw [h, update_self]
    exact hk
  · have hne : bj ≠ bi := by
      rintro rfl
      exact h rfl
    rw [update_of_ne h, if_neg hne]

theorem bit_setBit (f : ℕ → UInt8) (bi bj : ℕ) :
    bit (setBit bi f) bj = if bj = bi then true else bit f bj := by
  refine bit_update true fun k => ?_
  rw [UInt8.toBitVec_or, BitVec.getLsbD_or, getLsbD_mask]
  by_cases hk : k = Fin.ofNat 8 bi
  · simp [hk]
  · rw [if_neg hk, decide_eq_false (Ne.symm hk), Bool.or_false]

theorem bit_clearBit (f : ℕ → UInt8) (bi bj : ℕ) :
    bit (clearBit bi f) bj = if bj = bi then false else bit f bj := by
  refine bit_update false fun k => ?_
  rw [UInt8.toBitVec_and, UInt8.toBitVec_not, BitVec.getLsbD_and, BitVec.getLsbD_not, getLsbD_mask]
  by_cases hk : k = Fin.ofNat 8 bi
  · simp [hk]
  · rw [if_neg hk, decide_eq_false (Ne.symm hk)]
    simp

end Bytes

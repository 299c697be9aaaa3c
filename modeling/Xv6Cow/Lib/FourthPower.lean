import Mathlib

/-!
# Fourth powers modulo `16 ^ k`

Modulo `16 ^ k`, the fourth powers are 0 and the numbers whose last hexadecimal digit that is not 0 is
a 1.  An odd fourth power is 1 modulo 16; conversely, if `x ^ 4` is right modulo `2 ^ n`, then `x ^ 4` or
`(x + 2 ^ (n - 2)) ^ 4` is right modulo `2 ^ (n + 1)`.
-/

namespace FourthPower

/-- Is the last hexadecimal digit of `y` that is not 0 a 1, among the last `k`? -/
def EndsInOne (k y : ℕ) : Prop := y = 0 ∨ ∃ a < k, y % 16 ^ (a + 1) = 16 ^ a

instance (k y : ℕ) : Decidable (EndsInOne k y) := by
  unfold EndsInOne
  infer_instance

theorem odd_pow_four {x : ℕ} (hx : x % 2 = 1) : x ^ 4 % 16 = 1 := by
  have hcases : x % 16 < 16 := Nat.mod_lt _ (by decide)
  have hodd : x % 16 % 2 = 1 := by omega
  rw [Nat.pow_mod]
  interval_cases x % 16 <;> simp_all

theorem lift_step {x u n : ℕ} (hn : 4 ≤ n) (hx : x % 2 = 1) (h : x ^ 4 ≡ u [MOD 2 ^ n]) :
    ∃ y, y % 2 = 1 ∧ y ^ 4 ≡ u [MOD 2 ^ (n + 1)] := by
  obtain ⟨m, rfl⟩ : ∃ m, n = m + 4 := ⟨n - 4, by omega⟩
  obtain ⟨c, hc⟩ := (Nat.modEq_iff_dvd.1 h)
  push_cast at hc
  rcases Int.even_or_odd c with ⟨e, he⟩ | hodd
  · refine ⟨x, hx, Nat.modEq_iff_dvd.2 ⟨e, ?_⟩⟩
    push_cast
    rw [hc, he]
    ring
  -- the difference is an odd multiple of `2 ^ n`, and so is the change of the fourth power
  have hx3 : Odd ((x : ℤ) ^ 3) := by
    have hxodd : Odd (x : ℤ) := by exact_mod_cast Nat.odd_iff.2 hx
    exact hxodd.pow
  obtain ⟨e, he⟩ := hodd.sub_odd hx3
  refine ⟨x + 4 * 2 ^ m, by omega, Nat.modEq_iff_dvd.2
    ⟨e - (3 * x ^ 2 * 2 ^ m + 8 * x * 4 ^ m + 8 * 8 ^ m), ?_⟩⟩
  have h4 : (4 : ℤ) ^ m = 2 ^ m * 2 ^ m := by rw [← mul_pow]; norm_num
  have h8 : (8 : ℤ) ^ m = 2 ^ m * 2 ^ m * 2 ^ m := by rw [← mul_pow, ← mul_pow]; norm_num
  push_cast
  rw [h4, h8]
  have hu : (u : ℤ) = x ^ 4 + 2 ^ (m + 4) * (e + e + x ^ 3) := by
    rw [← he]
    linear_combination hc
  rw [hu]
  ring

theorem exists_odd {u : ℕ} (hu : u % 16 = 1) {n : ℕ} (hn : 4 ≤ n) :
    ∃ x, x % 2 = 1 ∧ x ^ 4 ≡ u [MOD 2 ^ n] := by
  induction n, hn using Nat.le_induction with
  | base => exact ⟨1, rfl, hu.symm⟩
  | succ n hn ih =>
    obtain ⟨x, hx, hxu⟩ := ih
    exact lift_step hn hx hxu

theorem two_pow_mul_pow_four (a m : ℕ) : (2 ^ a * m) ^ 4 = 16 ^ a * m ^ 4 := by
  rw [mul_pow, ← pow_mul, Nat.mul_comm a 4, pow_mul]
  norm_num

theorem exists_pow_four_iff {k y : ℕ} (hy : y < 16 ^ k) :
    (∃ x, x ^ 4 % 16 ^ k = y) ↔ EndsInOne k y := by
  constructor
  · rintro ⟨x, rfl⟩
    rcases Nat.eq_zero_or_pos x with rfl | hpos
    · exact .inl (by simp)
    obtain ⟨a, m, hm, rfl⟩ := Nat.exists_eq_two_pow_mul_odd hpos.ne'
    have hm4 := odd_pow_four (Nat.odd_iff.1 hm)
    rw [two_pow_mul_pow_four]
    rcases Nat.lt_or_ge a k with ha | ha
    · refine .inr ⟨a, ha, ?_⟩
      rw [Nat.mod_mod_of_dvd _ (pow_dvd_pow 16 ha), pow_succ 16 a, Nat.mul_mod_mul_left, hm4,
        Nat.mul_one]
    · refine .inl (Nat.mod_eq_zero_of_dvd ?_)
      exact (pow_dvd_pow 16 ha).mul_right _
  · rintro (rfl | ⟨a, ha, hya⟩)
    · exact ⟨0, by simp⟩
    obtain ⟨q, hq⟩ : ∃ q, y = 16 ^ a * (16 * q + 1) := by
      refine ⟨y / 16 ^ (a + 1), ?_⟩
      have hdiv := Nat.div_add_mod y (16 ^ (a + 1))
      rw [hya] at hdiv
      nth_rewrite 1 [← hdiv]
      rw [pow_succ]
      ring
    obtain ⟨m, -, hm⟩ := exists_odd (u := 16 * q + 1) (by omega) (n := 4 * (k - a)) (by omega)
    refine ⟨2 ^ a * m, ?_⟩
    have hsplit : 16 ^ k = 16 ^ a * 2 ^ (4 * (k - a)) := by
      rw [pow_mul, show (2 : ℕ) ^ 4 = 16 from rfl, ← Nat.pow_add, Nat.add_sub_cancel' ha.le]
    have hmod : 16 ^ a * m ^ 4 ≡ y [MOD 16 ^ k] := by
      rw [hsplit, hq]
      exact hm.mul_left' _
    rw [two_pow_mul_pow_four, hmod, Nat.mod_eq_of_lt hy]

end FourthPower

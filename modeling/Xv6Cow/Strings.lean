import Mathlib

/-!
# `memmove` (`string.c`)

Memory is a function from 32-bit addresses to bytes, and pointers wrap around.  Each loop of `memmove` reads
cells that it may have written before; it copies the bytes of the beginning if no write hits a later read.
-/

namespace Xv6.Strings

open Function

abbrev Addr := BitVec 32

abbrev Mem := Addr → UInt8

/-- `while(n-- > 0) *d++ = *s++`. -/
def copyUp : ℕ → Mem → Addr → Addr → Mem
  | 0, m, _, _ => m
  | n + 1, m, d, s => copyUp n (update m d (m s)) (d + 1) (s + 1)

/-- `while(n-- > 0) *--d = *--s`. -/
def copyDown : ℕ → Mem → Addr → Addr → Mem
  | 0, m, _, _ => m
  | n + 1, m, d, s => copyDown n (update m (d - 1) (m (s - 1))) (d - 1) (s - 1)

def memmove (m : Mem) (dst src n : BitVec 32) : Mem × Addr :=
  if src < dst ∧ src + n > dst then (copyDown n.toNat m (dst + n) (src + n), dst)
  else (copyUp n.toNat m dst src, dst)

section Loops

variable {n : ℕ} {m : Mem} {d s : Addr}

/-- Upwards the write at `d + i` comes before the read at `s + j` if `i < j`. -/
theorem copyUp_eq (h : ∀ k, 0 < k → k < n → d ≠ s + BitVec.ofNat 32 k) (hn : n ≤ 2 ^ 32) (a : Addr) :
    copyUp n m d s a = if (a - d).toNat < n then m (s + (a - d)) else m a := by
  induction n generalizing m d s with
  | zero => rw [copyUp, if_neg (Nat.not_lt_zero _)]
  | succ n ih =>
    have hshift : ∀ k, 0 < k → k < n → d + 1 ≠ s + 1 + BitVec.ofNat 32 k := fun k hk hlt heq =>
      h k hk (by omega) (by bv_omega)
    rw [copyUp, ih hshift (by omega)]
    by_cases had : a = d
    · subst had
      have hlast : ¬ (a - (a + 1)).toNat < n := by bv_omega
      rw [if_neg hlast, update_self, if_pos (by bv_omega)]
      congr 1
      bv_omega
    have hpred : (a - (d + 1)).toNat < n ↔ (a - d).toNat < n + 1 := by bv_omega
    have haddr : s + 1 + (a - (d + 1)) = s + (a - d) := by bv_omega
    rw [haddr, update_of_ne had]
    by_cases hin : (a - d).toNat < n + 1
    · have hne : s + (a - d) ≠ d := fun heq =>
        h (a - d).toNat (by bv_omega) hin (by rw [BitVec.ofNat_toNat, BitVec.setWidth_eq, heq])
      rw [if_pos (hpred.2 hin), if_pos hin, update_of_ne hne]
    · rw [if_neg (mt hpred.1 hin), if_neg hin]

/-- Downwards the write at `d + i` comes before the read at `s + j` if `j < i`. -/
theorem copyDown_eq (h : ∀ k, 0 < k → k < n → s ≠ d + BitVec.ofNat 32 k) (hn : n ≤ 2 ^ 32) (a : Addr) :
    copyDown n m (d + BitVec.ofNat 32 n) (s + BitVec.ofNat 32 n) a =
      if (a - d).toNat < n then m (s + (a - d)) else m a := by
  induction n generalizing m with
  | zero => rw [copyDown, if_neg (Nat.not_lt_zero _)]
  | succ n ih =>
    have hd : d + BitVec.ofNat 32 (n + 1) - 1 = d + BitVec.ofNat 32 n := by bv_omega
    have hs : s + BitVec.ofNat 32 (n + 1) - 1 = s + BitVec.ofNat 32 n := by bv_omega
    rw [copyDown, hd, hs, ih (fun k hk hlt => h k hk (by omega)) (by omega)]
    by_cases hin : (a - d).toNat < n
    · have hoff : BitVec.ofNat 32 (n - (a - d).toNat) = BitVec.ofNat 32 n - (a - d) := by
        generalize a - d = b at *
        bv_omega
      have hne : s + (a - d) ≠ d + BitVec.ofNat 32 n := fun heq =>
        h (n - (a - d).toNat) (by omega) (by omega)
          (by rw [hoff, ← add_sub_assoc, ← heq, add_sub_cancel_right])
      rw [if_pos hin, if_pos (by omega), update_of_ne hne]
    · rw [if_neg hin]
      by_cases had : a = d + BitVec.ofNat 32 n
      · subst had
        rw [update_self, if_pos (by bv_omega)]
        congr 1
        bv_omega
      · rw [update_of_ne had, if_neg (by bv_omega)]

end Loops

section Direction

variable {dst src n : BitVec 32} (hdst : dst.toNat + n.toNat ≤ 2 ^ 32)
    (hsrc : src.toNat + n.toNat ≤ 2 ^ 32)
include hdst hsrc

/-- `s + n > d` is a comparison of wrapped sums.  It is exact: if `s < d`, then `s + n` is below the end of `d`. -/
theorem goesDown_iff : (src < dst ∧ src + n > dst) ↔ src.toNat < dst.toNat ∧
    dst.toNat < src.toNat + n.toNat := by
  constructor <;> rintro ⟨hlt, hin⟩ <;> constructor <;> bv_omega

theorem memmove_eq (m : Mem) (a : Addr) :
    (memmove m dst src n).1 a = if (a - dst).toNat < n.toNat then m (src + (a - dst)) else m a := by
  have hdir := goesDown_iff hdst hsrc
  by_cases hdown : src < dst ∧ src + n > dst
  · have hfree : ∀ k, 0 < k → k < n.toNat → src ≠ dst + BitVec.ofNat 32 k := by
      intro k hk hlt heq
      bv_omega
    have hcopy := copyDown_eq (m := m) hfree n.isLt.le a
    rw [BitVec.ofNat_toNat, BitVec.setWidth_eq] at hcopy
    rw [memmove, if_pos hdown]
    exact hcopy
  · have hfree : ∀ k, 0 < k → k < n.toNat → dst ≠ src + BitVec.ofNat 32 k := by
      intro k hk hlt heq
      have hnat : dst.toNat = src.toNat + k := by bv_omega
      exact hdown (hdir.2 (by omega))
    rw [memmove, if_neg hdown]
    exact copyUp_eq hfree n.isLt.le a

end Direction

/-- Whatever the overlap, `memmove` moves the bytes that the source held before the call. -/
theorem memmove_moves (m : Mem) (dst src n : BitVec 32) (hdst : dst.toNat + n.toNat ≤ 2 ^ 32)
    (hsrc : src.toNat + n.toNat ≤ 2 ^ 32) :
    (∀ k < n.toNat, (memmove m dst src n).1 (dst + BitVec.ofNat 32 k) = m (src + BitVec.ofNat 32 k)) ∧
      ∀ a : Addr, a.toNat < dst.toNat ∨ dst.toNat + n.toNat ≤ a.toNat →
        (memmove m dst src n).1 a = m a := by
  constructor
  · intro k hk
    have hoff : dst + BitVec.ofNat 32 k - dst = BitVec.ofNat 32 k := by bv_omega
    rw [memmove_eq hdst hsrc, hoff, if_pos (by bv_omega)]
  · intro a hout
    rw [memmove_eq hdst hsrc, if_neg (by bv_omega)]

/-- Three bytes move up by one, over two bytes of their own source. -/
theorem memmove_moves_overlap :
    (∀ k < 3, (memmove (fun a => a.toNat.toUInt8) 11 10 3).1 (11 + BitVec.ofNat 32 k) =
        (10 + BitVec.ofNat 32 k : Addr).toNat.toUInt8) ∧
      ∀ a : Addr, a.toNat < 11 ∨ 11 + 3 ≤ a.toNat →
        (memmove (fun a => a.toNat.toUInt8) 11 10 3).1 a = a.toNat.toUInt8 :=
  memmove_moves (fun a => a.toNat.toUInt8) 11 10 3 (by decide) (by decide)

end Xv6.Strings

import Xv6Cow.Lib.FourthPower
import Xv6Cow.Proc.Select

/-!
# What the lottery amounts to

Over all numbers the shares are right, but `generate_random` adds a constant to the fourth power of
`ticks`, modulo `2 ^ 32`; the fourth powers are few, and with an unlucky number of tickets the same few
processes win for every value of `ticks`.
-/

namespace Xv6.Ptable.Procs

open Tickets FourthPower

variable {n : ℕ} {t : Procs n} {p : Fin n} {r : ℕ}

/-- `lotterySched` returns the holder of the random ticket. -/
theorem Fair.lotterySched (h : t.Fair) (hsome : ∃ p, t.ready qLottery p = true) (ticks : BitVec 32) :
    t.lotterySched ticks = some (winner (t.tickets (List.finRange n))
      ((12345678 + ticks * ticks * ticks * ticks).toNat % (t.ticketSum + 1))) := by
  have hr := Nat.lt_succ_iff.1 (Nat.mod_lt (12345678 + ticks * ticks * ticks * ticks).toNat
    (Nat.succ_pos t.ticketSum))
  rw [Procs.lotterySched, h.generateRandom, Option.map_some, (h.draw hsome hr).2]

/-- For a table whose lottery queue is not empty, has no negative tickets and not too many: the modulus
is the number of tickets and one more; for each number that `generate_random` may return the loop finds
a winner in the queue; and each process wins as often as it has tickets, the first one once more. -/
theorem lottery_shares (h : t.Fair) (hsome : ∃ p, t.ready qLottery p = true) :
    (∀ ticks, ∃ r ≤ t.ticketSum,
      Table.generateRandom ticks (BitVec.ofNat 32 (t.ticketSum + 1)) = some (BitVec.ofNat 32 r) ∧
      t.lotterySched ticks = some (t.drawn (BitVec.ofNat 32 r))) ∧
    (∀ r ≤ t.ticketSum, (t.draw (BitVec.ofNat 32 r)).isLotterySelected = 2 ∧
      ∃ p, t.drawn (BitVec.ofNat 32 r) = some p ∧ t.ready qLottery p = true) ∧
    ∀ p, t.ready qLottery p = true →
      ((Finset.range (t.ticketSum + 1)).filter fun r => t.drawn (BitVec.ofNat 32 r) = some p).card =
        if t.first p then (t p).lotteryTicket.toNat + 1 else (t p).lotteryTicket.toNat := by
  refine ⟨fun ticks => ?_, fun r hr => ?_, fun p hp => ?_⟩
  · have hrandom := h.generateRandom ticks
    refine ⟨(12345678 + ticks * ticks * ticks * ticks).toNat % (t.ticketSum + 1),
      Nat.lt_succ_iff.1 (Nat.mod_lt _ (Nat.succ_pos _)), ?_, ?_⟩
    · rw [← sumLotteries_eq]
      exact hrandom
    · rw [Procs.lotterySched, hrandom]
      rfl
  · obtain ⟨hselected, hdrawn⟩ := h.draw hsome hr
    obtain ⟨p, hp⟩ := exists_winner (tickets_ne_nil hsome) hr
    refine ⟨hselected, p, hdrawn.trans hp, ?_⟩
    have hmem := winner_mem hp
    rw [fst_tickets] at hmem
    exact (List.mem_filter.1 hmem).2
  · obtain ⟨l, hl⟩ := tickets_split hp
    have hnodup := t.tickets_nodup
    have hset : ((Finset.range (t.ticketSum + 1)).filter fun r =>
        t.drawn (BitVec.ofNat 32 r) = some p) = (Finset.range (t.ticketSum + 1)).filter fun r =>
          winner (t.tickets (List.finRange n)) r = some p := by
      refine Finset.filter_congr fun r hr => ?_
      rw [(h.draw hsome (Nat.lt_succ_iff.1 (Finset.mem_range.1 hr))).2]
    rw [hset, ticketSum]
    rw [hl] at hnodup ⊢
    rw [card_winner hnodup]
    simp only [first_iff]

/-- Three runnable processes in the lottery queue. -/
def three (a b c : BitVec 32) : Procs 3 :=
  ![⟨.runnable, 1, none, none, false, none, none, a, qLottery, 0, 0⟩,
    ⟨.runnable, 2, none, none, false, none, none, b, qLottery, 0, 0⟩,
    ⟨.runnable, 3, none, none, false, none, none, c, qLottery, 0, 0⟩]

theorem three_fair : (three 1 13 1).Fair where
  nonneg p _ := by
    fin_cases p <;> decide
  sum := by decide

theorem lottery_shares_three :
    ((Finset.range 16).filter fun r => (three 1 13 1).drawn (BitVec.ofNat 32 r) = some 0).card = 2 ∧
    ((Finset.range 16).filter fun r => (three 1 13 1).drawn (BitVec.ofNat 32 r) = some 1).card =
      13 := by
  have hshares := (lottery_shares three_fair ⟨0, by decide⟩).2.2
  exact ⟨hshares 0 (by decide), hshares 1 (by decide)⟩

/-! ## Which tickets are ever drawn -/

theorem toNat_pow_four (x : BitVec 32) : (x * x * x * x).toNat = x.toNat ^ 4 % 16 ^ 8 := by
  rw [BitVec.toNat_mul, BitVec.toNat_mul, BitVec.toNat_mul, Nat.mod_mul_mod, Nat.mul_assoc,
    Nat.mod_mul_mod, show (16 : ℕ) ^ 8 = 2 ^ 32 from rfl]
  congr 1
  ring

theorem exists_ticks_iff {y : BitVec 32} :
    (∃ ticks : BitVec 32, ticks * ticks * ticks * ticks = y) ↔ EndsInOne 8 y.toNat := by
  rw [← exists_pow_four_iff y.isLt]
  constructor
  · rintro ⟨ticks, rfl⟩
    exact ⟨ticks.toNat, (toNat_pow_four ticks).symm⟩
  rintro ⟨x, hx⟩
  refine ⟨BitVec.ofNat 32 x, BitVec.eq_of_toNat_eq ?_⟩
  rw [toNat_pow_four, BitVec.toNat_ofNat, ← hx]
  exact (Nat.pow_mod x 4 (16 ^ 8)).symm

/-- A process is not locked out exactly if a number whose last hexadecimal digit that is not 0 is a 1, or
0, leads to one of its tickets. -/
theorem not_locked_out_iff (h : t.Fair) (hp : t.ready qLottery p = true) :
    (∃ ticks, t.lotterySched ticks = some (some p)) ↔
      ∃ y : BitVec 32, EndsInOne 8 y.toNat ∧ t.Share p ((12345678 + y).toNat % (t.ticketSum + 1)) := by
  simp only [h.lotterySched ⟨p, hp⟩, Option.some.injEq, winner_share hp]
  constructor
  · rintro ⟨ticks, hshare⟩
    exact ⟨_, exists_ticks_iff.1 ⟨ticks, rfl⟩, hshare⟩
  · rintro ⟨y, hy, hshare⟩
    obtain ⟨ticks, rfl⟩ := exists_ticks_iff.2 hy
    exact ⟨ticks, hshare⟩

/-- The process with 13 of 15 tickets. -/
theorem not_locked_out_three : ∃ ticks, (three 1 13 1).lotterySched ticks = some (some 1) :=
  (not_locked_out_iff three_fair (by decide)).2 ⟨0, by decide, by decide⟩

/-- With 15 tickets, the random ticket is 14 or 15, and the first process never wins. -/
theorem locked_out : (three 1 13 1).ready qLottery 0 = true ∧
    1 ≤ ((three 1 13 1) 0).lotteryTicket.toInt ∧
    ∀ ticks, (three 1 13 1).lotterySched ticks ≠ some (some 0) := by
  refine ⟨by decide, by decide, fun ticks => ?_⟩
  have hready : (three 1 13 1).ready qLottery 0 = true := by decide
  rw [three_fair.lotterySched ⟨0, hready⟩]
  intro hwin
  have hshare : ((12345678 + ticks * ticks * ticks * ticks).toNat % 16) ≤ 1 :=
    ((winner_share hready).1 (Option.some.inj hwin)).2
  have hpow : ∀ m < 16, m ^ 4 % 16 = 0 ∨ m ^ 4 % 16 = 1 := by decide
  have hticks := hpow _ (Nat.mod_lt ticks.toNat (by decide))
  rw [← Nat.pow_mod] at hticks
  rw [BitVec.toNat_add, toNat_pow_four, show (12345678 : BitVec 32).toNat = 12345678 from rfl] at hshare
  omega

end Xv6.Ptable.Procs

import Xv6Cow.Proc.Pass

/-!
# When `scheduler` traps

`generate_random` divides by one more than the tickets of the lottery queue, added up in 32 bits.
`set_lottery_ticket` stores any number, and `64` processes with fewer than `2 ^ 26` tickets each cannot
reach `2 ^ 32 - 1` together.
-/

namespace Xv6.Ptable

open Lts

namespace Table

variable {t : Table} {ps : List Slot} {b : ℕ}

theorem total_le (h : ∀ p, (t p).lotteryTicket.toNat ≤ b) :
    Tickets.total (Procs.tickets t ps) ≤ ps.length * b := by
  induction ps with
  | nil => exact Nat.zero_le _
  | cons p ps ih =>
    rw [List.length_cons, Nat.succ_mul]
    by_cases hready : Procs.ready t qLottery p = true
    · rw [Procs.tickets_cons_ready hready, Tickets.total_cons, Nat.add_comm]
      exact Nat.add_le_add ih (h p)
    · rw [Procs.tickets_cons_other hready]
      exact ih.trans (Nat.le_add_right _ _)

theorem sumLotteries_ne_zero (h : ∀ p, (t p).lotteryTicket.toNat < 2 ^ 26) :
    t.sumLotteries slots ≠ 0 := by
  have htotal : Tickets.total (Procs.tickets t slots) ≤ 64 * (2 ^ 26 - 1) := by
    have hle : Tickets.total (Procs.tickets t slots) ≤ slots.length * (2 ^ 26 - 1) :=
      total_le fun p => Nat.le_sub_one_of_lt (h p)
    rwa [List.length_finRange] at hle
  rw [sumLotteries_eq_tickets]
  intro hzero
  have hmod : (Tickets.total (Procs.tickets t slots) + 1) % 2 ^ 32 = 0 := by
    simpa using congrArg BitVec.toNat hzero
  omega

end Table

variable {C : Type} [DecidableEq C] {s : Sys C} {ls : List (C × Op)}

/-- The call of `set_lottery_ticket`, if it is one, gives fewer than `2 ^ 26` tickets. -/
def TicketOk (_ : Sys C) (l : C × Op) : Prop :=
  ∀ x pid, l.2 = .setLotteryTicket x pid → x.toNat < 2 ^ 26

theorem run_tickets (run : Run (given Step TicketOk) (boot C) ls s) (q : Slot) :
    (s.table q).lotteryTicket.toNat < 2 ^ 26 := by
  refine run.invariant (I := fun s => ∀ q, (s.table q).lotteryTicket.toNat < 2 ^ 26) ?_ ?_ q
  · intro q
    show ((if q = initproc then _ else _ : Proc)).lotteryTicket.toNat < _
    split_ifs
    · show (50 : BitVec 32).toNat < _
      decide
    · show (0 : BitVec 32).toNat < _
      decide
  · rintro s l s' hs ⟨hok, hstep⟩ q
    rcases (hstep.params q).1 with h | h | h | ⟨pid, hl⟩
    · rw [h]
      exact hs q
    · rw [h]
      decide
    · rw [h]
      decide
    · exact hok _ pid hl

/-- As long as nobody is given `2 ^ 26` tickets or more, `lotterySched` divides by a number other than
zero, whatever the time is, and no pass of `scheduler` traps. -/
theorem lottery_never_traps (run : Run (given Step TicketOk) (boot C) ls s) :
    s.table.sumLotteries slots ≠ 0 ∧ ∀ ticks,
      Table.generateRandom ticks (s.table.sumLotteries slots) ≠ none ∧ s.table.select ticks ≠ none := by
  have hsum := Table.sumLotteries_ne_zero (run_tickets run)
  refine ⟨hsum, fun ticks => ⟨?_, ?_⟩⟩
  · rw [Table.generateRandom, if_neg hsum]
    rintro ⟨⟩
  · intro htrap
    exact hsum (Table.select_trap.1 htrap)

/-- The first process calls `set_lottery_ticket(x, 1)`, and yields. -/
def ticketed (x : BitVec 32) : Sys Unit :=
  let s := firstRuns.setTable (firstRuns.table.findAndSetLotteryTicket x 1)
  ((s.setTable (s.table.setState initproc .runnable)).sched () initproc .yielded).settle ()

theorem ticketed_run (x : BitVec 32) :
    Run Step (boot Unit) ([((), .dispatch 0), ((), .resume)] ++ [((), .setLotteryTicket x 1),
      ((), .yield), ((), .settle)]) (ticketed x) := by
  apply firstRuns_run.append
  apply Run.cons (.setLotteryTicket (p := initproc) ⟨rfl, rfl, rfl⟩)
  apply Run.cons (.yield (p := initproc) (k := .user) ⟨rfl, rfl, rfl⟩ rfl)
  exact .one (.settle rfl rfl)

theorem lottery_never_traps_thousand :
    ((ticketed 1000).table initproc).lotteryTicket = 1000 ∧
      (ticketed 1000).table.sumLotteries slots ≠ 0 := by
  refine ⟨by decide +kernel, (lottery_never_traps ((ticketed_run 1000).given_labels ?_)).1⟩
  intro l hl s x pid hx
  simp only [List.cons_append, List.nil_append, List.mem_cons, List.not_mem_nil, or_false] at hl
  rcases hl with rfl | rfl | rfl | rfl | rfl
  all_goals simp only [reduceCtorEq] at hx
  obtain ⟨rfl, -⟩ := by simpa using hx
  decide

/-- With `-1` tickets for the only runnable process the sum wraps to zero, and the next pass of
`scheduler` traps at any time. -/
theorem lottery_traps :
    Run Step (boot Unit) ([((), .dispatch 0), ((), .resume)] ++ [((), .setLotteryTicket (-1) 1),
      ((), .yield), ((), .settle)]) (ticketed (-1)) ∧
    (ticketed (-1)).lock = none ∧ (ticketed (-1)).table.sumLotteries slots = 0 ∧
      ∀ ticks, (ticketed (-1)).table.select ticks = none := by
  have hsum : (ticketed (-1)).table.sumLotteries slots = 0 := by decide +kernel
  exact ⟨ticketed_run (-1), rfl, hsum, fun ticks => Table.select_trap.2 hsum⟩

end Xv6.Ptable

import Xv6Cow.Proc.System

/-!
# What the scheduler selects

Each of the three selectors looks at the runnable processes of one queue, and selects one if there is
one.  A pass of `scheduler` traps when the tickets add up to zero; otherwise it selects a process
unless every runnable process is in a queue that no selector looks at.
-/

namespace Xv6.Ptable

open Lts

namespace Table

variable {t : Table} {p : Slot} {ps : List Slot} {best : Option Slot} {queue : BitVec 32}

theorem ready_iff : t.ready queue p = true ↔ (t p).state = .runnable ∧ (t p).schedQueue = queue := by
  simp [ready]

/-! ## The loops -/

theorem draw_mem {random : BitVec 32} {drawn : Bool} (h : t.draw ps random best drawn = some p) :
    best = some p ∨ t.ready qLottery p = true := by
  induction ps generalizing random best drawn with
  | nil => exact .inl h
  | cons r ps ih =>
    simp only [draw] at h
    split_ifs at h with hr
    · rcases ih h with hp | hp
      · obtain rfl : r = p := by simpa using hp
        exact .inr hr
      · exact .inr hp
    · rcases ih h with hp | hp
      · rcases Option.or_eq_some_iff.1 hp with hp | ⟨-, hp⟩
        · exact .inl hp
        · obtain rfl : r = p := by simpa using hp
          exact .inr hr
      · exact .inr hp
    · exact ih h

theorem draw_none {random : BitVec 32} {drawn : Bool} (h : t.draw ps random best drawn = none) :
    best = none ∧ ∀ p ∈ ps, t.ready qLottery p = false := by
  induction ps generalizing random best drawn with
  | nil => exact ⟨h, nofun⟩
  | cons r ps ih =>
    simp only [draw] at h
    split_ifs at h with hr
    · exact absurd (ih h).1 nofun
    · exact absurd (ih h).1 (by simp)
    · obtain ⟨hb, hps⟩ := ih h
      refine ⟨hb, fun p hp => ?_⟩
      rcases List.mem_cons.1 hp with rfl | hp
      · simpa using hr
      · exact hps p hp

variable {key : Proc → BitVec 32}

theorem least_mem (h : t.least queue key ps best = some p) :
    best = some p ∨ t.ready queue p = true := by
  induction ps generalizing best with
  | nil => exact .inl h
  | cons r ps ih =>
    rcases best with _ | b
    · simp only [least] at h
      split_ifs at h with hr
      · rcases ih h with hp | hp
        · obtain rfl : r = p := by simpa using hp
          exact .inr hr
        · exact .inr hp
      · exact ih h
    simp only [least] at h
    split_ifs at h with hr hlt
    · rcases ih h with hp | hp
      · obtain rfl : r = p := by simpa using hp
        exact .inr hr
      · exact .inr hp
    · exact ih h
    · exact ih h

theorem least_none (h : t.least queue key ps best = none) :
    best = none ∧ ∀ p ∈ ps, t.ready queue p = false := by
  induction ps generalizing best with
  | nil => exact ⟨h, nofun⟩
  | cons r ps ih =>
    cases best with
    | none =>
      simp only [least] at h
      split_ifs at h with hr
      · exact absurd (ih h).1 nofun
      obtain ⟨hb, hps⟩ := ih h
      refine ⟨hb, fun p hp => ?_⟩
      rcases List.mem_cons.1 hp with rfl | hp
      · simpa using hr
      · exact hps p hp
    | some b =>
      simp only [least] at h
      split_ifs at h
      all_goals exact absurd (ih h).1 nofun

/-! ## A pass -/

/-- The numbers of the queues that a selector looks at. -/
def inspected (queue : BitVec 32) : Prop := queue = qLottery ∨ queue = qSjf ∨ queue = qPriority

variable {ticks : BitVec 32}

theorem select_ready (h : t.select ticks = some (some p)) :
    (t p).state = .runnable ∧ inspected (t p).schedQueue := by
  obtain ⟨r, hr, hp⟩ := Option.map_eq_some_iff.1 h
  obtain ⟨random, -, rfl⟩ := Option.map_eq_some_iff.1 hr
  rcases Option.or_eq_some_iff.1 hp with hp | ⟨-, hp⟩
  · have := ready_iff.1 ((draw_mem hp).resolve_left nofun)
    exact ⟨this.1, .inl this.2⟩
  rcases Option.or_eq_some_iff.1 hp with hp | ⟨-, hp⟩
  · have := ready_iff.1 ((least_mem hp).resolve_left nofun)
    exact ⟨this.1, .inr (.inl this.2)⟩
  · have := ready_iff.1 ((least_mem hp).resolve_left nofun)
    exact ⟨this.1, .inr (.inr this.2)⟩

theorem select_trap : t.select ticks = none ↔ t.sumLotteries slots = 0 := by
  simp only [select, lotterySched, generateRandom, Option.map_eq_none_iff]
  split_ifs with h
  · exact iff_of_true rfl h
  · exact iff_of_false nofun h

/-- A pass selects nothing only if no queue has a runnable process. -/
theorem select_none (h : t.select ticks = some none)
    (hp : (t p).state = .runnable) : ¬ inspected (t p).schedQueue := by
  obtain ⟨r, hr, hnone⟩ := Option.map_eq_some_iff.1 h
  obtain ⟨random, -, rfl⟩ := Option.map_eq_some_iff.1 hr
  obtain ⟨hlottery, hrest⟩ := Option.or_eq_none_iff.1 hnone
  obtain ⟨hsjf, hpriority⟩ := Option.or_eq_none_iff.1 hrest
  have hmem : p ∈ slots := List.mem_finRange p
  have hno : ∀ {queue}, t.ready queue p = false → (t p).schedQueue ≠ queue := by
    intro queue hready heq
    rw [ready_iff.2 ⟨hp, heq⟩] at hready
    cases hready
  rintro (hq | hq | hq)
  · exact hno ((draw_none hlottery).2 p hmem) hq
  · exact hno ((least_none hsjf).2 p hmem) hq
  · exact hno ((least_none hpriority).2 p hmem) hq

/-- With enough tickets, a pass selects a process if a queue has one. -/
theorem select_some (hsum : t.sumLotteries slots ≠ 0)
    (hp : (t p).state = .runnable) (hq : inspected (t p).schedQueue) :
    ∃ r, t.select ticks = some (some r) ∧ (t r).state = .runnable := by
  rcases h : t.select ticks with _ | r
  · exact absurd (select_trap.1 h) hsum
  cases r with
  | none => exact absurd hq (select_none h hp)
  | some r => exact ⟨r, rfl, (select_ready h).1⟩

/-! ## Who writes tickets and queues -/

variable (t) (x : BitVec 32) (pid : ℤ) (q : Slot)

theorem findAndSetSchedQueue_ticket :
    (t.findAndSetSchedQueue x pid q).lotteryTicket = (t q).lotteryTicket :=
  findAndSet_same (f := fun p => { p with schedQueue := x }) (fun _ => rfl) t pid q

theorem findAndSetSchedQueue_queue : (t.findAndSetSchedQueue x pid q).schedQueue = (t q).schedQueue ∨
    (t.findAndSetSchedQueue x pid q).schedQueue = x :=
  findAndSet_field (f := fun p => { p with schedQueue := x }) (fun _ => rfl) t pid q

theorem findAndSetLotteryTicket_queue :
    (t.findAndSetLotteryTicket x pid q).schedQueue = (t q).schedQueue :=
  findAndSet_same (f := fun p => { p with lotteryTicket := x }) (fun _ => rfl) t pid q

theorem findAndSetLotteryTicket_ticket :
    (t.findAndSetLotteryTicket x pid q).lotteryTicket = (t q).lotteryTicket ∨
      (t.findAndSetLotteryTicket x pid q).lotteryTicket = x :=
  findAndSet_field (f := fun p => { p with lotteryTicket := x }) (fun _ => rfl) t pid q

theorem findAndSetBurstTime_ticket :
    (t.findAndSetBurstTime x pid q).lotteryTicket = (t q).lotteryTicket :=
  findAndSet_same (f := fun p => { p with burstTime := x }) (fun _ => rfl) t pid q

theorem findAndSetBurstTime_queue : (t.findAndSetBurstTime x pid q).schedQueue = (t q).schedQueue :=
  findAndSet_same (f := fun p => { p with burstTime := x }) (fun _ => rfl) t pid q

end Table

variable {C : Type} [DecidableEq C] {s s' : Sys C} {l : C × Op}

/-- The lottery tickets of a process, before and after the step. -/
def TicketFrom (l : C × Op) (old new : BitVec 32) : Prop :=
  new = old ∨ new = 50 ∨ new = 500 ∨ ∃ pid, l.2 = .setLotteryTicket new pid

/-- The queue of a process, before and after the step. -/
def QueueFrom (l : C × Op) (old new : BitVec 32) : Prop :=
  new = old ∨ new = qLottery ∨ ∃ pid, l.2 = .setSchedQueue new pid

/-- Beside the two system calls, only `allocproc` and `exec` write tickets and queue of a process. -/
theorem Step.params (h : Step s l s') (q : Slot) :
    TicketFrom l (s.table q).lotteryTicket (s'.table q).lotteryTicket ∧
      QueueFrom l (s.table q).schedQueue (s'.table q).schedQueue := by
  let π (x : Proc) := (x.lotteryTicket, x.schedQueue)
  have hsame : π (s'.table q) = π (s.table q) →
      TicketFrom l (s.table q).lotteryTicket (s'.table q).lotteryTicket ∧
        QueueFrom l (s.table q).schedQueue (s'.table q).schedQueue :=
    fun hq => ⟨.inl (congrArg Prod.fst hq), .inl (congrArg Prod.snd hq)⟩
  cases h with
  | @allocStack c p np f =>
    show TicketFrom _ _ (s.table.set np _ q).lotteryTicket ∧
      QueueFrom _ _ (s.table.set np _ q).schedQueue
    rw [Table.set_apply]
    split_ifs
    · exact ⟨.inr (.inl rfl), .inr (.inl rfl)⟩
    · exact ⟨.inl rfl, .inl rfl⟩
  | @exec c p =>
    have hticket : ((s.execStart p).table q).lotteryTicket =
        ((s.table.findAndSetSchedQueue qLottery (s.table p).pid).findAndSetLotteryTicket 500
          (s.table p).pid q).lotteryTicket := Table.findAndSetBurstTime_ticket ..
    have hqueue : ((s.execStart p).table q).schedQueue =
        (s.table.findAndSetSchedQueue qLottery (s.table p).pid q).schedQueue :=
      (Table.findAndSetBurstTime_queue ..).trans (Table.findAndSetLotteryTicket_queue ..)
    constructor
    · rw [hticket]
      rcases Table.findAndSetLotteryTicket_ticket
        (s.table.findAndSetSchedQueue qLottery (s.table p).pid) 500 (s.table p).pid q with h | h
      · exact .inl (h.trans (Table.findAndSetSchedQueue_ticket ..))
      · exact .inr (.inr (.inl h))
    · rw [hqueue]
      exact (Table.findAndSetSchedQueue_queue ..).imp_right .inl
  | @setSchedQueue c p x pid =>
    refine ⟨.inl (Table.findAndSetSchedQueue_ticket s.table x pid q), ?_⟩
    refine (Table.findAndSetSchedQueue_queue s.table x pid q).imp_right fun h => .inr ⟨pid, ?_⟩
    exact congrArg (Op.setSchedQueue · pid) h.symm
  | @setLotteryTicket c p x pid =>
    refine ⟨?_, .inl (Table.findAndSetLotteryTicket_queue s.table x pid q)⟩
    refine (Table.findAndSetLotteryTicket_ticket s.table x pid q).imp_right fun h =>
      .inr (.inr ⟨pid, ?_⟩)
    exact congrArg (Op.setLotteryTicket · pid) h.symm
  | @setPriority c p x pid =>
    exact hsame (Table.findAndSet_same (π := π) (f := fun y => { y with priority := x })
      (fun _ => rfl) s.table pid q)
  | @setBurstTime c p x pid =>
    exact ⟨.inl (Table.findAndSetBurstTime_ticket s.table x pid q),
      .inl (Table.findAndSetBurstTime_queue s.table x pid q)⟩
  | wakeup => exact hsame (Table.wakeup1_same (π := π) (fun _ _ => rfl) s.table _ q)
  | exit => exact hsame (Table.exit_same (π := π) (fun _ _ => rfl) (fun _ _ => rfl) s.table _ q)
  | kill => exact hsame (Table.kill_same (π := π) (fun _ => rfl) s.table _ q)
  | _ =>
    apply hsame
    first
      | rfl
      | apply Table.set_same (π := π)
        rfl

/-- The call of `set_sched_queue`, if it is one, names one of the three queues. -/
def QueueOk (_ : Sys C) (l : C × Op) : Prop :=
  ∀ x pid, l.2 = .setSchedQueue x pid → Table.inspected x

theorem run_inspected {ls : List (C × Op)} (run : Run (given Step QueueOk) (boot C) ls s)
    (q : Slot) : Table.inspected (s.table q).schedQueue := by
  refine run.invariant (I := fun s => ∀ q, Table.inspected (s.table q).schedQueue) ?_ ?_ q
  · intro q
    by_cases hq : q = initproc
    · exact .inl (by simp [boot, hq])
    · exact .inr (.inr (by simp [boot, hq, qPriority]))
  rintro s l s' hs ⟨hok, hstep⟩ q
  rcases (hstep.params q).2 with h | h | ⟨pid, hl⟩
  · rw [h]
    exact hs q
  · exact .inl h
  · exact hok _ pid hl

/-- While only the three queues are used, and the tickets do not add up to zero, `scheduler` finds a
runnable process if there is one. -/
theorem work_conserving {ls : List (C × Op)} (run : Run (given Step QueueOk) (boot C) ls s)
    (hsum : s.table.sumLotteries slots ≠ 0) :
    (∀ ticks p, (s.table p).state = .runnable →
      ∃ r, s.table.select ticks = some (some r) ∧ (s.table r).state = .runnable) ∧
    ∀ p, (s.table p).state = .runnable → Table.inspected (s.table p).schedQueue :=
  ⟨fun _ p hp => Table.select_some hsum hp (run_inspected run p), fun p _ => run_inspected run p⟩

/-- The first process runs on the only CPU. -/
def firstRuns : Sys Unit := ((boot Unit).dispatch () initproc 0 1).resume initproc

theorem firstRuns_run : Run Step (boot Unit) [((), .dispatch 0), ((), .resume)] firstRuns :=
  .cons (.dispatch rfl rfl (by decide +kernel) rfl rfl) (.one (.resume ⟨rfl, rfl, rfl, rfl⟩))

/-- It calls `set_sched_queue(x, 1)`, and yields. -/
def queued (x : BitVec 32) : Sys Unit :=
  let s := firstRuns.setTable (firstRuns.table.findAndSetSchedQueue x 1)
  ((s.setTable (s.table.setState initproc .runnable)).sched () initproc .yielded).settle ()

theorem queued_run (x : BitVec 32) :
    Run Step (boot Unit) ([((), .dispatch 0), ((), .resume)] ++ [((), .setSchedQueue x 1),
      ((), .yield), ((), .settle)]) (queued x) :=
  firstRuns_run.append (.cons (.setSchedQueue (p := initproc) ⟨rfl, rfl, rfl⟩)
    (.cons (.yield (p := initproc) (k := .user) ⟨rfl, rfl, rfl⟩ rfl) (.one (.settle rfl rfl))))

/-- With the number of the queue `SJF` of `defs.h`. -/
theorem work_conserving_sjf :
    (queued qSjf).table.sumLotteries slots ≠ 0 ∧
      ∃ r, (queued qSjf).table.select 0 = some (some r) ∧
        ((queued qSjf).table r).state = .runnable := by
  have hsum : (queued qSjf).table.sumLotteries slots ≠ 0 := by decide +kernel
  refine ⟨hsum, (work_conserving ((queued_run qSjf).given_labels ?_) hsum).1 0 initproc
    (by decide +kernel)⟩
  intro l hl s x pid hx
  simp only [List.cons_append, List.nil_append, List.mem_cons, List.not_mem_nil, or_false] at hl
  rcases hl with rfl | rfl | rfl | rfl | rfl
  all_goals simp only [reduceCtorEq] at hx
  obtain ⟨rfl, -⟩ := by simpa using hx
  exact .inr (.inl rfl)

/-- With the number 3, which is that of the queue `LOTTERY` in `user.h`, the process is runnable
afterwards, but in no queue that is looked at. -/
theorem runnable_not_selected :
    Run Step (boot Unit) ([((), .dispatch 0), ((), .resume)] ++ [((), .setSchedQueue 3 1),
      ((), .yield), ((), .settle)]) (queued 3) ∧
    ((queued 3).table initproc).state = .runnable ∧ (queued 3).table.select 0 = some none :=
  ⟨queued_run 3, by decide +kernel, by decide +kernel⟩

end Xv6.Ptable

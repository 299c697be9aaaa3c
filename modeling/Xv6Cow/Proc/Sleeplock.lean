import Xv6Cow.Lib.Run

/-!
# Sleep-locks (`sleeplock.c`, `sleep` and `wakeup` of `proc.c`)

One sleep-lock and any number of processes.  `sleep` takes `ptable.lock` before it gives up `lk->lk`;
`wakeup` runs under `ptable.lock`.  Taking and giving up each of the two locks are steps of their own,
so other processes get in at every point in between.
-/

namespace Xv6.Sleeplock

open Function Lts

/-- Where a process is; `rel` is `false` in `acquiresleep` and `true` in `releasesleep`. -/
inductive Pc
  | out
  | enters (rel : Bool)
  /-- It has `lk->lk`. -/
  | has (rel : Bool)
  /-- `sleep` takes `ptable.lock` next. -/
  | sleeps
  /-- It has both locks, and gives up `lk->lk` next. -/
  | lets
  /-- It has `ptable.lock` only, and is not asleep yet. -/
  | parks
  | asleep
  | woken
  /-- It has been scheduled, and gives up `ptable.lock` next. -/
  | back
  /-- `wakeup` takes `ptable.lock` next. -/
  | wakes
  | scans
  | leaves

structure Sys (P : Type) where
  /-- Who has `lk->lk`. -/
  guard : Option P
  /-- Who has `ptable.lock`. -/
  table : Option P
  locked : Bool
  /-- `lk->pid`; `none` is 0. -/
  pid : Option P
  /-- Processes whose `acquiresleep` has set `locked` and that have not cleared it since. -/
  inside : P → Bool
  pc : P → Pc

inductive Op
  | acquiresleep
  | releasesleep
  | run
  /-- `kill` wakes the process. -/
  | kill
  deriving DecidableEq

def Pc.wake : Pc → Pc
  | .asleep => .woken
  | x => x

/-- The process has `lk->lk`. -/
@[grind] def Pc.guarded : Pc → Bool
  | .has _ | .sleeps | .lets | .wakes | .scans | .leaves => true
  | _ => false

/-- The process has `ptable.lock`. -/
@[grind] def Pc.tabled : Pc → Bool
  | .lets | .parks | .back | .scans => true
  | _ => false

/-- The process found the sleep-lock held, and has not been woken. -/
@[grind] def Pc.sleeper (x : Pc) : Prop := x = .sleeps ∨ x = .lets ∨ x = .parks ∨ x = .asleep

variable {P : Type} [DecidableEq P]

namespace Sys

variable (s : Sys P) (p : P)

def goto (x : Pc) : Sys P := { s with pc := update s.pc p x }

def holdingsleep : Bool := s.locked && s.pid == some p

/-- What the process does next; `none` while it waits for a lock or sleeps. -/
def run : Option (Sys P) :=
  match s.pc p with
  | .enters rel => if s.guard = none then some ({ s with guard := some p }.goto p (.has rel)) else none
  | .has false =>
    if s.locked then some (s.goto p .sleeps)
    else some ({ s with locked := true, pid := some p, inside := update s.inside p true }.goto p .leaves)
  | .has true =>
    some ({ s with locked := false, pid := none, inside := update s.inside p false }.goto p .wakes)
  | .sleeps => if s.table = none then some ({ s with table := some p }.goto p .lets) else none
  | .lets => some ({ s with guard := none }.goto p .parks)
  | .parks => some ({ s with table := none }.goto p .asleep)
  | .woken => if s.table = none then some ({ s with table := some p }.goto p .back) else none
  | .back => some ({ s with table := none }.goto p (.enters false))
  | .wakes => if s.table = none then some ({ s with table := some p }.goto p .scans) else none
  | .scans => some ({ s with table := none, pc := fun q => (s.pc q).wake }.goto p .leaves)
  | .leaves => some ({ s with guard := none }.goto p .out)
  | .out | .asleep => none

end Sys

def step (s : Sys P) : P × Op → Option (Sys P)
  | (p, .run) => s.run p
  | (p, .kill) => if s.table = none then some (s.goto p (s.pc p).wake) else none
  | (p, .acquiresleep) => match s.pc p with
    | .out => some (s.goto p (.enters false))
    | _ => none
  | (p, .releasesleep) => match s.pc p with
    | .out => some (s.goto p (.enters true))
    | _ => none

def initsleeplock (P : Type) : Sys P := ⟨none, none, false, none, fun _ => false, fun _ => .out⟩

/-- `releasesleep` is called by who is inside: its callers test `holdingsleep`, or have just
called `acquiresleep`. -/
def Holder (s : Sys P) (l : P × Op) : Prop := l.2 = .releasesleep → s.inside l.1 = true

structure Inv (s : Sys P) : Prop where
  guard : ∀ p, s.guard = some p ↔ (s.pc p).guarded = true
  table : ∀ p, s.table = some p ↔ (s.pc p).tabled = true
  /-- While a wakeup is due, some sleepers may not know yet that the lock is free. -/
  sleeper : ∀ p, (s.pc p).sleeper → s.locked = true ∨ (s.pc p = .parks ∧ ∃ q, s.pc q = .wakes) ∨
    (s.pc p = .asleep ∧ ∃ q, s.pc q = .wakes ∨ s.pc q = .scans)
  inside : ∀ p, s.inside p = s.holdingsleep p
  release : ∀ p, s.pc p = .enters true ∨ s.pc p = .has true → s.inside p = true

variable {s t : Sys P} {p : P}

theorem Pc.wake_guarded (x : Pc) : x.wake.guarded = x.guarded := by
  cases x <;> rfl

theorem Pc.wake_tabled (x : Pc) : x.wake.tabled = x.tabled := by
  cases x <;> rfl

theorem Pc.wake_sleeper {x : Pc} (h : x.wake.sleeper) : x = .sleeps ∨ x = .lets ∨ x = .parks := by
  cases x <;> simp_all [wake, sleeper]

/-- `locked` is set or cleared, under `lk->lk`. -/
theorem has_inv {rel : Bool} (h : Inv s) (hpc : s.pc p = .has rel) (hrun : s.run p = some t) : Inv t := by
  obtain ⟨hg, ht, hsl, hin, hrel⟩ := h
  cases rel with
  | false =>
    simp only [Sys.run, hpc] at hrun
    split_ifs at hrun with hl <;> obtain rfl := Option.some.inj hrun
    · refine ⟨fun q => ?_, fun q => ?_, fun q => ?_, hin, fun q => ?_⟩ <;>
        simp only [Sys.goto, update_apply]
      all_goals grind
    · refine ⟨fun q => ?_, fun q => ?_, fun q => ?_, fun q => ?_, fun q => ?_⟩ <;>
        simp only [Sys.goto, update_apply, Sys.holdingsleep] at *
      all_goals grind
  | true =>
    simp only [Sys.run, hpc] at hrun
    obtain rfl := Option.some.inj hrun
    -- who else found the lock held has given up `lk->lk`, so the wakeup that follows reaches it
    refine ⟨fun q => ?_, fun q => ?_, fun q => ?_, fun q => ?_, fun q => ?_⟩ <;>
      simp only [Sys.goto, update_apply, Sys.holdingsleep] at *
    all_goals grind

theorem scans_inv (h : Inv s) (hpc : s.pc p = .scans) :
    Inv ({ s with table := none, pc := fun q => (s.pc q).wake }.goto p .leaves) := by
  obtain ⟨hg, ht, hsl, hin, hrel⟩ := h
  refine ⟨fun q => ?_, fun q => ?_, fun q hq => ?_, hin, fun q => ?_⟩ <;>
    simp only [Sys.goto, update_apply] at *
  · grind [Pc.wake_guarded]
  · grind [Pc.wake_tabled]
  · -- who is on its way to sleep has one of the two locks, and `p` has both
    have hlocks := (ht p).2 (by rw [hpc]; rfl)
    have hguard := (hg p).2 (by rw [hpc]; rfl)
    have hq' := @Pc.wake_sleeper (s.pc q)
    grind
  · grind [Pc.wake]

theorem run_inv (h : Inv s) (hrun : s.run p = some t) : Inv t := by
  obtain ⟨hg, ht, hsl, hin, hrel⟩ := id h
  cases hpc : s.pc p with
  | has rel => exact has_inv h hpc hrun
  | scans =>
    simp only [Sys.run, hpc] at hrun
    exact Option.some.inj hrun ▸ scans_inv h hpc
  | _ =>
    simp only [Sys.run, hpc] at hrun
    try split_ifs at hrun with hn
    all_goals try simp only [Option.some.injEq, reduceCtorEq] at hrun
    all_goals
      subst hrun
      refine ⟨fun q => ?_, fun q => ?_, fun q => ?_, hin, fun q => ?_⟩ <;>
        simp only [Sys.goto, update_apply]
    all_goals grind

theorem step_inv {l : P × Op} (h : Inv s) (hl : Holder s l) (hstep : step s l = some t) : Inv t := by
  obtain ⟨p, op⟩ := l
  obtain ⟨hg, ht, hsl, hin, hrel⟩ := id h
  cases op with
  | run => exact run_inv h hstep
  | kill =>
    simp only [step] at hstep
    split_ifs at hstep
    obtain rfl := Option.some.inj hstep
    cases hpc : s.pc p
    all_goals
      refine ⟨fun q => ?_, fun q => ?_, fun q => ?_, hin, fun q => ?_⟩ <;>
        simp only [Sys.goto, update_apply, Pc.wake]
    all_goals grind
  | _ =>
    have hin' := hl
    simp only [Holder] at hin'
    cases hpc : s.pc p <;> simp only [step, hpc, Option.some.injEq, reduceCtorEq] at hstep
    subst hstep
    refine ⟨fun q => ?_, fun q => ?_, fun q => ?_, hin, fun q => ?_⟩ <;>
      simp only [Sys.goto, update_apply]
    all_goals grind

/-- Who has `ptable.lock` can go on; if nobody has it, who has `lk->lk`; else anybody. -/
theorem Inv.progress (h : Inv s) (hout : s.pc p ≠ .out) (hsleep : s.pc p ≠ .asleep) :
    ∃ q, (s.run q).isSome = true := by
  cases ht : s.table with
  | some q =>
    have hq := (h.table q).1 ht
    refine ⟨q, ?_⟩
    cases hpc : s.pc q <;> simp_all [Pc.tabled, Sys.run]
  | none =>
    cases hg : s.guard with
    | some q =>
      have hq := (h.guard q).1 hg
      refine ⟨q, ?_⟩
      cases hpc : s.pc q with
      | has rel => cases rel <;> cases hl : s.locked <;> simp [Sys.run, hpc, hl]
      | _ => simp_all [Pc.guarded, Sys.run]
    | none =>
      have hp := h.guard p
      refine ⟨p, ?_⟩
      cases hpc : s.pc p <;> simp_all [Pc.guarded, Sys.run]

/-- At most one process is inside, `holdingsleep` is true for that process only, while `lk->lk` is free
nobody sleeps at a sleep-lock that is free, and there is no deadlock. -/
theorem sleep_locks {ls : List (P × Op)} (run : Run (given (ofFun step) Holder) (initsleeplock P) ls s) :
    (∀ p q, s.inside p = true → s.inside q = true → p = q) ∧ (∀ p, s.holdingsleep p = s.inside p) ∧
      (s.guard = none → ∀ p, s.pc p = .asleep → s.locked = true) ∧
      ∀ p, s.pc p ≠ .out → s.pc p ≠ .asleep → ∃ q, (s.run q).isSome = true := by
  have h : Inv s := by
    refine run.invariant ⟨?_, ?_, ?_, fun _ => rfl, ?_⟩ fun s l t hs hst => step_inv hs hst.1 hst.2
    all_goals simp [initsleeplock, Pc.guarded, Pc.tabled, Pc.sleeper]
  refine ⟨fun p q hp hq => ?_, fun p => (h.inside p).symm, fun hfree p hp => ?_, fun _ => h.progress⟩
  · rw [h.inside] at hp hq
    simp only [Sys.holdingsleep, Bool.and_eq_true, beq_iff_eq] at hp hq
    exact Option.some.inj (hp.2.symm.trans hq.2)
  have hguard := h.guard
  have hsleeper := h.sleeper p
  rw [hfree] at hguard
  grind

/-- One process takes the lock, and another goes to sleep. -/
def twoCalls : List (Bool × Op) :=
  (true, .acquiresleep) :: List.replicate 3 (true, .run) ++
    (false, .acquiresleep) :: List.replicate 5 (false, .run)

def waiting : Sys Bool := (twoCalls.foldlM step (initsleeplock Bool)).getD (initsleeplock Bool)

theorem sleep_locks_waiting : waiting.pc false = .asleep ∧ waiting.locked = true := by
  have run : Run (ofFun step) (initsleeplock Bool) twoCalls waiting := .of_foldlM rfl
  have hno : ∀ l ∈ twoCalls, l.2 ≠ .releasesleep := by decide
  have hholder : Run (given _ Holder) _ _ _ := run.given_labels fun l hl _ hrel => absurd hrel (hno l hl)
  exact ⟨rfl, (sleep_locks hholder).2.2.1 rfl false rfl⟩

end Xv6.Sleeplock

import Xv6Cow.Proc.Runs

/-!
# Whom `kill` kills

`kill` goes by the process number alone.  Slots that were never used, or are free after `wait`, have the
number 0; a `fork` that fails gives the slot back with the number, and the mark, that it has got
meanwhile; and `allocproc` clears no mark.
-/

namespace Xv6.Ptable

open Lts

/-- What `kill` returns. -/
def Table.killReturns (t : Table) (pid : ℤ) : ℤ :=
  match t.findPid pid with
  | some _ => 0
  | none => -1

/-- A process that is not `UNUSED` has the number. -/
def Table.Lives (t : Table) (pid : ℤ) (q : Slot) : Prop := (t q).state ≠ .unused ∧ (t q).pid = pid

/-- An unused slot has the number. -/
def Table.Stale (t : Table) (pid : ℤ) (q : Slot) : Prop := (t q).state = .unused ∧ (t q).pid = pid

namespace Table

variable {t : Table} {pid : ℤ} {p q : Slot}

theorem kill_none (h : t.findPid pid = none) : t.kill pid = t := by rw [kill, h]

theorem kill_some (h : t.findPid pid = some p) : t.kill pid = t.set p (t p).kill := by rw [kill, h]

theorem findPid_some (h : t.findPid pid = some p) : ((t p).pid : ℤ) = pid := by
  simpa using List.find?_some h

theorem findPid_none (h : t.findPid pid = none) (q : Slot) : ((t q).pid : ℤ) ≠ pid := by
  simpa using List.find?_eq_none.1 h q (List.mem_finRange q)

theorem killReturns_iff : t.killReturns pid = 0 ↔ ∃ q, ((t q).pid : ℤ) = pid := by
  unfold killReturns
  cases h : t.findPid pid with
  | none => simpa using findPid_none h
  | some p => exact iff_of_true rfl ⟨p, findPid_some h⟩

end Table

section

variable {C : Type}

/-- For lack of memory `fork` gives the slot back. -/
def ForkFails (s : Sys C) (l : C × Op) (np : Slot) : Prop :=
  l.2 = .noMemory ∧ (∃ p, Runs s l.1 p (.forkStack np)) ∨ l.2 = .undo ∧ ∃ p, Runs s l.1 p (.forkUndo np)

/-- No unused slot has the number that `kill` is called with, and a slot that `fork` gives back is not
marked. -/
def KillOk (s : Sys C) (l : C × Op) : Prop :=
  (∀ pid q, l.2 = .kill pid → ¬ s.table.Stale pid q) ∧
    ∀ np, ForkFails s l np → (s.table np).killed = false

variable {s s' : Sys C} {l : C × Op} {ls : List (C × Op)} {p q np : Slot} {c : C} {x : Proc}

/-! ## What a step does to number and mark -/

/-- The state stays, or changes between those of a process that has been started. -/
def Moves (x y : Proc) : Prop := y.state = x.state ∨ x.state ≠ .unused ∧ y.state.early = false

/-- What a step can make of a slot: `x` is the process afterwards. -/
inductive Change (s : Sys C) (l : C × Op) (q : Slot) (x : Proc) : Prop
  | same (hpid : x.pid = (s.table q).pid) (hkilled : x.killed = (s.table q).killed)
      (hs : Moves (s.table q) x)
  | kill {pid : ℤ} (hl : l.2 = .kill pid) (hq : s.table.findPid pid = some q)
      (hpid : x.pid = (s.table q).pid) (hs : Moves (s.table q) x)
  | trap (hrun : (s.table q).state = .running) (hpid : x.pid = (s.table q).pid)
      (hs : x.state = (s.table q).state)
  | alloc (hl : l.2 = .fork) (hq : s.table.allocproc = some q) (hpid : x.pid = s.nextpid)
      (hkilled : x.killed = (s.table q).killed) (hs : x.state = .embryo)
  | fails (hf : ForkFails s l q) (he : (s.table q).state = .embryo) (hpid : x.pid = (s.table q).pid)
      (hkilled : x.killed = (s.table q).killed) (hs : x.state = .unused)
  | reap (hpid : x.pid = 0) (hkilled : x.killed = false) (hs : x.state = .unused)

theorem Change.refl (s : Sys C) (l : C × Op) (q : Slot) : Change s l q (s.table q) :=
  .same rfl rfl (.inl rfl)

theorem Change.set (h : Change s l np x) (q : Slot) : Change s l q (s.table.set np x q) := by
  rw [Table.set_apply]
  split_ifs with hq
  · rw [hq]
    exact h
  · exact .refl s l q

theorem Kept.moves {x y : Proc} (h : Kept x y) : Moves x y := by
  rcases h.state with hs | ⟨hs, hr⟩
  · exact .inl hs
  refine .inr ⟨?_, ?_⟩
  · rw [hs]
    nofun
  · rw [hr]
    rfl

theorem Change.woken (h : Woken (s.table q) x) (hkilled : x.killed = (s.table q).killed) :
    Change s l q x :=
  .same h.pid hkilled h.toKept.moves

theorem Change.findAndSet {f : Proc → Proc} (hf : ∀ x, Woken x (f x))
    (hkilled : ∀ x, (f x).killed = x.killed) (pid : ℤ) (q : Slot) :
    Change s l q (s.table.findAndSet pid f q) :=
  .woken (Table.findAndSet_woken hf s.table pid q) (Table.findAndSet_same hkilled s.table pid q)

theorem Change.execStart [DecidableEq C] (s : Sys C) (l : C × Op) (p q : Slot) :
    Change s l q ((s.execStart p).table q) := by
  apply Change.woken (execStart_woken s p q)
  show (((s.table.findAndSetSchedQueue qLottery (s.table p).pid).findAndSetLotteryTicket 500
    (s.table p).pid).findAndSetBurstTime 0 (s.table p).pid q).killed = _
  refine (Table.findAndSet_same ?_ ..).trans
    ((Table.findAndSet_same ?_ ..).trans (Table.findAndSet_same ?_ ..))
  all_goals exact fun _ => rfl

theorem Change.exit (hi : Inv s) (hr : Runs s c p .user) (q : Slot) :
    Change s l q (s.table.exit p q) := by
  have hkilled : (s.table.exit p q).killed = (s.table q).killed :=
    Table.exit_same (fun _ _ => rfl) (fun _ _ => rfl) s.table p q
  by_cases hq : q = p
  · obtain ⟨hs, hpid, -, -⟩ := s.table.exit_self p
    have hrun := hi.state_of_run hr.stage hr.proc
    subst hq
    refine .same hpid hkilled (.inr ⟨?_, ?_⟩)
    · rw [hrun]
      nofun
    · rw [hs]
      rfl
  · have hkept := s.table.exit_kept p q hq
    exact .same hkept.pid hkilled hkept.moves

theorem Change.ofRun (hi : Inv s) (hc : (s.cpu c).stage = .run) (hp : (s.cpu c).proc = some p)
    (hpid : x.pid = (s.table p).pid) (hkilled : x.killed = (s.table p).killed)
    (hx : x.state.early = false) : Change s l p x := by
  refine .same hpid hkilled (.inr ⟨?_, hx⟩)
  rw [hi.state_of_run hc hp]
  nofun

/-- The number of a slot stays, or is the next one, or becomes 0. -/
theorem Change.pid {x : Proc} (h : Change s l q x) : x.pid = (s.table q).pid ∨
    l.2 = .fork ∧ s.table.allocproc = some q ∧ x.pid = s.nextpid ∨ x.pid = 0 ∧ x.state = .unused := by
  cases h with
  | same hpid | kill _ _ hpid | trap _ hpid | fails _ _ hpid => exact .inl hpid
  | alloc hl hq hpid => exact .inr (.inl ⟨hl, hq, hpid⟩)
  | reap hpid _ hs => exact .inr (.inr ⟨hpid, hs⟩)

/-- No two slots have the same number, other than 0; the unused slots count as well. -/
structure Numbers (t : Table) (nextpid : ℕ) : Prop where
  lt : ∀ p, (t p).pid < nextpid
  one : ∀ p q, (t p).pid = (t q).pid → (t p).pid ≠ 0 → p = q
  pos : ∀ p, (t p).state ≠ .unused → (t p).pid ≠ 0

theorem numbers_boot : Numbers (boot C).table (boot C).nextpid := by
  have hpid : ∀ p, p ≠ initproc → ((boot C).table p).pid = 0 := fun p hp => by simp [boot, hp]
  refine ⟨fun p => ?_, fun p q heq hne => ?_, fun p hs => ?_⟩
  · by_cases hp : p = initproc
    · rw [hp]
      exact Nat.lt_succ_self 1
    · rw [hpid p hp]
      exact Nat.zero_lt_two
  · have hp : p = initproc := by
      by_contra hp
      exact hne (hpid p hp)
    have hq : q = initproc := by
      by_contra hq
      exact hne (heq.trans (hpid q hq))
    rw [hp, hq]
  · by_cases hp : p = initproc
    · rw [hp]
      exact Nat.one_ne_zero
    · exact absurd (by simp [boot, hp]) hs

/-- Neither a `kill` nor the end of a `fork` that fails. -/
def Op.harmless : Op → Bool
  | .kill _ | .noMemory | .undo => false
  | _ => true

theorem killOk_of_harmless (h : l.2.harmless = true) (s : Sys C) : KillOk s l := by
  refine ⟨fun pid q hl => ?_, fun r hf => ?_⟩
  · rw [hl] at h
    cases h
  · rcases hf with ⟨hl, -⟩ | ⟨hl, -⟩ <;> rw [hl] at h <;> cases h

end

variable {C : Type} [DecidableEq C] {s s' : Sys C} {l : C × Op} {ls : List (C × Op)} {p q np : Slot}

/-! ## What every step keeps -/

theorem Step.change (h : Step s l s') (hi : Inv s) (q : Slot) : Change s l q (s'.table q) := by
  cases h with
  | dispatch hl hc hp hk hd =>
    apply Change.set
    refine .same rfl rfl (.inr ⟨?_, rfl⟩)
    rw [(Table.select_ready hp).1]
    nofun
  | resumeSleep | resumeWait | allocStack | copied | freeStack | execCommit =>
    apply Change.set
    exact .same rfl rfl (.inl rfl)
  | yield hr hl | sleep hr hl =>
    apply Change.set
    exact .ofRun hi hr.stage hr.proc rfl rfl rfl
  | waitSleep hh =>
    apply Change.set
    exact .ofRun hi hh.stage hh.proc rfl rfl rfl
  | wakeup =>
    exact .woken (Table.wakeup1_woken s.table _ q)
      (Table.wakeup1_same (π := Proc.killed) (fun _ _ => rfl) s.table _ q)
  | fork hr hl hnp =>
    apply Change.set
    exact .alloc rfl hnp rfl rfl rfl
  | allocFails hr =>
    apply Change.set
    exact .fails (.inl ⟨rfl, _, hr⟩) (hi.child hr rfl).1 rfl rfl rfl
  | undo hr =>
    apply Change.set
    exact .fails (.inr ⟨rfl, _, hr⟩) (hi.child hr rfl).1 rfl rfl rfl
  | forkRun hr hl =>
    apply Change.set
    refine .same rfl rfl (.inr ⟨?_, rfl⟩)
    rw [(hi.child hr rfl).1]
    nofun
  | exec hr => exact Change.execStart s _ _ q
  | reap =>
    apply Change.set
    exact .reap rfl rfl rfl
  | exit hr => exact Change.exit hi hr q
  | @kill c p pid hr hl =>
    show Change s _ q (s.table.kill pid q)
    rcases hfind : s.table.findPid pid with _ | r
    · rw [Table.kill_none hfind]
      exact .refl s _ q
    have hmoves := (Table.kill_woken s.table pid r).toKept.moves
    rw [Table.kill_some hfind, Table.set_apply, if_pos rfl] at hmoves
    rw [Table.kill_some hfind]
    apply Change.set
    exact .kill rfl hfind rfl hmoves
  | trap hr =>
    apply Change.set
    exact .trap (hi.state_of_run hr.stage hr.proc) rfl rfl
  | @setPriority c p x pid =>
    exact .findAndSet (f := fun y => { y with priority := x })
      (fun _ => ⟨⟨.inl rfl, rfl, rfl, rfl, rfl⟩, rfl⟩) (fun _ => rfl) pid q
  | @setLotteryTicket c p x pid =>
    exact .findAndSet (f := fun y => { y with lotteryTicket := x })
      (fun _ => ⟨⟨.inl rfl, rfl, rfl, rfl, rfl⟩, rfl⟩) (fun _ => rfl) pid q
  | @setSchedQueue c p x pid =>
    exact .findAndSet (f := fun y => { y with schedQueue := x })
      (fun _ => ⟨⟨.inl rfl, rfl, rfl, rfl, rfl⟩, rfl⟩) (fun _ => rfl) pid q
  | @setBurstTime c p x pid =>
    exact .findAndSet (f := fun y => { y with burstTime := x })
      (fun _ => ⟨⟨.inl rfl, rfl, rfl, rfl, rfl⟩, rfl⟩) (fun _ => rfl) pid q
  | _ => exact .refl s _ q

theorem Numbers.step (h : Numbers s.table s.nextpid) (hi : Inv s) (hstep : Step s l s') :
    Numbers s'.table s'.nextpid := by
  have hle : s.nextpid ≤ s'.nextpid := by
    rw [hstep.nextpid]
    split_ifs
    · exact Nat.le_succ _
    · exact Nat.le_refl _
  have hnext : l.2 = .fork → s'.nextpid = s.nextpid + 1 := by
    intro hl
    rw [hstep.nextpid, if_pos hl]
  have hpos : 0 < s.nextpid := Nat.zero_lt_of_lt (h.lt initproc)
  refine ⟨fun p => ?_, fun p q heq hne => ?_, fun p hs => ?_⟩
  · rcases (hstep.change hi p).pid with hp | ⟨hl, -, hp⟩ | ⟨hp, -⟩
    · rw [hp]
      exact (h.lt p).trans_le hle
    · rw [hp, hnext hl]
      exact Nat.lt_succ_self _
    · rw [hp]
      exact hpos.trans_le hle
  · rcases (hstep.change hi p).pid with hp | ⟨-, hp, hp'⟩ | ⟨hp, -⟩
    · rcases (hstep.change hi q).pid with hq | ⟨-, -, hq⟩ | ⟨hq, -⟩
      · rw [hp] at hne
        rw [hp, hq] at heq
        exact h.one p q heq hne
      · have := h.lt p
        omega
      · omega
    · rcases (hstep.change hi q).pid with hq | ⟨-, hq, -⟩ | ⟨hq, -⟩
      · have := h.lt q
        omega
      · exact Option.some.inj (hp.symm.trans hq)
      · omega
    · exact absurd hp hne
  · cases hstep.change hi p with
    | same hpid _ hm | kill _ _ hpid hm =>
      rw [hpid]
      refine h.pos p fun hu => ?_
      rcases hm with hm | ⟨hm, -⟩
      · exact hs (hm.trans hu)
      · exact hm hu
    | trap hrun hpid _ =>
      rw [hpid]
      refine h.pos p ?_
      rw [hrun]
      nofun
    | alloc _ _ hpid =>
      rw [hpid]
      exact hpos.ne'
    | fails _ _ _ _ hu | reap _ _ hu => exact absurd hu hs

/-! ## Marks -/

/-- Only processes in use are marked. -/
def Unmarked (t : Table) : Prop := ∀ q, (t q).state = .unused → (t q).killed = false

theorem Unmarked.step (h : Unmarked s.table) (hi : Inv s) (hok : KillOk s l) (hstep : Step s l s') :
    Unmarked s'.table := by
  intro q hu
  have hbefore : Moves (s.table q) (s'.table q) → (s.table q).state = .unused := by
    rintro (hm | ⟨-, hm⟩)
    · exact hm.symm.trans hu
    · rw [hu] at hm
      cases hm
  cases hstep.change hi q with
  | same _ hkilled hm =>
    rw [hkilled]
    exact h q (hbefore hm)
  | kill hl hq _ hm => exact absurd ⟨hbefore hm, Table.findPid_some hq⟩ (hok.1 _ q hl)
  | trap hrun _ hs =>
    rw [hs, hrun] at hu
    cases hu
  | alloc _ _ _ _ hs =>
    rw [hs] at hu
    cases hu
  | fails hf _ _ hkilled _ =>
    rw [hkilled]
    exact hok.2 q hf
  | reap _ hkilled _ => exact hkilled

/-- The invariants of a run in which `kill` is used well. -/
structure KillInv (s : Sys C) : Prop where
  inv : Inv s
  numbers : Numbers s.table s.nextpid
  unmarked : Unmarked s.table

theorem KillInv.step (h : KillInv s) (hstep : given Step KillOk s l s') : KillInv s' :=
  ⟨hstep.2.inv h.inv, h.numbers.step h.inv hstep.2, h.unmarked.step h.inv hstep.1 hstep.2⟩

theorem run_killInv (run : Run (given Step KillOk) (boot C) ls s) : KillInv s := by
  refine run.invariant ⟨boot_inv, numbers_boot, fun q _ => ?_⟩ fun _ _ _ h hstep => h.step hstep
  by_cases hq : q = initproc <;> simp [boot, hq]

/-- The child with the number `n` is not marked before it starts. -/
structure ChildInv (np : Slot) (n : ℕ) (s : Sys C) : Prop where
  kill : KillInv s
  lt : n < s.nextpid
  clean : (s.table np).pid = n → (s.table np).state.early = true → (s.table np).killed = false

theorem ChildInv.step {n : ℕ} (h : ChildInv np n s) (hok : KillOk s l) (hl : l.2 ≠ .kill n)
    (hstep : Step s l s') : ChildInv np n s' := by
  have hlt : n < s'.nextpid := by
    have := h.lt
    rw [hstep.nextpid]
    split_ifs <;> omega
  refine ⟨h.kill.step ⟨hok, hstep⟩, hlt, fun hn he => ?_⟩
  have hbefore : Moves (s.table np) (s'.table np) → (s.table np).state.early = true := by
    rintro (hm | ⟨-, hm⟩)
    · rw [← hm]
      exact he
    · rw [he] at hm
      cases hm
  cases hstep.change h.kill.inv np with
  | same hpid hkilled hm =>
    rw [hkilled]
    exact h.clean (hpid.symm.trans hn) (hbefore hm)
  | kill hkill hq hpid _ =>
    have := Table.findPid_some hq
    rw [← hpid, hn] at this
    rw [← this] at hkill
    exact absurd hkill hl
  | trap hrun _ hs =>
    rw [hs, hrun] at he
    cases he
  | alloc _ _ hpid =>
    have := h.lt
    omega
  | fails _ hs hpid hkilled _ =>
    rw [hkilled]
    exact h.clean (hpid.symm.trans hn) (by rw [hs]; rfl)
  | reap _ hkilled _ => exact hkilled

/-- A new child is not marked before it starts, unless `kill` is called with its number. -/
theorem child_clean (h : KillInv s) {c : C} (hr : Runs s c p .user) (hl : s.lock = none)
    (hnp : s.table.allocproc = some np) (run : Run (given Step KillOk) (s.allocproc p np) ls s')
    (hn : (s'.table np).pid = s.nextpid) (hs : (s'.table np).state = .embryo)
    (hkilled : (s'.table np).killed = true) : ∃ l ∈ ls, l.2 = .kill s.nextpid := by
  by_contra hno
  have hstart : ChildInv np s.nextpid (s.allocproc p np) := by
    refine ⟨h.step ⟨killOk_of_harmless rfl s, .fork hr hl hnp⟩, Nat.lt_succ_self _, fun _ _ => ?_⟩
    show (s.table.set np _ np).killed = false
    rw [Table.set_apply, if_pos rfl]
    exact h.unmarked np (Table.allocproc_unused hnp)
  have hrun : Run (given (given Step KillOk) fun _ l => l.2 ≠ .kill s.nextpid)
    (s.allocproc p np) ls s' := run.given_labels fun l hl _ he => hno ⟨l, hl, he⟩
  have hend := hrun.invariant hstart fun _ _ _ hi hstep => hi.step hstep.2.1 hstep.1 hstep.2.2
  rw [hend.clean hn (by rw [hs]; rfl)] at hkilled
  cases hkilled

/-! ## `kill` -/

theorem Numbers.kill_killed {t : Table} {n : ℕ} (h : Numbers t n) {pid : ℤ}
    (hstale : ∀ q, ¬ t.Stale pid q) (q : Slot) :
    (t.kill pid q).killed = true ↔ (t q).killed = true ∨ t.Lives pid q := by
  rcases hfind : t.findPid pid with _ | r
  · rw [Table.kill_none hfind]
    refine ⟨.inl, fun hq => hq.resolve_right fun hlive => ?_⟩
    exact Table.findPid_none hfind q hlive.2
  have hr := Table.findPid_some hfind
  have hlive : (t r).state ≠ .unused := fun hu => hstale r ⟨hu, hr⟩
  rw [Table.kill_some hfind, Table.set_apply]
  split_ifs with hq
  · subst hq
    exact iff_of_true rfl (.inr ⟨hlive, hr⟩)
  refine ⟨.inl, fun hq' => hq'.resolve_right fun hlive' => ?_⟩
  have heq : (t q).pid = (t r).pid := by
    have := hlive'.2
    omega
  exact hq (h.one q r heq (h.pos q hlive'.1))

/-- The result of `kill` is right exactly if no unused slot has the number. -/
theorem Numbers.killReturns_iff_lives {t : Table} {n : ℕ} (h : Numbers t n) (pid : ℤ) :
    (t.killReturns pid = 0 ↔ ∃ q, t.Lives pid q) ↔ ∀ q, ¬ t.Stale pid q := by
  rw [Table.killReturns_iff]
  constructor
  · rintro hiff q ⟨hu, hq⟩
    obtain ⟨r, hr, hpid⟩ := hiff.1 ⟨q, hq⟩
    have heq : (t r).pid = (t q).pid := by omega
    have hrq := h.one r q heq (h.pos r hr)
    rw [hrq] at hr
    exact hr hu
  · intro hstale
    constructor
    · rintro ⟨q, hq⟩
      exact ⟨q, fun hu => hstale q ⟨hu, hq⟩, hq⟩
    · rintro ⟨q, -, hq⟩
      exact ⟨q, hq⟩

/-- In every state of a run in which `kill` is not called with the number of an unused slot, and no
`fork` fails whose child has been killed: a call of that kind returns 0 exactly if a process has the
number, and marks that process only; and a process that `fork` creates from here on becomes runnable,
and is not marked then unless `kill` was called with its number after `allocproc`.  The result of a call
of the other kind is wrong. -/
theorem kill_hits_live (run : Run (given Step KillOk) (boot C) ls s) :
    (∀ pid, (s.table.killReturns pid = 0 ↔ ∃ q, s.table.Lives pid q) ↔ ∀ q, ¬ s.table.Stale pid q) ∧
    (∀ pid, (∀ q, ¬ s.table.Stale pid q) → ∀ q,
      (s.table.kill pid q).killed = true ↔ (s.table q).killed = true ∨ s.table.Lives pid q) ∧
    ∀ c p np, Runs s c p .user → s.lock = none → s.table.allocproc = some np →
      ∀ ls' s' c' d, Run (given Step KillOk) (s.allocproc p np) ls' s' →
        (s'.table np).pid = s.nextpid → Runs s' c' p (.forkRun np d) →
        ((s'.forkRun p np).table np).state = .runnable ∧
        (((s'.forkRun p np).table np).killed = true → ∃ l ∈ ls', l.2 = .kill s.nextpid) := by
  have h := run_killInv run
  refine ⟨h.numbers.killReturns_iff_lives, fun pid hstale => h.numbers.kill_killed hstale, ?_⟩
  intro c p np hr hl hnp ls' s' c' d run' hn hrun
  have hself : (s'.forkRun p np).table np = (s'.table np).start := by
    show s'.table.set np _ np = _
    rw [Table.set_apply, if_pos rfl]
  rw [hself]
  refine ⟨rfl, fun hkilled => child_clean h hr hl hnp run' hn ?_ hkilled⟩
  have hstart : KillInv (s.allocproc p np) := h.step ⟨killOk_of_harmless rfl s, .fork hr hl hnp⟩
  have hend := run'.invariant hstart fun _ _ _ h hstep => h.step hstep
  exact (hend.inv.child hrun rfl).1

/-- The first process in the middle of its `fork`. -/
def childFull : Sys Unit :=
  ((((firstRuns.allocproc initproc 1).allocStack initproc 1 2).take 3).goto initproc
    (.forkCopy 1 3)).copied initproc 1 3

theorem childFull_run : Run Step (firstRuns.allocproc initproc 1) [((), .kalloc 2), ((), .kalloc 3),
    ((), .copied)] childFull := by
  apply Run.cons (.allocStack ⟨rfl, rfl, rfl⟩ rfl)
  apply Run.cons (.copyuvm ⟨rfl, rfl, rfl⟩ rfl)
  exact .one (.copied ⟨rfl, rfl, rfl⟩)

/-- Its child starts, and is not marked. -/
theorem kill_hits_live_childFull :
    (firstRuns.table.killReturns 1 = 0 ↔ ∃ q, firstRuns.table.Lives 1 q) ∧
    ((childFull.forkRun initproc 1).table 1).state = .runnable ∧
    (((childFull.forkRun initproc 1).table 1).killed = true →
      ∃ l ∈ [((), Op.kalloc 2), ((), .kalloc 3), ((), .copied)], l.2 = .kill 2) := by
  have hfirst : Run (given Step KillOk) (boot Unit) [((), .dispatch 0), ((), .resume)] firstRuns := by
    refine firstRuns_run.given_labels fun l hl s => ?_
    simp only [List.mem_cons, List.not_mem_nil, or_false] at hl
    rcases hl with rfl | rfl <;> exact killOk_of_harmless rfl s
  have hfull : Run (given Step KillOk) (firstRuns.allocproc initproc 1) [((), .kalloc 2),
      ((), .kalloc 3), ((), .copied)] childFull := by
    refine childFull_run.given_labels fun l hl s => ?_
    simp only [List.mem_cons, List.not_mem_nil, or_false] at hl
    rcases hl with rfl | rfl | rfl <;> exact killOk_of_harmless rfl s
  obtain ⟨hreturns, -, hfork⟩ := kill_hits_live hfirst
  refine ⟨(hreturns 1).2 ?_, ?_⟩
  · rintro q ⟨hs, hq⟩
    by_cases hinit : q = initproc
    · subst hinit
      cases hs
    have : (firstRuns.table q).pid = 0 := by
      show (Table.setState _ initproc _ q).pid = 0
      rw [Table.setState, Table.set_apply, if_neg hinit]
      simp [boot, hinit]
    omega
  · exact hfork () initproc 1 ⟨rfl, rfl, rfl⟩ rfl (by decide +kernel) _ _ () 3 hfull
      (by decide +kernel) ⟨rfl, rfl, rfl⟩

/-- It calls `kill(0)`. -/
def zeroKilled : Sys Unit := firstRuns.setTable (firstRuns.table.kill 0)

/-- Then it forks. -/
def bornKilled : Sys Unit :=
  ((((zeroKilled.allocproc initproc 1).allocStack initproc 1 2).take 3).goto initproc
    (.forkCopy 1 3)).copied initproc 1 3 |>.forkRun initproc 1

/-- `kill(0)` returns 0, although no process has this number, and marks a slot that has never been used.
The next child gets the slot and starts with the mark; nobody has called `kill` with its number. -/
theorem born_killed :
    Run Step (boot Unit) ([((), .dispatch 0), ((), .resume)] ++ [((), .kill 0), ((), .fork),
      ((), .kalloc 2), ((), .kalloc 3), ((), .copied), ((), .forkRun)]) bornKilled ∧
    firstRuns.table.killReturns 0 = 0 ∧ (∀ q, ¬ firstRuns.table.Lives 0 q) ∧
    (zeroKilled.table 1).state = .unused ∧ (zeroKilled.table 1).killed = true ∧
    (bornKilled.table 1).state = .runnable ∧ (bornKilled.table 1).pid = 2 ∧
    (bornKilled.table 1).killed = true := by
  refine ⟨firstRuns_run.append ?_, by decide +kernel, ?_, by decide +kernel, by decide +kernel,
    by decide +kernel, by decide +kernel, by decide +kernel⟩
  · have hslot : zeroKilled.table.allocproc = some 1 := by decide +kernel
    apply Run.cons (.kill (p := initproc) ⟨rfl, rfl, rfl⟩ rfl)
    apply Run.cons (.fork (p := initproc) ⟨rfl, rfl, rfl⟩ rfl hslot)
    apply Run.cons (.allocStack ⟨rfl, rfl, rfl⟩ rfl)
    apply Run.cons (.copyuvm ⟨rfl, rfl, rfl⟩ rfl)
    apply Run.cons (.copied ⟨rfl, rfl, rfl⟩)
    exact .one (.forkRun (d := 3) ⟨rfl, rfl, rfl⟩ rfl)
  · rintro q ⟨hs, hq⟩
    by_cases hinit : q = initproc
    · subst hinit
      cases hq
    refine hs ?_
    show (Table.setState _ initproc _ q).state = .unused
    rw [Table.setState, Table.set_apply, if_neg hinit]
    simp [boot, hinit]

end Xv6.Ptable

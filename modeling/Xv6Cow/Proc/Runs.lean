import Xv6Cow.Proc.Lifecycle

/-!
# Runs of the process table

The invariants hold in every state that is reached from `boot`, on any number of CPUs, and what the
process table is for follows.  The pointer that `pagefault` goes by is another matter.
-/

namespace Xv6.Ptable

open Function Lts

variable {C : Type}

theorem boot_inv : Inv (boot C) := by
  have hstate : ∀ p, p ≠ initproc → ((boot C).table p).state = .unused := by
    intro p hp
    simp [boot, hp]
  have hinit : (boot C).table initproc = ⟨.runnable, 1, none, none, false, some 0, some 1, 50,
      qLottery, 0, 0⟩ := rfl
  have hpoint : ∀ p, ((boot C).thread p).point = .user := by
    intro p
    by_cases hp : p = initproc <;> simp [boot, hp]
  have hparent : ∀ p, ((boot C).table p).parent = none := by
    intro p
    by_cases hp : p = initproc <;> simp [boot, hp]
  have hone : ∀ p, ((boot C).table p).state ≠ .unused → p = initproc := by
    intro p hp
    by_contra hne
    exact hp (hstate p hne)
  refine ⟨⟨by rintro _ _ ⟨⟩, fun _ _ => ⟨rfl, rfl, rfl⟩, by rintro _ _ _ ⟨⟩, fun p hp => ?_, by rintro _ ⟨⟩⟩,
    fun p => ?_, ?_, ⟨rfl, rfl, fun p => ?_, fun p hp hne => ?_⟩, fun p q hs => ?_, ?_, ?_,
      by rintro _ _ ⟨⟩,
    by rintro _ ⟨⟩⟩
  · have := hone p (by rw [hp]; rintro ⟨⟩)
    rw [this] at hp
    cases hp
  · by_cases hp : p = initproc
    · subst hp
      exact ⟨by rintro ⟨⟩, by rintro ⟨⟩, fun _ => .inl rfl, by rintro ⟨⟩, by simp [boot]⟩
    have hth : (boot C).thread p = ⟨.user, .gone⟩ := by simp [boot, hp]
    have hs := hstate p hp
    rw [hth]
    exact ⟨fun _ => rfl, by rw [hs]; rintro ⟨⟩, by rw [hs]; rintro ⟨⟩, by rw [hs]; rintro ⟨⟩, by simp⟩
  · refine ⟨fun p np hc => ?_, fun p q np hc => ?_, fun np q _ hq => ?_, fun p np d hd => ?_⟩
    · rw [hpoint] at hc
      cases hc
    · rw [hpoint] at hc
      cases hc
    · rw [hparent] at hq
      cases hq
    · rw [hpoint] at hd
      cases hd
  · rw [hparent]
    rintro ⟨⟩
  · rw [hstate p hne] at hp
    cases hp
  · have := hone p (by rw [hs]; rintro ⟨⟩)
    rw [this] at hs
    cases hs
  · refine ⟨fun p hp => ?_, fun p q hp hq _ => ?_,
      by rintro _ ⟨⟩, fun _ _ => by rintro ⟨⟩, .nil, by rintro _ ⟨⟩,
      by rintro _ ⟨⟩, by rintro _ ⟨⟩, by rintro _ ⟨⟩, fun _ _ _ => by rintro ⟨⟩, fun _ _ => by rintro ⟨⟩,
      by rintro _ ⟨⟩⟩
    · rw [hone p hp]
      exact Nat.lt_succ_self 1
    · rw [hone p hp, hone q hq]
  · have hheld : ∀ o f, held (boot C).table (boot C).thread o = some f →
        o = .stack initproc ∧ f = 0 ∨ o = .dir initproc ∧ f = 1 := by
      intro o f ho
      cases o with
      | stack p =>
        by_cases hp : p = initproc
        · subst hp
          exact .inl ⟨rfl, by simpa [held, hinit] using ho.symm⟩
        · simp [held, boot, hp] at ho
      | dir p =>
        by_cases hp : p = initproc
        · subst hp
          exact .inr ⟨rfl, by simpa [held, hinit, PState.early] using ho.symm⟩
        · simp [held, hstate p hp, PState.early] at ho
      | pending p =>
        rw [held, hpoint] at ho
        cases ho
    refine ⟨fun {a b f} ha hb => ?_, fun {a f} ha => ?_⟩
    · rcases hheld a f ha with ⟨rfl, rfl⟩ | ⟨rfl, rfl⟩ <;>
        rcases hheld b _ hb with ⟨rfl, h⟩ | ⟨rfl, h⟩ <;> first | rfl | cases h
    · rcases hheld a f ha with ⟨-, rfl⟩ | ⟨-, rfl⟩ <;> rfl

variable [DecidableEq C] {s s' : Sys C} {l : C × Op} {ls : List (C × Op)}

theorem Step.inv (h : Step s l s') (hi : Inv s) : Inv s' := by
  cases h with
  | dispatch hl hc hp hk hd => exact hi.dispatch hl hc hp hk hd
  | settle hl hc => exact hi.settle hl hc
  | resume hh => exact hi.resume hh
  | resumeSleep hh => exact (hi.wake hh.stage hh.proc).resume ⟨hh.stage, hh.proc, hh.mode, hh.lock⟩
  | resumeWait hh => exact hi.waitWakes hh
  | yield hr hl =>
    refine hi.leave hr.stage hr.proc (by rw [hl]; nofun) (.inl rfl) rfl rfl rfl rfl ?_
      (hi.wait.set nofun nofun)
    exact ⟨nofun, nofun, fun _ => .inl rfl, nofun, by simp⟩
  | sleep hr hl =>
    refine hi.leave hr.stage hr.proc (by rw [hl]; nofun) (.inr rfl) rfl rfl rfl rfl ?_
      (hi.wait.set (by simp [Proc.sleepOn]) nofun)
    exact ⟨nofun, nofun, nofun, fun _ => .inl ⟨rfl, _, rfl⟩, by simp⟩
  | wakeup hl => exact hi.woken (Table.wakeup1_woken s.table _)
  | fork hr hl hnp => exact hi.allocproc hr hnp
  | allocStack hr hf => exact hi.allocStack hr hf
  | allocFails hr => exact hi.allocFails hr
  | copyuvm hr hd => exact hi.takeDir hr hd rfl rfl (fun _ => ⟨nofun, nofun⟩) nofun rfl
  | copyFails hr => exact hi.pass hr rfl rfl (fun _ => ⟨nofun, nofun⟩) nofun rfl
  | copyBad hr => exact hi.freeDir hr rfl rfl rfl (fun _ => ⟨nofun, nofun⟩) nofun rfl
  | copied hr => exact hi.copied hr
  | freeStack hr hf => exact hi.freeStack hr hf
  | undo hr => exact hi.undo hr
  | forkRun hr hl => exact hi.forkRun hr
  | exec hr => exact hi.execStart hr
  | execLoad hr hd => exact hi.takeDir hr hd rfl rfl (fun _ => ⟨nofun, nofun⟩) nofun rfl
  | execFails hr => exact hi.pass hr rfl rfl (fun _ => ⟨nofun, nofun⟩) nofun rfl
  | execBad hr => exact hi.freeDir hr rfl rfl rfl (fun _ => ⟨nofun, nofun⟩) nofun rfl
  | execCommit hr ho => exact hi.execCommit hr ho
  | execSwitch hr => exact hi.execSwitch hr
  | execFree hr => exact hi.freeDir hr rfl rfl rfl (fun _ => ⟨nofun, nofun⟩) nofun rfl
  | reload hr hk => exact hi.reload hr.proc
  | wait hr hl => exact hi.waitScan hr hl
  | reap hh hz hk hd => exact hi.reap hh hz hk hd
  | waitFails hh hz hk => exact hi.waitReturns hh
  | waitSleep hh hz hk hkilled => exact hi.waitSleep hh hz
  | exit hr hl hp => exact hi.exit hr hl hp
  | kill hr hl => exact hi.woken (Table.kill_woken s.table _)
  | trap hr => exact hi.woken (Table.set_woken ⟨⟨.inl rfl, rfl, rfl, rfl, rfl⟩, rfl⟩)
  | setPriority hr | setLotteryTicket hr | setSchedQueue hr | setBurstTime hr =>
    refine hi.woken (Table.findAndSet_woken ?_ s.table _)
    exact fun _ => ⟨⟨.inl rfl, rfl, rfl, rfl, rfl⟩, rfl⟩

theorem run_inv (run : Run Step (boot C) ls s) : Inv s :=
  run.invariant boot_inv fun _ _ _ hi h => h.inv hi

/-! ## Processes begin and end once -/

/-- The stack and the directory of a process are freed by a `wait` that returns its number. -/
theorem Step.frees (h : Step s l s') (hi : Inv s) {p : Slot} {f : ℕ}
    (hp : (s.table p).state.early = false)
    (hf : (s.table p).kstack = some f ∨ (s.table p).pgdir = some f) (hfree : s'.used f = false) :
    ∃ q, s'.waited = ⟨q, some q, (s.table p).pid⟩ :: s.waited := by
  obtain ⟨o, ho, hown⟩ : ∃ o, (o = .stack p ∨ o = .dir p) ∧ held s.table s.thread o = some f := by
    rcases hf with hf | hf
    · exact ⟨_, .inl rfl, hf⟩
    · exact ⟨_, .inr rfl, by rw [held, hp]; exact hf⟩
  have hused := hi.own.used hown
  have htake : ∀ d, update s.used d true f = true := by
    intro d
    by_cases hd : f = d
    · rw [hd, update_self]
    · rw [update_of_ne hd, hused]
  -- a directory that `fork` or `exec` holds belongs to no process
  have hdir : ∀ q d, (s.thread q).point.pending = some d → update s.used d false f = true := by
    intro q d hd
    by_cases hfd : f = d
    · subst hfd
      have hpend : held s.table s.thread (.pending q) = some f := hd
      rcases ho with rfl | rfl <;> cases hi.own.inj hown hpend
    · rw [update_of_ne hfd, hused]
  cases h with
  | allocStack | copyuvm | execLoad => exact Bool.noConfusion ((htake _).symm.trans hfree)
  | copyBad hr | execBad hr | execFree hr =>
    exact Bool.noConfusion ((hdir _ _ (by rw [hr.thread]; rfl)).symm.trans hfree)
  | @freeStack c q np k hr hk =>
    have hnp := (hi.child hr rfl).1
    have hstack : held s.table s.thread (.stack np) = some k := hk
    have hne : f ≠ k := by
      rintro rfl
      rcases ho with rfl | rfl <;> cases hi.own.inj hown hstack
      rw [hnp] at hp
      cases hp
    exact Bool.noConfusion (hused.symm.trans ((update_of_ne hne ..).symm.trans hfree))
  | @reap c q z k d hh hz hk hd =>
    obtain ⟨hpar, hs⟩ := Table.zombieChild_some hz
    have hstack : held s.table s.thread (.stack z) = some k := hk
    have hzdir : held s.table s.thread (.dir z) = some d := by
      rw [held, hs]
      exact hd
    have hpz : p = z := by
      by_cases hfd : f = d
      · subst hfd
        rcases ho with rfl | rfl <;> cases hi.own.inj hown hzdir
        rfl
      by_cases hfk : f = k
      · subst hfk
        rcases ho with rfl | rfl <;> cases hi.own.inj hown hstack
        rfl
      have : s.used f = false :=
        (update_of_ne hfk ..).symm.trans ((update_of_ne hfd ..).symm.trans hfree)
      rw [hused] at this
      cases this
    refine ⟨q, ?_⟩
    rw [hpz, ← hpar]
    rfl
  | _ => exact Bool.noConfusion (hused.symm.trans hfree)

theorem Step.nextpid (h : Step s l s') :
    s'.nextpid = if l.2 = .fork then s.nextpid + 1 else s.nextpid := by
  cases h <;> rfl

theorem nextpid_le {s₀ : Sys C} (run : Run Step s₀ ls s) : s.nextpid ≤ s₀.nextpid + ls.length := by
  induction run with
  | nil => exact le_rfl
  | cons h _ ih =>
    have := h.nextpid
    rw [List.length_cons]
    split_ifs at this <;> omega

/-- Processes have numbers of their own and parents that live; `wait` returns each number once, to
the parent, and with it the stack and the directory of the child are freed, and only then.  The next
number is at most that of the steps and two: an `int` in every run of fewer than `2 ^ 31 - 2` steps. -/
theorem lifecycle (run : Run Step (boot C) ls s) :
    s.nextpid ≤ 2 + ls.length ∧
    (∀ p q, (s.table p).state ≠ .unused → (s.table q).state ≠ .unused →
      (s.table p).pid = (s.table q).pid → p = q) ∧
    (∀ p, (s.table p).state ≠ .unused → (s.table p).state ≠ .embryo → p ≠ initproc →
      ∃ q, (s.table p).parent = some q ∧ (s.table q).state ≠ .unused ∧
        (s.table q).state ≠ .zombie) ∧
    (s.waited.map Wait.pid).Nodup ∧ (∀ w ∈ s.waited, w.parent = some w.waiter) ∧
    (∀ n ∈ s.forked, s.kstacks.count n = (s.waited.map Wait.pid).count n ∧
      s.pgdirs.count n = (s.waited.map Wait.pid).count n) ∧
    ∀ l s', Step s l s' → ∀ p f, (s.table p).state ≠ .unused → (s.table p).state ≠ .embryo →
      (s.table p).kstack = some f ∨ (s.table p).pgdir = some f → s'.used f = false →
        ∃ q, s'.waited = ⟨q, some q, (s.table p).pid⟩ :: s.waited := by
  have hi := run_inv run
  have hearly : ∀ p, (s.table p).state ≠ .unused → (s.table p).state ≠ .embryo →
      (s.table p).state.early = false := by
    intro p hu he
    cases hs : (s.table p).state <;> first | rfl | contradiction
  refine ⟨nextpid_le run, hi.pid.one, fun p hu he hp => ?_, hi.pid.waitedOnce, hi.pid.waiter,
    fun n hn => ?_, fun l s' h p f hu he => h.frees hi (hearly p hu he)⟩
  · obtain ⟨q, hq, hlive⟩ := hi.tree.parent p (hearly p hu he) hp
    refine ⟨q, hq, ?_, ?_⟩ <;> intro hs <;> rw [hs] at hlive <;> cases hlive
  by_cases hw : n ∈ s.waited.map Wait.pid
  · rw [List.count_eq_one_of_mem hi.pid.waitedOnce hw]
    exact hi.pid.waitedFrees n hw
  obtain ⟨p, hp, rfl⟩ := (hi.pid.forked n hn).resolve_right hw
  have hu : (s.table p).state ≠ .unused := by
    intro hs
    rw [hs] at hp
    cases hp
  rw [List.count_eq_zero_of_not_mem hw,
    List.count_eq_zero_of_not_mem (hi.pid.pgdirsDead p hu),
    List.count_eq_zero_of_not_mem (hi.pid.kstacksDead p hu fun q hq => ?_)]
  · exact ⟨rfl, rfl⟩
  · rw [hi.fork.embryo q p (by rw [hq]; rfl)] at hp
    cases hp

/-- The first process forks. -/
def childMade : Sys Unit :=
  ((((firstRuns.allocproc initproc 1).allocStack initproc 1 2).take 3).goto initproc
    (.forkCopy 1 3)).copied initproc 1 3 |>.forkRun initproc 1

theorem childMade_run : Run Step firstRuns [((), .fork), ((), .kalloc 2), ((), .kalloc 3),
    ((), .copied), ((), .forkRun)] childMade :=
  .cons (.fork ⟨rfl, rfl, rfl⟩ rfl (by decide +kernel)) <|
  .cons (.allocStack ⟨rfl, rfl, rfl⟩ rfl) <|
  .cons (.copyuvm ⟨rfl, rfl, rfl⟩ rfl) <|
  .cons (.copied ⟨rfl, rfl, rfl⟩) <|
  .one (.forkRun (d := 3) ⟨rfl, rfl, rfl⟩ rfl)

/-- It waits for the child, and sleeps. -/
def initWaits : Sys Unit :=
  let s := (childMade.setThread initproc .user .scan).setLock (some ())
  ((s.setProc initproc ((s.table initproc).sleepOn (.proc initproc))).sched () initproc .inWait
    ).settle ()

theorem initWaits_run : Run Step childMade [((), .wait), ((), .scan), ((), .settle)] initWaits :=
  .cons (.wait (p := initproc) ⟨rfl, rfl, rfl⟩ rfl) <|
  .cons (.waitSleep ⟨rfl, rfl, rfl, rfl⟩ (by decide +kernel) (by decide +kernel) rfl) <|
  .one (.settle rfl rfl)

/-- The child runs, and exits. -/
def childExits : Sys Unit :=
  let s := (initWaits.dispatch () 1 2 3).resume 1
  ((s.setTable (s.table.exit 1)).sched () 1 .gone).settle ()

theorem childExits_run :
    Run Step initWaits [((), .dispatch 0), ((), .resume), ((), .exit), ((), .settle)] childExits :=
  .cons (.dispatch rfl rfl (by decide +kernel) (by decide +kernel) (by decide +kernel)) <|
  .cons (.resume (p := 1) ⟨rfl, rfl, rfl, rfl⟩) <|
  .cons (.exit (p := 1) ⟨rfl, rfl, rfl⟩ rfl (by decide)) <|
  .one (.settle rfl rfl)

/-- The `wait` returns. -/
def childReaped : Sys Unit :=
  let s := (childExits.dispatch () initproc 0 1).wake initproc
  (s.setThread initproc .user .scan).reap initproc 1 2 3

theorem childReaped_run :
    Run Step childExits [((), .dispatch 0), ((), .resume), ((), .scan)] childReaped :=
  .cons (.dispatch rfl rfl (by decide +kernel) (by decide +kernel) (by decide +kernel)) <|
  .cons (.resumeWait (p := initproc) ⟨rfl, rfl, rfl, rfl⟩) <|
  .one (.reap ⟨rfl, rfl, rfl, rfl⟩ (by decide +kernel) (by decide +kernel) (by decide +kernel))

/-- The number 2 has been returned by `fork` and by `wait`. -/
theorem lifecycle_childReaped :
    childReaped.forked = [2] ∧ childReaped.waited.map Wait.pid = [2] ∧
      childReaped.kstacks.count 2 = 1 ∧ childReaped.pgdirs.count 2 = 1 := by
  obtain ⟨-, -, -, -, -, hfrees, -⟩ := lifecycle (firstRuns_run.append (childMade_run.append
    (initWaits_run.append (childExits_run.append childReaped_run))))
  have hforked : childReaped.forked = [2] := by decide +kernel
  have hwaited : childReaped.waited.map Wait.pid = [2] := by decide +kernel
  have hcount := hfrees 2 (by rw [hforked]; exact List.mem_cons_self)
  rw [hwaited] at hcount
  exact ⟨hforked, hwaited, hcount⟩

/-! ## Nothing in use is freed -/

/-- No CPU uses a directory or a kernel stack at the moment it is freed.  A CPU has the directory of
the kernel loaded, or that of its process, or, in `exec` before `switchuvm`, the one of the old image,
which is not free yet. -/
theorem in_use_not_freed (run : Run Step (boot C) ls s) :
    (∀ x ∈ s.freed, ∀ c, (x.2 c).cr3 ≠ some x.1 ∧ (x.2 c).stack ≠ some x.1) ∧
    (s.lock = none → ∀ c, (s.cpu c).cr3 = none ∨ ∃ p, (s.cpu c).proc = some p ∧
      ((s.cpu c).cr3 = (s.table p).pgdir ∨
        ∃ old, (s.thread p).point = .execSwitch old ∧ (s.cpu c).cr3 = some old ∧
          s.used old = true)) := by
  have hi := run_inv run
  refine ⟨hi.freed, fun _ c => ?_⟩
  rcases hp : (s.cpu c).proc with _ | p
  · exact .inl (hi.cpu.idle c hp).2.1
  refine .inr ⟨p, rfl, (hi.cr3 c p hp).imp_right ?_⟩
  rintro ⟨old, hpt, hcr3⟩
  have hpend : held s.table s.thread (.pending p) = some old := by rw [held, hpt]; rfl
  exact ⟨old, hpt, hcr3, hi.own.used hpend⟩

/-- The stack 2 and the directory 3 of the child have been freed. -/
theorem in_use_not_freed_childReaped :
    childReaped.freed.map Prod.fst = [3, 2] ∧
      ∀ x ∈ childReaped.freed, (x.2 ()).cr3 ≠ some x.1 ∧ (x.2 ()).stack ≠ some x.1 :=
  ⟨by decide +kernel, fun x hx => (in_use_not_freed (firstRuns_run.append (childMade_run.append
    (initWaits_run.append (childExits_run.append childReaped_run))))).1 x hx ()⟩

/-- `exec` has stored the new directory, and not called `switchuvm` yet. -/
def halfExec : Sys Unit :=
  let s := ((firstRuns.execStart initproc).take 2).goto initproc (.execLoad 2)
  (s.setProc initproc ((s.table initproc).setPgdir 2)).goto initproc (.execSwitch 1)

theorem halfExec_run : Run Step firstRuns [((), .exec), ((), .kalloc 2), ((), .commit)] halfExec :=
  .cons (.exec ⟨rfl, rfl, rfl⟩) <|
  .cons (.execLoad ⟨rfl, rfl, rfl⟩ rfl) <|
  .one (.execCommit ⟨rfl, rfl, rfl⟩ (by decide +kernel))

/-- There the lock is free, and `cr3` is not the directory of the process. -/
theorem old_directory_loaded :
    Run Step (boot Unit) ([((), .dispatch 0), ((), .resume)] ++ [((), .exec), ((), .kalloc 2),
      ((), .commit)]) halfExec ∧
    halfExec.lock = none ∧ (halfExec.cpu ()).proc = some initproc ∧ (halfExec.cpu ()).cr3 = some 1 ∧
      (halfExec.table initproc).pgdir = some 2 :=
  ⟨firstRuns_run.append halfExec_run, rfl, rfl, rfl, by decide +kernel⟩

/-- While the lock is free, the running processes are those that one CPU has. -/
theorem one_cpu (run : Run Step (boot C) ls s) (hl : s.lock = none) :
    (∀ p, (s.table p).state = .running ↔ ∃! c, (s.cpu c).proc = some p) ∧
    ∀ c c' p, (s.cpu c).proc = some p → (s.cpu c').proc = some p → c = c' := by
  have hcpu := (run_inv run).cpu
  refine ⟨fun p => ⟨fun hp => ?_, ?_⟩, hcpu.one⟩
  · obtain ⟨c, hc⟩ := hcpu.onCpu p hp
    exact ⟨c, hc, fun c' hc' => hcpu.one c' c p hc' hc⟩
  rintro ⟨c, hc, -⟩
  rcases hcpu.busy c p hc with ⟨-, hs, -⟩ | ⟨-, -, -, hlock⟩
  · exact hs
  · rw [hl] at hlock
    cases hlock

theorem one_cpu_firstRuns :
    firstRuns.lock = none ∧ ((firstRuns.table initproc).state = .running ↔
      ∃! c, (firstRuns.cpu c).proc = some initproc) :=
  ⟨rfl, (one_cpu firstRuns_run rfl).1 initproc⟩

/-- Nobody sleeps in `wait` while a child of it is a zombie. -/
theorem no_zombie_missed (run : Run Step (boot C) ls s) {p q : Slot}
    (hs : (s.table p).state = .sleeping) (hch : (s.table p).chan = some (.proc p))
    (hq : (s.table q).parent = some p) : (s.table q).state ≠ .zombie :=
  (run_inv run).wait p q hs hch hq

theorem no_zombie_missed_initWaits : (initWaits.table 1).state ≠ .zombie :=
  no_zombie_missed (firstRuns_run.append (childMade_run.append initWaits_run)) (p := initproc)
    (by decide +kernel) (by decide +kernel) (by decide +kernel)

theorem Step.gs (h : Step s l s') (c : C) : (s'.cpu c).gs = (s.cpu c).gs := by
  have hupd : ∀ (c' : C) (y : Cpu), y.gs = (s.cpu c').gs →
      (update s.cpu c' y c).gs = (s.cpu c).gs := by
    intro c' y hy
    by_cases hc : c = c'
    · rw [hc, update_self, hy]
    · rw [update_of_ne hc]
  cases h <;> first | rfl | exact hupd _ _ rfl

theorem gs_none (run : Run Step (boot C) ls s) (c : C) : (s.cpu c).gs = none := by
  refine run.invariant (I := fun s => ∀ c, (s.cpu c).gs = none) (fun _ => rfl) ?_ c
  intro s l s' hs h c
  rw [h.gs, hs]

/-- Nothing but `seginit` writes to the cell `%gs:4`: it is the process of the CPU only where there is
none. -/
theorem pagefault_proc (run : Run Step (boot C) ls s) (c : C) :
    (s.cpu c).gs = (s.cpu c).proc ∧ ((s.cpu c).proc ≠ none → (s.cpu c).gs ≠ none) ↔
      (s.cpu c).proc = none := by
  rw [gs_none run c]
  constructor
  · rintro ⟨h, -⟩
    exact h.symm
  · intro h
    exact ⟨h.symm, fun hne => absurd h hne⟩

theorem pagefault_proc_initWaits : (initWaits.cpu ()).gs = (initWaits.cpu ()).proc :=
  ((pagefault_proc (firstRuns_run.append (childMade_run.append initWaits_run)) ()).2 rfl).1

/-- The first process runs, and a page fault finds no process. -/
theorem pagefault_finds_none :
    Run Step (boot Unit) [((), .dispatch 0), ((), .resume)] firstRuns ∧
      (firstRuns.cpu ()).proc = some initproc ∧ (firstRuns.cpu ()).gs = none :=
  ⟨firstRuns_run, rfl, rfl⟩

end Xv6.Ptable

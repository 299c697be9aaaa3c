import Xv6Cow.Proc.Invariant
import Xv6Cow.Proc.Sched

/-!
# Every step keeps the invariants

First the steps that are `Quiet`, among them all context switches; then `fork`, `exec`, `exit` and
`wait`, one lemma for each stretch of code.
-/

namespace Xv6.Ptable

open Function Lts

variable {C : Type}

structure Inv (s : Sys C) : Prop where
  cpu : CpuInv s.table s.thread s.cpu s.lock
  thread : ThreadInv s.table s.thread
  fork : ForkInv s.table s.thread
  tree : TreeInv s.table
  wait : WaitInv s.table
  pid : PidInv s.table s.thread s.nextpid s.forked s.waited s.kstacks s.pgdirs
  own : Own (held s.table s.thread) s.used
  cr3 : Cr3Inv s.table s.thread s.cpu
  freed : FreedInv s.freed

variable {t u : Table} {th th' : Slot → Thread} {p q : Slot} {k : Point} {m : Mode} {x : Proc}

/-! ## Quiet changes -/

theorem Quiet.of_woken (hu : ∀ q, Woken (t q) (u q)) : Quiet t u th th where
  state q := by
    rcases (hu q).state with hs | ⟨h1, h2⟩
    · exact .inl hs
    · rw [h1, h2]
      exact .inr ⟨rfl, rfl⟩
  pid q := (hu q).pid
  parent q := (hu q).parent
  kstack q := (hu q).kstack
  pgdir q := (hu q).pgdir
  child _ := rfl
  made _ := rfl
  pending _ := rfl
  undo _ _ := Iff.rfl

theorem Quiet.set (hp : (t p).state.alive = true) (hx : x.state.alive = true)
    (hpid : x.pid = (t p).pid) (hpar : x.parent = (t p).parent) (hk : x.kstack = (t p).kstack)
    (hd : x.pgdir = (t p).pgdir) (hth : ∀ q, q ≠ p → th' q = th q)
    (hchild : (th' p).point.child = (th p).point.child)
    (hmade : (th' p).point.made = (th p).point.made)
    (hpend : (th' p).point.pending = (th p).point.pending)
    (hundo : ∀ r, (th' p).point = .forkUndo r ↔ (th p).point = .forkUndo r) :
    Quiet t (t.set p x) th th' := by
  have hset : ∀ q, t.set p x q = if q = p then x else t q := fun q => Table.set_apply ..
  refine ⟨fun q => ?_, fun q => ?_, fun q => ?_, fun q => ?_, fun q => ?_, fun q => ?_, fun q => ?_,
    fun q => ?_, fun q r => ?_⟩
  all_goals by_cases hqp : q = p
  all_goals first
    | subst hqp
      simp [*]
    | simp [hset, hqp, hth q hqp]

theorem Quiet.thread (hth : ∀ q, q ≠ p → th' q = th q)
    (hchild : (th' p).point.child = (th p).point.child)
    (hmade : (th' p).point.made = (th p).point.made)
    (hpend : (th' p).point.pending = (th p).point.pending)
    (hundo : ∀ r, (th' p).point = .forkUndo r ↔ (th p).point = .forkUndo r) :
    Quiet t t th th' := by
  refine ⟨fun q => .inl rfl, fun _ => rfl, fun _ => rfl, fun _ => rfl, fun _ => rfl, fun q => ?_,
    fun q => ?_, fun q => ?_, fun q r => ?_⟩
  all_goals by_cases hqp : q = p
  all_goals first
    | subst hqp
      simp [*]
    | simp [hth q hqp]

theorem WaitInv.woken (h : WaitInv t) (hu : ∀ q, Woken (t q) (u q)) : WaitInv u := by
  intro p q hs hch hpar
  rw [(hu p).chan] at hch
  rw [(hu q).parent] at hpar
  have hs' : (t p).state = .sleeping := by
    rcases (hu p).state with he | ⟨-, he⟩
    · rw [← he, hs]
    · rw [hs] at he
      cases he
  rcases (hu q).state with he | ⟨-, he⟩
  · rw [he]
    exact h p q hs' hch hpar
  · rw [he]
    nofun

theorem WaitInv.set (h : WaitInv t) (hx : ¬ (x.state = .sleeping ∧ x.chan = some (.proc p)))
    (hz : x.state ≠ .zombie) : WaitInv (t.set p x) := by
  intro r q hs hch hq
  rw [Table.set_apply] at hs hch hq ⊢
  split_ifs at hs hch with hr
  · subst hr
    exact absurd ⟨hs, hch⟩ hx
  · split_ifs at hq ⊢ with hqp
    · exact hz
    · exact h r q hs hch hq

variable {cpu : C → Cpu} {c : C}

theorem Cr3Inv.congr (h : Cr3Inv t th cpu) (hd : ∀ q, (u q).pgdir = (t q).pgdir)
    (hth : ∀ q old, (th q).point = .execSwitch old → (th' q).point = .execSwitch old) :
    Cr3Inv u th' cpu := by
  intro c p hp
  rw [hd]
  refine (h c p hp).imp_right ?_
  rintro ⟨old, hpt, hc⟩
  exact ⟨old, hth p old hpt, hc⟩

theorem Inv.quiet {s s' : Sys C} (h : Inv s) (hq : Quiet s.table s'.table s.thread s'.thread)
    (hcpu : CpuInv s'.table s'.thread s'.cpu s'.lock) (hth : ThreadInv s'.table s'.thread)
    (hw : WaitInv s'.table) (hcr3 : Cr3Inv s'.table s'.thread s'.cpu)
    (hsame : s'.nextpid = s.nextpid ∧ s'.used = s.used ∧ s'.forked = s.forked ∧
      s'.waited = s.waited ∧ s'.kstacks = s.kstacks ∧ s'.pgdirs = s.pgdirs ∧ s'.freed = s.freed) :
    Inv s' := by
  obtain ⟨hn, hu, hf, hwt, hks, hds, hfr⟩ := hsame
  refine ⟨hcpu, hth, hq.forkInv h.fork, hq.treeInv h.tree, hw, ?_, ?_, hcr3, ?_⟩
  · rw [hn, hf, hwt, hks, hds]
    exact hq.pidInv h.pid
  · rw [hu]
    exact h.own.congr hq.held_eq
  · rw [hfr]
    exact h.freed

theorem Inv.woken {s : Sys C} (h : Inv s) (hu : ∀ q, Woken (s.table q) (u q)) :
    Inv (s.setTable u) := by
  exact h.quiet (.of_woken hu) (h.cpu.congr (fun q => (hu q).state) fun q => (hu q).kstack)
    (fun q => (h.thread q).kept (hu q).toKept) (h.wait.woken hu)
    (h.cr3.congr (fun q => (hu q).pgdir) fun _ _ => id) ⟨rfl, rfl, rfl, rfl, rfl, rfl, rfl⟩

variable {s : Sys C}

theorem Inv.state_of_run (h : Inv s) (hc : (s.cpu c).stage = .run) (hp : (s.cpu c).proc = some p) :
    (s.table p).state = .running := by
  rcases h.cpu.busy c p hp with ⟨-, hs, -⟩ | ⟨hs, -⟩
  · exact hs
  · rw [hc] at hs
    cases hs

/-! ## What is freed -/

variable {f : ℕ}

/-- The directory in `cr3` belongs to the process on the CPU. -/
theorem Inv.cr3_owner (h : Inv s) (hc : (s.cpu c).cr3 = some f) :
    ∃ q, (s.cpu c).proc = some q ∧ (held s.table s.thread (.dir q) = some f ∨
      (s.thread q).point = .execSwitch f ∧ held s.table s.thread (.pending q) = some f) := by
  rcases hp : (s.cpu c).proc with _ | q
  · rw [(h.cpu.idle c hp).2.1] at hc
    cases hc
  refine ⟨q, rfl, (h.cr3 c q hp).imp (fun hd => ?_) ?_⟩
  · simp [held, h.cpu.not_early hp, ← hd, hc]
  rintro ⟨old, hpt, hold⟩
  rw [hc] at hold
  obtain rfl : f = old := by simpa using hold
  exact ⟨hpt, by rw [held, hpt]; rfl⟩

theorem Inv.stack_owner (h : Inv s) (hc : (s.cpu c).stack = some f) :
    ∃ q, (s.cpu c).proc = some q ∧ (s.table q).state = .running ∧
      held s.table s.thread (.stack q) = some f := by
  rcases hp : (s.cpu c).proc with _ | q
  · rw [(h.cpu.idle c hp).2.2] at hc
    cases hc
  rcases h.cpu.busy c q hp with ⟨-, hs, hk, -⟩ | ⟨-, -, hk, -⟩
  · exact ⟨q, rfl, hs, by rw [held, ← hk, hc]⟩
  · rw [hc] at hk
    cases hk

/-- No CPU uses a directory that `fork` or `exec` holds, but in `exec` before `switchuvm`. -/
theorem Inv.pending_unloaded (h : Inv s) (hf : (s.thread p).point.pending = some f)
    (hk : ∀ old, (s.thread p).point ≠ .execSwitch old) (c : C) :
    (s.cpu c).cr3 ≠ some f ∧ (s.cpu c).stack ≠ some f := by
  have hown : held s.table s.thread (.pending p) = some f := hf
  constructor
  · intro hc
    obtain ⟨q, -, hd | ⟨hpt, hq⟩⟩ := h.cr3_owner hc
    · cases h.own.inj hd hown
    · cases h.own.inj hq hown
      exact hk f hpt
  · intro hc
    obtain ⟨q, -, -, hs⟩ := h.stack_owner hc
    cases h.own.inj hs hown

/-- No CPU uses the stack of a process that is not running. -/
theorem Inv.stack_unloaded (h : Inv s) (hf : (s.table p).kstack = some f)
    (hp : (s.table p).state ≠ .running) (c : C) :
    (s.cpu c).cr3 ≠ some f ∧ (s.cpu c).stack ≠ some f := by
  have hown : held s.table s.thread (.stack p) = some f := hf
  constructor
  · intro hc
    obtain ⟨q, -, hd | ⟨-, hq⟩⟩ := h.cr3_owner hc
    · cases h.own.inj hd hown
    · cases h.own.inj hq hown
  · intro hc
    obtain ⟨q, -, hrun, hs⟩ := h.stack_owner hc
    cases h.own.inj hs hown
    exact hp hrun

/-- No CPU uses the directory of a zombie, once the CPU it died on has given the lock back. -/
theorem Inv.dir_unloaded (h : Inv s) (hf : (s.table p).pgdir = some f)
    (hp : (s.table p).state = .zombie) (hl : ∀ c, s.lock = some c → (s.cpu c).stage = .run) (c : C) :
    (s.cpu c).cr3 ≠ some f ∧ (s.cpu c).stack ≠ some f := by
  have hown : held s.table s.thread (.dir p) = some f := by simp [held, hp, PState.early, hf]
  constructor
  · intro hc
    obtain ⟨q, hc, hd | ⟨-, hq⟩⟩ := h.cr3_owner hc
    · cases h.own.inj hd hown
      exact h.cpu.off_of_zombie hp hl c hc
    · cases h.own.inj hq hown
  · intro hc
    obtain ⟨q, -, -, hs⟩ := h.stack_owner hc
    cases h.own.inj hs hown

theorem FreedInv.cons {freed : List (ℕ × (C → Cpu))} (h : FreedInv freed)
    (hf : ∀ c, (cpu c).cr3 ≠ some f ∧ (cpu c).stack ≠ some f) : FreedInv ((f, cpu) :: freed) := by
  intro x hx
  rcases List.mem_cons.1 hx with rfl | hx
  · exact hf
  · exact h x hx

/-! ## Context switches -/

section

variable [DecidableEq C]

theorem set_pgdir (hd : x.pgdir = (t p).pgdir) (q : Slot) : (t.set p x q).pgdir = (t q).pgdir := by
  rw [Table.set_apply]
  split_ifs with hq
  · rw [hq, hd]
  · rfl

theorem set_kept (q : Slot) (hq : q ≠ p) : Kept (t q) (t.set p x q) := by
  rw [Table.set_apply, if_neg hq]
  exact .refl _

theorem Cr3Inv.setCpu (h : Cr3Inv t th cpu) {y : Cpu} (hy : ∀ q, y.proc = some q →
      y.cr3 = (t q).pgdir ∨ ∃ old, (th q).point = .execSwitch old ∧ y.cr3 = some old) :
    Cr3Inv t th (update cpu c y) := by
  intro c' q
  by_cases hc : c' = c
  · rw [hc, update_self]
    exact hy q
  · rw [update_of_ne hc]
    exact h c' q

theorem Inv.dispatch (h : Inv s) {ticks : BitVec 32} {k d : ℕ} (hl : s.lock = none)
    (hc : (s.cpu c).stage = .idle) (hp : s.table.select ticks = some (some p))
    (hk : (s.table p).kstack = some k) (hd : (s.table p).pgdir = some d) :
    Inv (s.dispatch c p k d) := by
  have hr := (Table.select_ready hp).1
  have hmode : (s.thread p).mode ≠ .here ∧ (s.thread p).mode ≠ .gone := by
    rcases (h.thread p).runnable hr with hm | hm | hm <;> rw [hm] <;> exact ⟨nofun, nofun⟩
  have hcpu := h.cpu
  rw [hl] at hcpu
  refine h.quiet ?_ (hcpu.dispatch (d := d) hc hr hmode.1 hk) ?_ ?_ ?_
    ⟨rfl, rfl, rfl, rfl, rfl, rfl, rfl⟩
  · exact Quiet.set (by rw [hr]; rfl) rfl rfl rfl rfl rfl (fun _ _ => rfl) rfl rfl rfl
      fun _ => Iff.rfl
  · refine h.thread.change (p := p) set_kept (fun _ _ => rfl) ?_
    show ThreadOk p (s.table.set p _ p) (s.thread p)
    rw [Table.set_apply, if_pos rfl]
    exact ⟨nofun, fun _ => hmode.2, nofun, nofun, (h.thread p).wait⟩
  · exact h.wait.set (by simp) nofun
  · have hdir := set_pgdir (Proc.setState_pgdir (s.table p) .running)
    refine Cr3Inv.setCpu (t := s.table.setState p .running) (h.cr3.congr hdir fun _ _ => id) ?_
    intro q hq
    obtain rfl : p = q := by simpa [Cpu.enter] using hq
    exact .inl ((hdir p).trans hd).symm

theorem Inv.settle (h : Inv s) (hl : s.lock = some c) (hc : (s.cpu c).stage = .back) :
    Inv (s.settle c) := by
  have hcpu := h.cpu
  rw [hl] at hcpu
  refine h.quiet (.thread (p := initproc) (fun _ _ => rfl) rfl rfl rfl fun _ => Iff.rfl)
    (hcpu.settle hc) h.thread h.wait ?_ ⟨rfl, rfl, rfl, rfl, rfl, rfl, rfl⟩
  exact h.cr3.setCpu nofun

theorem Inv.leave (h : Inv s) (hc : (s.cpu c).stage = .run) (hp : (s.cpu c).proc = some p)
    (hl : ∀ c', s.lock = some c' → c' = c) (hx : x.state = .runnable ∨ x.state = .sleeping)
    (hpid : x.pid = (s.table p).pid) (hpar : x.parent = (s.table p).parent)
    (hk : x.kstack = (s.table p).kstack) (hd : x.pgdir = (s.table p).pgdir)
    (hth : ThreadOk p x ⟨(s.thread p).point, m⟩) (hw : WaitInv (s.table.set p x)) :
    Inv ((s.setProc p x).sched c p m) := by
  have hrun := h.state_of_run hc hp
  have hself : s.table.set p x p = x := by rw [Table.set_apply, if_pos rfl]
  have hupd : ∀ q, q ≠ p → update s.thread p ⟨(s.thread p).point, m⟩ q = s.thread q :=
    fun q hq => update_of_ne hq ..
  refine h.quiet ?_ (h.cpu.leave hc hp hl set_kept ?_) (h.thread.change set_kept hupd ?_) hw ?_
    ⟨rfl, rfl, rfl, rfl, rfl, rfl, rfl⟩
  · refine Quiet.set (by rw [hrun]; rfl) ?_ hpid hpar hk hd hupd ?_ ?_ ?_ ?_
    · rcases hx with hx | hx <;> rw [hx] <;> rfl
    all_goals simp [Sys.sched, Sys.setThread, Sys.setCpu, Sys.setLock, Sys.setProc, Sys.setTable]
  · rw [show ((s.setProc p x).sched c p m).table p = x from hself]
    exact hx.imp_right .inl
  · rw [show ((s.setProc p x).sched c p m).table p = x from hself,
      show ((s.setProc p x).sched c p m).thread p = ⟨(s.thread p).point, m⟩ from update_self ..]
    exact hth
  have hcr3 : Cr3Inv (s.table.set p x) (update s.thread p ⟨(s.thread p).point, m⟩) s.cpu := by
    refine h.cr3.congr (set_pgdir hd) fun q old hq => ?_
    by_cases hqp : q = p
    · subst hqp
      rw [update_self]
      exact hq
    · rw [hupd q hqp]
      exact hq
  exact hcr3.setCpu fun q hq => hcr3 c q hq

/-! ## The lock -/

theorem ThreadOk.of_running {y : Thread} (hx : x.state = .running) (hg : y.mode ≠ .gone)
    (hw : y.mode = .inWait ∨ y.mode = .scan → y.point = .user) : ThreadOk p x y :=
  ⟨by rw [hx]; nofun, fun _ => hg, by rw [hx]; nofun, by rw [hx]; nofun, hw⟩

theorem update_point (q : Slot) : (update th p ⟨(th p).point, m⟩ q).point = (th q).point := by
  by_cases hq : q = p
  · subst hq
    rw [update_self]
  · rw [update_of_ne hq]

omit [DecidableEq C] in
theorem Inv.setMode (h : Inv s) (hc : (s.cpu c).stage = .run) (hp : (s.cpu c).proc = some p)
    {lock : Option C} (hm : m ≠ .gone)
    (hw : m = .inWait ∨ m = .scan → (s.thread p).point = .user)
    (hcpu : CpuInv s.table (update s.thread p ⟨(s.thread p).point, m⟩) s.cpu lock) :
    Inv ((s.setThread p (s.thread p).point m).setLock lock) := by
  refine h.quiet ?_ hcpu ?_ h.wait ?_ ⟨rfl, rfl, rfl, rfl, rfl, rfl, rfl⟩
  · refine Quiet.thread (p := p) (fun q hq => update_of_ne hq ..) ?_ ?_ ?_ fun r => ?_
    all_goals
      rw [show (((s.setThread p (s.thread p).point m).setLock lock).thread p).point = _ from
        update_point p]
  · refine h.thread.change (p := p) (fun _ _ => .refl _) (fun q hq => update_of_ne hq ..) ?_
    rw [show ((s.setThread p (s.thread p).point m).setLock lock).thread p =
      ⟨(s.thread p).point, m⟩ from update_self ..]
    exact .of_running (h.state_of_run hc hp) hm hw
  · refine h.cr3.congr (fun _ => rfl) fun q old hq => ?_
    rw [← hq]
    exact update_point q

theorem Inv.resume (h : Inv s) (hh : Holds s c p m) : Inv (s.resume p) := by
  refine h.setMode hh.stage hh.proc nofun (by simp) (h.cpu.setLock hh.stage hh.proc ?_ ?_)
  · intro c' hc'
    rw [hh.lock]
    exact ⟨fun he => hc' (by simpa using he.symm), nofun⟩
  · simp

omit [DecidableEq C] in
theorem Inv.wake (h : Inv s) (hc : (s.cpu c).stage = .run) (hp : (s.cpu c).proc = some p) :
    Inv (s.wake p) := by
  have hrun := h.state_of_run hc hp
  have hset : ∀ q, s.table.set p (s.table p).wake q = if q = p then (s.table p).wake else s.table q :=
    fun q => Table.set_apply ..
  have hstate : ∀ q, (s.table.set p (s.table p).wake q).state = (s.table q).state := by
    intro q
    rw [hset]
    split_ifs with hq
    · rw [hq]
      rfl
    · rfl
  have hk : ∀ q, (s.table.set p (s.table p).wake q).kstack = (s.table q).kstack := by
    intro q
    rw [hset]
    split_ifs with hq
    · rw [hq]
      rfl
    · rfl
  refine h.quiet ?_ (h.cpu.congr (fun q => .inl (hstate q)) hk) ?_ ?_ ?_
    ⟨rfl, rfl, rfl, rfl, rfl, rfl, rfl⟩
  · exact Quiet.set (by rw [hrun]; rfl) (by rw [show (s.table p).wake.state = _ from hrun]; rfl) rfl
      rfl rfl rfl (fun _ _ => rfl) rfl rfl rfl fun _ => Iff.rfl
  · refine h.thread.change (p := p) set_kept (fun _ _ => rfl) ?_
    refine .of_running ((hstate p).trans hrun) ((h.thread p).running hrun) (h.thread p).wait
  · refine h.wait.set ?_ ?_
    · rw [show (s.table p).wake.state = _ from hrun]
      nofun
    · rw [show (s.table p).wake.state = _ from hrun]
      nofun
  · refine h.cr3.congr (fun q => ?_) fun _ _ => id
    refine set_pgdir ?_ q
    rfl

theorem Inv.reload (h : Inv s) (hp : (s.cpu c).proc = some p) : Inv (s.switchuvm c p) := by
  refine h.quiet (.thread (p := p) (fun _ _ => rfl) rfl rfl rfl fun _ => Iff.rfl)
    (h.cpu.lcr3 hp _) h.thread h.wait ?_ ⟨rfl, rfl, rfl, rfl, rfl, rfl, rfl⟩
  refine h.cr3.setCpu fun q hq => .inl ?_
  obtain rfl : p = q := by
    have hq : (s.cpu c).proc = some q := hq
    rw [hp] at hq
    simpa using hq
  rfl

end

/-! ## Points of the code -/

theorem held_goto (o : Owner) (ho : o ≠ .pending p) :
    held t (update th p ⟨k, m⟩) o = held t th o := by
  cases o with
  | stack q => rfl
  | dir q => rfl
  | pending q =>
    have hq : q ≠ p := by
      rintro rfl
      exact ho rfl
    simp only [held, update_of_ne hq]

theorem held_goto_self : held t (update th p ⟨k, m⟩) (.pending p) = k.pending := by
  simp [held]

theorem held_pass (hk : k.pending = (th p).point.pending) (o : Owner) :
    held t (update th p ⟨k, m⟩) o = held t th o := by
  by_cases ho : o = .pending p
  · rw [ho, held_goto_self, hk]
    rfl
  · exact held_goto o ho

theorem ForkInv.thread (h : ForkInv t th) (hc : ∀ q, (th' q).point.child = (th q).point.child)
    (hm : ∀ q, (th' q).point.made = (th q).point.made) : ForkInv t th' where
  embryo p np := by
    rw [hc]
    exact h.embryo p np
  one p q np := by
    rw [hc, hc]
    exact h.one p q np
  parent np q := by
    rw [hm]
    exact h.parent np q
  made p np d := by
    rw [hm]
    exact h.made p np d

variable {k₀ : Point}

theorem Inv.goto (h : Inv s) (hr : Runs s c p k₀) (hchild : k.child = k₀.child)
    (hmade : k.made = k₀.made) (hundo : ∀ r, k ≠ .forkUndo r ∧ k₀ ≠ .forkUndo r)
    (hcr3 : Cr3Inv s.table (update s.thread p ⟨k, .here⟩) s.cpu)
    {used : ℕ → Bool} (hown : Own (held s.table (update s.thread p ⟨k, .here⟩)) used)
    {freed : List (ℕ × (C → Cpu))} (hfreed : FreedInv freed) :
    Inv { s with
      thread := update s.thread p ⟨k, .here⟩, used := used, freed := freed } := by
  have hpt : (s.thread p).point = k₀ := by rw [hr.thread]
  have hself : update s.thread p ⟨k, .here⟩ p = ⟨k, .here⟩ := update_self ..
  have hother : ∀ q, q ≠ p → update s.thread p ⟨k, .here⟩ q = s.thread q :=
    fun q hq => update_of_ne hq ..
  have hthread : ThreadInv s.table (update s.thread p ⟨k, .here⟩) := by
    refine h.thread.change (p := p) (fun _ _ => .refl _) hother ?_
    rw [hself]
    exact .of_running (h.state_of_run hr.stage hr.proc) nofun (by simp)
  have hfork : ForkInv s.table (update s.thread p ⟨k, .here⟩) := by
    refine h.fork.thread (fun q => ?_) fun q => ?_
    all_goals by_cases hq : q = p
    · rw [hq, hself, hpt, hchild]
    · rw [hother q hq]
    · rw [hq, hself, hpt, hmade]
    · rw [hother q hq]
  have hundo' : ∀ q r, (update s.thread p ⟨k, .here⟩ q).point = .forkUndo r ↔
      (s.thread q).point = .forkUndo r := by
    intro q r
    by_cases hq : q = p
    · rw [hq, hself, hpt]
      exact iff_of_false (hundo r).1 (hundo r).2
    · rw [hother q hq]
  exact ⟨h.cpu.setThread fun _ => by rw [hr.thread], hthread, hfork, h.tree, h.wait,
    h.pid.congr (fun _ => Iff.rfl) (fun _ => rfl) (fun _ => rfl) hundo', hown, hcr3, hfreed⟩

theorem Cr3Inv.goto (h : Cr3Inv t th cpu) (hk : ∀ old, (th p).point ≠ .execSwitch old) :
    Cr3Inv t (update th p ⟨k, m⟩) cpu := by
  refine h.congr (fun _ => rfl) fun q old hq => ?_
  have hqp : q ≠ p := by
    rintro rfl
    exact hk old hq
  rw [update_of_ne hqp]
  exact hq

theorem Runs.not_execSwitch (hr : Runs s c p k₀) (hk : ∀ old, k₀ ≠ .execSwitch old)
    (old : ℕ) : (s.thread p).point ≠ .execSwitch old := by
  rw [hr.thread]
  exact hk old

theorem Inv.takeDir (h : Inv s) {d : ℕ} (hr : Runs s c p k₀) (hd : s.used d = false)
    (hchild : k.child = k₀.child) (hmade : k.made = k₀.made)
    (hundo : ∀ r, k ≠ .forkUndo r ∧ k₀ ≠ .forkUndo r) (hk : ∀ old, k₀ ≠ .execSwitch old)
    (hpend : k.pending = some d) : Inv ((s.take d).goto p k) := by
  refine h.goto hr hchild hmade hundo (h.cr3.goto (hr.not_execSwitch hk)) ?_ h.freed
  exact h.own.take hd (held_goto_self.trans hpend) fun o ho => held_goto o ho

theorem Inv.freeDir (h : Inv s) {d : ℕ} (hr : Runs s c p k₀)
    (hpend : k₀.pending = some d) (hchild : k.child = k₀.child) (hmade : k.made = k₀.made)
    (hundo : ∀ r, k ≠ .forkUndo r ∧ k₀ ≠ .forkUndo r) (hk : ∀ old, k₀ ≠ .execSwitch old)
    (hnone : k.pending = none) : Inv ((s.free d).goto p k) := by
  have hold : held s.table s.thread (.pending p) = some d := by rw [held, hr.thread, hpend]
  refine h.goto hr hchild hmade hundo (h.cr3.goto (hr.not_execSwitch hk)) ?_
    (h.freed.cons fun c => h.pending_unloaded hold (hr.not_execSwitch hk) c)
  exact h.own.drop hold (held_goto_self.trans hnone) fun o ho => held_goto o ho

theorem Inv.pass (h : Inv s) (hr : Runs s c p k₀) (hchild : k.child = k₀.child)
    (hmade : k.made = k₀.made) (hundo : ∀ r, k ≠ .forkUndo r ∧ k₀ ≠ .forkUndo r)
    (hk : ∀ old, k₀ ≠ .execSwitch old) (hpend : k.pending = k₀.pending) : Inv (s.goto p k) := by
  refine h.goto hr hchild hmade hundo (h.cr3.goto (hr.not_execSwitch hk)) ?_ h.freed
  refine h.own.congr (held_pass ?_)
  rw [hpend, hr.thread]

end Xv6.Ptable

import Xv6Cow.Lib.Own
import Xv6Cow.Proc.System

/-!
# Invariants of the process table

The invariants are about parts of the state: who runs where and who holds the lock (`CpuInv`), what a
thread does in each state (`ThreadInv`), the slots that `fork` is filling (`ForkInv`), parents
(`TreeInv`), sleepers in `wait` (`WaitInv`), process numbers (`PidInv`) and frames (`OwnInv`).
-/

namespace Xv6.Ptable

open Function Lts

/-- The states of a process that lives. -/
def PState.alive : PState → Bool
  | .sleeping | .runnable | .running => true
  | _ => false

/-- The states of a slot that is not in use, or is being filled. -/
def PState.early : PState → Bool
  | .unused | .embryo => true
  | _ => false

/-- The slot that `fork` is filling. -/
def Point.child : Point → Option Slot
  | .forkStack np | .forkDir np | .forkCopy np _ | .forkBad np | .forkUndo np | .forkRun np _ =>
    some np
  | _ => none

/-- The directory of a child that is complete. -/
def Point.made : Point → Option (Slot × ℕ)
  | .forkRun np d => some (np, d)
  | _ => none

/-- The directory that `fork` or `exec` holds. -/
def Point.pending : Point → Option ℕ
  | .forkCopy _ d | .forkRun _ d | .execLoad d | .execSwitch d | .execFree d => some d
  | _ => none

variable {C : Type}

/-! ## CPUs -/

/-- Who runs where, and who holds the lock. -/
structure CpuInv (t : Table) (th : Slot → Thread) (cpu : C → Cpu) (lock : Option C) : Prop where
  busy : ∀ c p, (cpu c).proc = some p →
    (cpu c).stage = .run ∧ (t p).state = .running ∧ (cpu c).stack = (t p).kstack ∧
        (lock = some c ↔ (th p).mode ≠ .here) ∨
      (cpu c).stage = .back ∧ ((t p).state = .runnable ∨ (t p).state = .sleeping ∨
        (t p).state = .zombie) ∧ (cpu c).stack = none ∧ lock = some c
  idle : ∀ c, (cpu c).proc = none →
    (cpu c).stage = .idle ∧ (cpu c).cr3 = none ∧ (cpu c).stack = none
  one : ∀ c c' p, (cpu c).proc = some p → (cpu c').proc = some p → c = c'
  onCpu : ∀ p, (t p).state = .running → ∃ c, (cpu c).proc = some p
  holder : ∀ c, lock = some c → (cpu c).proc ≠ none

namespace CpuInv

variable {t u : Table} {th : Slot → Thread} {cpu : C → Cpu} {lock : Option C} {c : C}
  {p q np : Slot} {k : Point} {m : Mode} {x : Proc}

section

variable (h : CpuInv t th cpu lock)

include h

theorem not_early (hp : (cpu c).proc = some p) : (t p).state.early = false := by
  rcases h.busy c p hp with ⟨-, hs, -⟩ | ⟨-, hs | hs | hs, -⟩ <;> rw [hs] <;> rfl

theorem congr
    (hs : ∀ q, (u q).state = (t q).state ∨ (t q).state = .sleeping ∧ (u q).state = .runnable)
    (hk : ∀ q, (u q).kstack = (t q).kstack) : CpuInv u th cpu lock where
  busy c p hp := by
    have := h.busy c p hp
    have := hs p
    rw [hk]
    grind
  idle := h.idle
  one := h.one
  onCpu p hp := by
    refine h.onCpu p ?_
    rcases hs p with hs | ⟨-, hs⟩
    · rw [← hs, hp]
    · rw [hs] at hp
      cases hp
  holder := h.holder

theorem set_off (hoff : ∀ c, (cpu c).proc ≠ some np)
    (hx : x.state ≠ .running) : CpuInv (t.set np x) th cpu lock where
  busy c p hp := by
    have hne : p ≠ np := by
      rintro rfl
      exact hoff c hp
    rw [Table.set_apply, if_neg hne]
    exact h.busy c p hp
  idle := h.idle
  one := h.one
  onCpu p hp := by
    rw [Table.set_apply] at hp
    split_ifs at hp
    · exact absurd hp hx
    · exact h.onCpu p hp
  holder := h.holder

theorem off_of_early (hs : (t np).state.early = true) (c : C) : (cpu c).proc ≠ some np := by
  intro hp
  rw [h.not_early hp] at hs
  cases hs

/-- The CPU of a zombie holds the lock until it is back in `scheduler`. -/
theorem off_of_zombie (hs : (t np).state = .zombie)
    (hl : ∀ c, lock = some c → (cpu c).stage = .run) (c : C) : (cpu c).proc ≠ some np := by
  intro hp
  rcases h.busy c np hp with ⟨-, hrun, -⟩ | ⟨hback, -, -, hlock⟩
  · rw [hs] at hrun
    cases hrun
  · rw [hl c hlock] at hback
    cases hback

theorem setThread (hm : (t p).state = .running → ((th p).mode = .here ↔ m = .here)) :
    CpuInv t (update th p ⟨k, m⟩) cpu lock where
  busy c q hq := by
    by_cases hqp : q = p
    · subst hqp
      have := h.busy c q hq
      rw [update_self]
      grind
    · rw [update_of_ne hqp]
      exact h.busy c q hq
  idle := h.idle
  one := h.one
  onCpu := h.onCpu
  holder := h.holder

end

variable [DecidableEq C]

theorem dispatch (h : CpuInv t th cpu none) {k d : ℕ} (hc : (cpu c).stage = .idle)
    (hp : (t p).state = .runnable) (hm : (th p).mode ≠ .here) (hk : (t p).kstack = some k) :
    CpuInv (t.setState p .running) th (update cpu c ((cpu c).enter p k d)) (some c) := by
  -- nobody runs the process, for it is not running and the lock is free
  have hoff : ∀ c', (cpu c').proc ≠ some p := by
    intro c' hc'
    rcases h.busy c' p hc' with ⟨-, hs, -⟩ | ⟨-, -, -, hl⟩
    · rw [hp] at hs
      cases hs
    · cases hl
  have hcpu : ∀ c', update cpu c ((cpu c).enter p k d) c' =
      if c' = c then (cpu c).enter p k d else cpu c' := fun c' => update_apply ..
  have ht : ∀ q, t.setState p .running q = if q = p then (t p).setState .running else t q :=
    fun q => Table.set_apply ..
  refine ⟨fun c' q hq => ?_, fun c' hc' => ?_, fun c1 c2 q h1 h2 => ?_, fun q hq => ?_,
    fun c' hc' => ?_⟩
  · rw [hcpu] at hq ⊢
    rw [ht]
    split_ifs at hq with hcc
    · obtain rfl : p = q := by simpa [Cpu.enter] using hq
      left
      simp [hcc, Cpu.enter, hk, hm]
    have hqp : q ≠ p := by
      rintro rfl
      exact hoff c' hq
    have := h.busy c' q hq
    simp only [hcc, if_false, hqp]
    rcases this with ⟨hst, hs, hk', hl⟩ | ⟨-, -, -, hl⟩
    · refine .inl ⟨hst, hs, hk', ?_⟩
      simp only [Option.some.injEq, Ne.symm hcc, false_iff]
      simpa using hl
    · cases hl
  · rw [hcpu] at hc' ⊢
    split_ifs at hc' ⊢ with hcc
    · cases hc'
    · exact h.idle c' hc'
  · rw [hcpu] at h1 h2
    split_ifs at h1 h2 with hc1 hc2 hc2
    · rw [hc1, hc2]
    · obtain rfl : p = q := by simpa [Cpu.enter] using h1
      exact absurd h2 (hoff c2)
    · obtain rfl : p = q := by simpa [Cpu.enter] using h2
      exact absurd h1 (hoff c1)
    · exact h.one c1 c2 q h1 h2
  · rw [ht] at hq
    split_ifs at hq with hqp
    · exact ⟨c, by simp [Cpu.enter, hqp]⟩
    obtain ⟨c', hc'⟩ := h.onCpu q hq
    refine ⟨c', ?_⟩
    rw [hcpu, if_neg, hc']
    rintro rfl
    rcases h.busy c' q hc' with ⟨hs, -⟩ | ⟨hs, -⟩ <;> rw [hc] at hs <;> cases hs
  · obtain rfl : c = c' := by simpa using hc'
    simp [Cpu.enter]

/-- `sched`, up to `swtch`: the process is not running any more, and the lock stays. -/
theorem leave (h : CpuInv t th cpu lock) (hc : (cpu c).stage = .run) (hp : (cpu c).proc = some p)
    (hl : ∀ c', lock = some c' → c' = c) (hu : ∀ q, q ≠ p → Kept (t q) (u q))
    (hs : (u p).state = .runnable ∨ (u p).state = .sleeping ∨ (u p).state = .zombie) :
    CpuInv u (update th p ⟨k, m⟩) (update cpu c (cpu c).leave) (some c) := by
  have hcpu : ∀ c', update cpu c (cpu c).leave c' =
      if c' = c then (cpu c).leave else cpu c' := fun c' => update_apply ..
  have hproc : ∀ c', (update cpu c (cpu c).leave c').proc = (cpu c').proc := by
    intro c'
    rw [hcpu]
    split_ifs with hcc
    · rw [hcc]
      rfl
    · rfl
  refine ⟨fun c' q hq => ?_, fun c' hc' => ?_, fun c1 c2 q h1 h2 => ?_, fun q hq => ?_,
    fun c' hc' => ?_⟩
  · rw [hproc] at hq
    rw [hcpu]
    split_ifs with hcc
    · obtain rfl : p = q := by
        rw [hcc, hp] at hq
        simpa using hq
      exact .inr ⟨rfl, hs, rfl, by rw [hcc]⟩
    have hqp : q ≠ p := by
      rintro rfl
      exact hcc (h.one c' c q hq hp)
    have hk := hu q hqp
    rw [update_of_ne hqp]
    rcases h.busy c' q hq with ⟨hst, hrun, hstack, hlock⟩ | ⟨-, -, -, hlock⟩
    · refine .inl ⟨hst, ?_, hstack.trans hk.kstack.symm, ?_⟩
      · rcases hk.state with h' | ⟨h', -⟩
        · rw [h', hrun]
        · rw [hrun] at h'
          cases h'
      rw [← hlock]
      constructor
      · intro he
        exact absurd (by simpa using he.symm) hcc
      · intro he
        exact absurd (hl c' he) hcc
    · exact absurd (hl c' hlock) hcc
  · rw [hproc] at hc'
    rw [hcpu, if_neg]
    · exact h.idle c' hc'
    · rintro rfl
      rw [hp] at hc'
      cases hc'
  · rw [hproc] at h1 h2
    exact h.one c1 c2 q h1 h2
  · have hqp : q ≠ p := by
      rintro rfl
      rw [hq] at hs
      simp at hs
    obtain ⟨c', hc'⟩ := h.onCpu q (by
      rcases (hu q hqp).state with h' | ⟨-, h'⟩
      · rw [← h', hq]
      · rw [hq] at h'
        cases h')
    exact ⟨c', by rw [hproc, hc']⟩
  · obtain rfl : c = c' := by simpa using hc'
    rw [hproc, hp]
    nofun

theorem settle (h : CpuInv t th cpu (some c)) (hc : (cpu c).stage = .back) :
    CpuInv t th (update cpu c (cpu c).settle) none := by
  have hcpu : ∀ c', update cpu c (cpu c).settle c' =
      if c' = c then (cpu c).settle else cpu c' := fun c' => update_apply ..
  have hstack : (cpu c).stack = none := by
    rcases hp : (cpu c).proc with _ | p
    · exact (h.idle c hp).2.2
    rcases h.busy c p hp with ⟨hs, -⟩ | ⟨-, -, hs, -⟩
    · rw [hc] at hs
      cases hs
    · exact hs
  refine ⟨fun c' q hq => ?_, fun c' hc' => ?_, fun c1 c2 q h1 h2 => ?_, fun q hq => ?_, nofun⟩
  · rw [hcpu] at hq ⊢
    split_ifs at hq ⊢ with hcc
    · cases hq
    rcases h.busy c' q hq with ⟨hst, hs, hk, hl⟩ | ⟨-, -, -, hl⟩
    · refine .inl ⟨hst, hs, hk, ?_⟩
      rw [← hl]
      simp [Ne.symm hcc]
    · exact absurd (by simpa using hl.symm) hcc
  · rw [hcpu] at hc' ⊢
    split_ifs at hc' ⊢ with hcc
    · exact ⟨rfl, rfl, hstack⟩
    · exact h.idle c' hc'
  · rw [hcpu] at h1 h2
    split_ifs at h1 h2
    · cases h1
    · cases h1
    · cases h2
    · exact h.one c1 c2 q h1 h2
  · obtain ⟨c', hc'⟩ := h.onCpu q hq
    refine ⟨c', ?_⟩
    rw [hcpu, if_neg, hc']
    rintro rfl
    rcases h.busy c' q hc' with ⟨hs, -⟩ | ⟨-, hs, -⟩
    · rw [hc] at hs
      cases hs
    · rw [hq] at hs
      simp at hs

theorem setLock (h : CpuInv t th cpu lock) (hc : (cpu c).stage = .run) (hp : (cpu c).proc = some p)
    {lock' : Option C} (hl : ∀ c', c' ≠ c → lock ≠ some c' ∧ lock' ≠ some c')
    (hm : lock' = some c ↔ m ≠ .here) : CpuInv t (update th p ⟨k, m⟩) cpu lock' := by
  refine ⟨fun c' q hq => ?_, h.idle, h.one, h.onCpu, fun c' hc' => ?_⟩
  · by_cases hcc : c' = c
    · subst hcc
      obtain rfl : p = q := by
        rw [hp] at hq
        simpa using hq
      rcases h.busy c' p hq with ⟨hst, hs, hk, -⟩ | ⟨hst, -⟩
      · exact .inl ⟨hst, hs, hk, by rw [update_self, hm]⟩
      · rw [hc] at hst
        cases hst
    · have hqp : q ≠ p := by
        rintro rfl
        exact hcc (h.one c' c q hq hp)
      obtain ⟨hl1, hl2⟩ := hl c' hcc
      rw [update_of_ne hqp]
      rcases h.busy c' q hq with ⟨hst, hs, hk, hlock⟩ | ⟨-, -, -, hlock⟩
      · refine .inl ⟨hst, hs, hk, ?_⟩
        rw [← hlock]
        exact iff_of_false hl2 hl1
      · exact absurd hlock hl1
  · by_cases hcc : c' = c
    · rw [hcc, hp]
      nofun
    · exact absurd hc' (hl c' hcc).2

theorem lcr3 (h : CpuInv t th cpu lock) (hp : (cpu c).proc = some p) (d : Option ℕ) :
    CpuInv t th (update cpu c ((cpu c).lcr3 d)) lock := by
  have hcpu : ∀ c', update cpu c ((cpu c).lcr3 d) c' =
      if c' = c then (cpu c).lcr3 d else cpu c' := fun c' => update_apply ..
  have hsame : ∀ c', (update cpu c ((cpu c).lcr3 d) c').proc = (cpu c').proc ∧
      (update cpu c ((cpu c).lcr3 d) c').stage = (cpu c').stage ∧
      (update cpu c ((cpu c).lcr3 d) c').stack = (cpu c').stack := by
    intro c'
    rw [hcpu]
    split_ifs with hcc
    · rw [hcc]
      exact ⟨rfl, rfl, rfl⟩
    · exact ⟨rfl, rfl, rfl⟩
  refine ⟨fun c' q hq => ?_, fun c' hc' => ?_, fun c1 c2 q h1 h2 => ?_, fun q hq => ?_,
    fun c' hc' => ?_⟩
  · obtain ⟨hproc, hstage, hstack⟩ := hsame c'
    rw [hproc] at hq
    rw [hstage, hstack]
    exact h.busy c' q hq
  · rw [(hsame c').1] at hc'
    rw [hcpu, if_neg]
    · exact h.idle c' hc'
    · rintro rfl
      rw [hp] at hc'
      cases hc'
  · rw [(hsame _).1] at h1 h2
    exact h.one c1 c2 q h1 h2
  · obtain ⟨c', hc'⟩ := h.onCpu q hq
    exact ⟨c', by rw [(hsame c').1, hc']⟩
  · rw [(hsame c').1]
    exact h.holder c' hc'

end CpuInv

/-- What the thread of a process does in each of its states. -/
structure ThreadOk (p : Slot) (x : Proc) (y : Thread) : Prop where
  gone : x.state.alive = false → y = ⟨.user, .gone⟩
  running : x.state = .running → y.mode ≠ .gone
  runnable : x.state = .runnable → y.mode = .yielded ∨ y.mode = .slept ∨ y.mode = .inWait
  sleeping : x.state = .sleeping →
    y.mode = .slept ∧ (∃ n, x.chan = some (.other n)) ∨
      y.mode = .inWait ∧ x.chan = some (.proc p)
  wait : y.mode = .inWait ∨ y.mode = .scan → y.point = .user

theorem ThreadOk.kept {p : Slot} {x x' : Proc} {y : Thread} (h : ThreadOk p x y) (hk : Kept x x') :
    ThreadOk p x' y := by
  obtain ⟨hs | ⟨hs, hs'⟩, -, hch, -, -⟩ := hk
  · exact ⟨hs ▸ h.gone, hs ▸ h.running, hs ▸ h.runnable, by rw [hs, hch]; exact h.sleeping, h.wait⟩
  · have hm := h.sleeping hs
    refine ⟨by rw [hs']; nofun, by rw [hs']; nofun, fun _ => ?_, by rw [hs']; nofun, h.wait⟩
    exact hm.elim (fun hm => .inr (.inl hm.1)) fun hm => .inr (.inr hm.1)

def ThreadInv (t : Table) (th : Slot → Thread) : Prop := ∀ p, ThreadOk p (t p) (th p)

/-- One process changes; the others are woken at most. -/
theorem ThreadInv.change {t u : Table} {th th' : Slot → Thread} {p : Slot} (h : ThreadInv t th)
    (hu : ∀ q, q ≠ p → Kept (t q) (u q)) (hth : ∀ q, q ≠ p → th' q = th q)
    (hp : ThreadOk p (u p) (th' p)) : ThreadInv u th' := by
  intro q
  by_cases hq : q = p
  · rw [hq]
    exact hp
  · rw [hth q hq]
    exact (h q).kept (hu q hq)

/-! ## Slots and what belongs to them -/

/-- The slots that `fork` is filling. -/
structure ForkInv (t : Table) (th : Slot → Thread) : Prop where
  embryo : ∀ p np, (th p).point.child = some np → (t np).state = .embryo
  one : ∀ p q np, (th p).point.child = some np → (th q).point.child = some np → p = q
  parent : ∀ np q, (t np).state.early = true → (t np).parent = some q →
    ∃ d, (th q).point.made = some (np, d)
  made : ∀ p np d, (th p).point.made = some (np, d) →
    (t np).parent = some p ∧ (t np).pgdir = some d

/-- Parents live, and nobody is its own parent. -/
structure TreeInv (t : Table) : Prop where
  init : (t initproc).state.alive = true
  root : (t initproc).parent = none
  irrefl : ∀ p, (t p).parent ≠ some p
  parent : ∀ p, (t p).state.early = false → p ≠ initproc →
    ∃ q, (t p).parent = some q ∧ (t q).state.alive = true

theorem TreeInv.congr {t u : Table} (h : TreeInv t) (hpar : ∀ q, (u q).parent = (t q).parent)
    (halive : ∀ q, (u q).state.alive = (t q).state.alive)
    (he : ∀ q, (u q).state.early = (t q).state.early) : TreeInv u where
  init := by
    rw [halive]
    exact h.init
  root := by
    rw [hpar]
    exact h.root
  irrefl p := by
    rw [hpar]
    exact h.irrefl p
  parent p hp hne := by
    rw [he] at hp
    obtain ⟨q, hq, hlive⟩ := h.parent p hp hne
    exact ⟨q, by rw [hpar, hq], by rw [halive, hlive]⟩

/-- No process sleeps in `wait` while a child of it is a zombie. -/
def WaitInv (t : Table) : Prop :=
  ∀ p q, (t p).state = .sleeping → (t p).chan = some (.proc p) → (t q).parent = some p →
    (t q).state ≠ .zombie

/-- Process numbers, and what has been done for each of them. -/
structure PidInv (t : Table) (th : Slot → Thread) (nextpid : ℕ) (forked : List ℕ)
    (waited : List Wait) (kstacks pgdirs : List ℕ) : Prop where
  lt : ∀ p, (t p).state ≠ .unused → (t p).pid < nextpid
  one : ∀ p q, (t p).state ≠ .unused → (t q).state ≠ .unused → (t p).pid = (t q).pid → p = q
  waitedLt : ∀ n ∈ waited.map Wait.pid, n < nextpid
  waitedDead : ∀ p, (t p).state ≠ .unused → (t p).pid ∉ waited.map Wait.pid
  waitedOnce : (waited.map Wait.pid).Nodup
  waiter : ∀ w ∈ waited, w.parent = some w.waiter
  forked : ∀ n ∈ forked, (∃ p, (t p).state.early = false ∧ (t p).pid = n) ∨ n ∈ waited.map Wait.pid
  kstacksLt : ∀ n ∈ kstacks, n < nextpid
  pgdirsLt : ∀ n ∈ pgdirs, n < nextpid
  /-- Only `fork` can free the stack of a process that is still there. -/
  kstacksDead : ∀ p, (t p).state ≠ .unused → (∀ q, (th q).point ≠ .forkUndo p) →
    (t p).pid ∉ kstacks
  pgdirsDead : ∀ p, (t p).state ≠ .unused → (t p).pid ∉ pgdirs
  waitedFrees : ∀ n ∈ waited.map Wait.pid, kstacks.count n = 1 ∧ pgdirs.count n = 1

theorem PidInv.congr {t u : Table} {th th' : Slot → Thread} {n : ℕ} {fs : List ℕ} {ws : List Wait}
    {ks ds : List ℕ} (h : PidInv t th n fs ws ks ds)
    (hun : ∀ q, (u q).state = .unused ↔ (t q).state = .unused)
    (he : ∀ q, (u q).state.early = (t q).state.early) (hpid : ∀ q, (u q).pid = (t q).pid)
    (hundo : ∀ q p, (th' q).point = .forkUndo p ↔ (th q).point = .forkUndo p) :
    PidInv u th' n fs ws ks ds where
  lt p := by
    rw [Ne, hun, hpid]
    exact h.lt p
  one p q := by
    rw [Ne, Ne, hun, hun, hpid, hpid]
    exact h.one p q
  waitedLt := h.waitedLt
  waitedDead p := by
    rw [Ne, hun, hpid]
    exact h.waitedDead p
  waitedOnce := h.waitedOnce
  waiter := h.waiter
  forked n hn := by
    refine (h.forked n hn).imp_left ?_
    rintro ⟨p, hp, hn⟩
    exact ⟨p, by rw [he, hp], by rw [hpid, hn]⟩
  kstacksLt := h.kstacksLt
  pgdirsLt := h.pgdirsLt
  kstacksDead p hp hu := by
    rw [Ne, hun] at hp
    rw [hpid]
    exact h.kstacksDead p hp fun q hq => hu q ((hundo q p).2 hq)
  pgdirsDead p := by
    rw [Ne, hun, hpid]
    exact h.pgdirsDead p
  waitedFrees := h.waitedFrees

inductive Owner
  | stack (p : Slot)
  | dir (p : Slot)
  | pending (p : Slot)
deriving DecidableEq

/-- The frames a process holds: the directory of a slot that is not filled yet is an old one. -/
def held (t : Table) (th : Slot → Thread) : Owner → Option ℕ
  | .stack p => (t p).kstack
  | .dir p => if (t p).state.early then none else (t p).pgdir
  | .pending p => (th p).point.pending

/-- The register holds the directory of the process, or in `exec` the one it is about to free. -/
def Cr3Inv (t : Table) (th : Slot → Thread) (cpu : C → Cpu) : Prop :=
  ∀ c p, (cpu c).proc = some p →
    (cpu c).cr3 = (t p).pgdir ∨ ∃ old, (th p).point = .execSwitch old ∧ (cpu c).cr3 = some old

/-- No CPU used what was freed. -/
def FreedInv (freed : List (ℕ × (C → Cpu))) : Prop :=
  ∀ x ∈ freed, ∀ c, (x.2 c).cr3 ≠ some x.1 ∧ (x.2 c).stack ≠ some x.1

/-- The slots in use and what belongs to them stay the same. -/
structure Quiet (t u : Table) (th th' : Slot → Thread) : Prop where
  state : ∀ q, (u q).state = (t q).state ∨ (t q).state.alive = true ∧ (u q).state.alive = true
  pid : ∀ q, (u q).pid = (t q).pid
  parent : ∀ q, (u q).parent = (t q).parent
  kstack : ∀ q, (u q).kstack = (t q).kstack
  pgdir : ∀ q, (u q).pgdir = (t q).pgdir
  child : ∀ q, (th' q).point.child = (th q).point.child
  made : ∀ q, (th' q).point.made = (th q).point.made
  pending : ∀ q, (th' q).point.pending = (th q).point.pending
  undo : ∀ q p, (th' q).point = .forkUndo p ↔ (th q).point = .forkUndo p

namespace Quiet

variable {t u : Table} {th th' : Slot → Thread} (h : Quiet t u th th') {p q : Slot}
include h

theorem early (q : Slot) : (u q).state.early = (t q).state.early := by
  rcases h.state q with hs | ⟨h1, h2⟩
  · rw [hs]
  · cases hx : (t q).state <;> cases hy : (u q).state <;> simp_all [PState.alive, PState.early]

theorem alive (q : Slot) : (u q).state.alive = (t q).state.alive := by
  rcases h.state q with hs | ⟨h1, h2⟩
  · rw [hs]
  · rw [h1, h2]

theorem embryo (q : Slot) : (u q).state = .embryo ↔ (t q).state = .embryo := by
  rcases h.state q with hs | ⟨h1, h2⟩
  · rw [hs]
  · constructor <;> intro he <;> simp_all [PState.alive]

theorem unused (q : Slot) : (u q).state = .unused ↔ (t q).state = .unused := by
  rcases h.state q with hs | ⟨h1, h2⟩
  · rw [hs]
  · constructor <;> intro he <;> simp_all [PState.alive]

theorem forkInv (hf : ForkInv t th) : ForkInv u th' where
  embryo p np hc := by
    rw [h.child] at hc
    rw [h.embryo]
    exact hf.embryo p np hc
  one p q np hp hq := by
    rw [h.child] at hp hq
    exact hf.one p q np hp hq
  parent np q he hp := by
    rw [h.early] at he
    rw [h.parent] at hp
    rw [h.made]
    exact hf.parent np q he hp
  made p np d hm := by
    rw [h.made] at hm
    rw [h.parent, h.pgdir]
    exact hf.made p np d hm

theorem treeInv (ht : TreeInv t) : TreeInv u := ht.congr h.parent h.alive h.early

theorem pidInv {n : ℕ} {fs : List ℕ} {ws : List Wait} {ks ds : List ℕ}
    (hi : PidInv t th n fs ws ks ds) : PidInv u th' n fs ws ks ds :=
  hi.congr h.unused h.early h.pid h.undo

theorem held_eq (o : Owner) : held u th' o = held t th o := by
  cases o with
  | stack p => exact h.kstack p
  | dir p => simp only [held, h.early, h.pgdir]
  | pending p => exact h.pending p

end Quiet

end Xv6.Ptable

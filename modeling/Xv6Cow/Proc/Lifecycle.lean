import Xv6Cow.Proc.Safety

/-!
# Processes begin and end

The steps of `fork`, `exec`, `exit` and `wait` keep the invariants of the process table, and so does
every run from `boot`.  While `fork` fills a slot nobody else looks at it: the slot is not `RUNNABLE`,
no CPU is on it, and no other process has it as child.
-/

namespace Xv6.Ptable

open Function Lts

variable {C : Type} {t u : Table} {th th' : Slot → Thread} {p q np : Slot} {k k₀ : Point} {m : Mode}
  {x : Proc}

/-! ## A slot changes -/

theorem PState.of_early {y : PState} (h : y.early = true) :
    y.alive = false ∧ y ≠ .sleeping ∧ y ≠ .zombie ∧ y ≠ .running := by
  cases y with
  | unused | embryo => exact ⟨rfl, nofun, nofun, nofun⟩
  | _ => cases h

theorem Point.child_of_made {d : ℕ} (h : k.made = some (np, d)) : k.child = some np := by
  cases k with
  | forkRun np' d' =>
    obtain ⟨rfl, rfl⟩ : np' = np ∧ d' = d := by simpa [Point.made] using h
    rfl
  | _ => cases h

theorem ForkInv.fill (h : ForkInv t th) (hothers : ∀ q, q ≠ p → (th q).point.child ≠ some np)
    (hold : ∀ r, (th p).point.child = some r → r = np)
    (hchild : ∀ r, k.child = some r → r = np ∧ x.state = .embryo)
    (hpar : ∀ q, x.state.early = true → x.parent = some q → q = p ∧ ∃ d, k.made = some (np, d))
    (hmade : ∀ d, k.made = some (np, d) → x.parent = some p ∧ x.pgdir = some d) :
    ForkInv (t.set np x) (update th p ⟨k, m⟩) := by
  have hself : update th p ⟨k, m⟩ p = ⟨k, m⟩ := update_self ..
  have hother : ∀ q, q ≠ p → update th p ⟨k, m⟩ q = th q := fun q hq => update_of_ne hq ..
  refine ⟨fun q r hq => ?_, fun q q' r hq hq' => ?_, fun r q hr hq => ?_, fun q r d hq => ?_⟩
  · by_cases hqp : q = p
    · rw [hqp, hself] at hq
      obtain ⟨rfl, hx⟩ := hchild r hq
      rw [Table.set_apply, if_pos rfl, hx]
    rw [hother q hqp] at hq
    have hr : r ≠ np := by
      rintro rfl
      exact hothers q hqp hq
    rw [Table.set_apply, if_neg hr]
    exact h.embryo q r hq
  · by_cases hqp : q = p <;> by_cases hqp' : q' = p
    · rw [hqp, hqp']
    · rw [hqp, hself] at hq
      rw [hother q' hqp'] at hq'
      obtain ⟨rfl, -⟩ := hchild r hq
      exact absurd hq' (hothers q' hqp')
    · rw [hqp', hself] at hq'
      rw [hother q hqp] at hq
      obtain ⟨rfl, -⟩ := hchild r hq'
      exact absurd hq (hothers q hqp)
    · rw [hother q hqp] at hq
      rw [hother q' hqp'] at hq'
      exact h.one q q' r hq hq'
  · rw [Table.set_apply] at hr hq
    split_ifs at hr hq with hrn
    · obtain ⟨rfl, d, hd⟩ := hpar q hr hq
      exact ⟨d, by rw [hself, hrn, hd]⟩
    obtain ⟨d, hd⟩ := h.parent r q hr hq
    have hqp : q ≠ p := by
      rintro rfl
      exact hrn (hold r (Point.child_of_made hd))
    exact ⟨d, by rw [hother q hqp, hd]⟩
  · by_cases hqp : q = p
    · rw [hqp, hself] at hq
      obtain ⟨rfl, -⟩ := hchild r (Point.child_of_made hq)
      rw [Table.set_apply, if_pos rfl, hqp]
      exact hmade d hq
    rw [hother q hqp] at hq
    have hr : r ≠ np := by
      rintro rfl
      exact hothers q hqp (Point.child_of_made hq)
    rw [Table.set_apply, if_neg hr]
    exact h.made q r d hq

theorem TreeInv.set (h : TreeInv t) (hnp : (t np).state.alive = false) (hirr : x.parent ≠ some np)
    (hx : x.state.early = false → ∃ q, x.parent = some q ∧ (t q).state.alive = true) :
    TreeInv (t.set np x) := by
  have hlive : ∀ q, (t q).state.alive = true → t.set np x q = t q := by
    intro q hq
    rw [Table.set_apply, if_neg]
    rintro rfl
    rw [hnp] at hq
    cases hq
  refine ⟨by rw [hlive _ h.init]; exact h.init, by rw [hlive _ h.init]; exact h.root, fun q => ?_,
    fun q he hq => ?_⟩
  · rw [Table.set_apply]
    split_ifs with hqn
    · rw [hqn]
      exact hirr
    · exact h.irrefl q
  have hpar : ∃ r, (t.set np x q).parent = some r ∧ (t r).state.alive = true := by
    rw [Table.set_apply] at he ⊢
    split_ifs at he ⊢ with hqn
    · exact hx he
    · exact h.parent q he hq
  obtain ⟨r, hr, halive⟩ := hpar
  exact ⟨r, hr, by rw [hlive r halive, halive]⟩

variable {ws : List Wait} {ks ds : List ℕ} {fs : List ℕ} {n : ℕ}

theorem PidInv.fill (h : PidInv t th n fs ws ks ds) (hnp : (t np).state.early = true)
    (hx : x.state ≠ .unused → (t np).state ≠ .unused ∧ x.pid = (t np).pid)
    (hundo : ∀ q r, (th q).point = .forkUndo r →
      (th' q).point = .forkUndo r ∨ r = np ∧ x.state = .unused) :
    PidInv (t.set np x) th' n fs ws ks ds := by
  -- a slot in use afterwards was in use before, with the same number
  have hold : ∀ q, (t.set np x q).state ≠ .unused →
      (t q).state ≠ .unused ∧ (t.set np x q).pid = (t q).pid := by
    intro q hq
    rw [Table.set_apply] at hq ⊢
    split_ifs at hq ⊢ with hqn
    · rw [hqn]
      exact hx hq
    · exact ⟨hq, rfl⟩
  refine ⟨fun q hq => ?_, fun q r hq hr he => ?_, h.waitedLt, fun q hq => ?_, h.waitedOnce, h.waiter,
    fun n hn => ?_, h.kstacksLt, h.pgdirsLt, fun q hq hu => ?_, fun q hq => ?_, h.waitedFrees⟩
  · rw [(hold q hq).2]
    exact h.lt q (hold q hq).1
  · rw [(hold q hq).2, (hold r hr).2] at he
    exact h.one q r (hold q hq).1 (hold r hr).1 he
  · rw [(hold q hq).2]
    exact h.waitedDead q (hold q hq).1
  · refine (h.forked n hn).imp_left ?_
    rintro ⟨q, hq, hpid⟩
    have hqn : q ≠ np := by
      rintro rfl
      rw [hnp] at hq
      cases hq
    exact ⟨q, by rw [Table.set_apply, if_neg hqn, hq], by rw [Table.set_apply, if_neg hqn, hpid]⟩
  · rw [(hold q hq).2]
    refine h.kstacksDead q (hold q hq).1 fun r hr => ?_
    rcases hundo r q hr with hr' | ⟨rfl, hun⟩
    · exact hu r hr'
    · rw [Table.set_apply, if_pos rfl] at hq
      exact hq hun
  · rw [(hold q hq).2]
    exact h.pgdirsDead q (hold q hq).1

theorem PidInv.alloc (h : PidInv t th n fs ws ks ds) (hnp : (t np).state = .unused)
    (hundo : ∀ q r, (th q).point = .forkUndo r → (th' q).point = .forkUndo r) :
    PidInv (t.set np ((t np).embryo n)) th' (n + 1) fs ws ks ds := by
  have hself : (t.set np ((t np).embryo n) np).pid = n := by
    rw [Table.set_apply, if_pos rfl]
    rfl
  have hother : ∀ q, q ≠ np → t.set np ((t np).embryo n) q = t q := by
    intro q hq
    rw [Table.set_apply, if_neg hq]
  have hlt : ∀ q, q ≠ np → (t.set np ((t np).embryo n) q).state ≠ .unused →
      (t.set np ((t np).embryo n) q).pid < n := by
    intro q hqn hq
    rw [hother q hqn] at hq ⊢
    exact h.lt q hq
  have hnew : ∀ {l : List ℕ}, (∀ a ∈ l, a < n) → n ∉ l := fun hl hn => absurd (hl n hn) (lt_irrefl n)
  refine ⟨fun q hq => ?_, fun q r hq hr he => ?_, fun a ha => Nat.lt_succ_of_lt (h.waitedLt a ha),
    fun q hq => ?_, h.waitedOnce, h.waiter, fun a ha => ?_,
    fun a ha => Nat.lt_succ_of_lt (h.kstacksLt a ha),
    fun a ha => Nat.lt_succ_of_lt (h.pgdirsLt a ha), fun q hq hu => ?_, fun q hq => ?_, h.waitedFrees⟩
  · by_cases hqn : q = np
    · rw [hqn, hself]
      exact Nat.lt_succ_self n
    · exact Nat.lt_succ_of_lt (hlt q hqn hq)
  · by_cases hqn : q = np <;> by_cases hrn : r = np
    · rw [hqn, hrn]
    · rw [hqn, hself] at he
      exact absurd he (hlt r hrn hr).ne'
    · rw [hrn, hself] at he
      exact absurd he (hlt q hqn hq).ne
    · rw [hother q hqn] at hq he
      rw [hother r hrn] at hr he
      exact h.one q r hq hr he
  · by_cases hqn : q = np
    · rw [hqn, hself]
      exact hnew h.waitedLt
    · rw [hother q hqn] at hq ⊢
      exact h.waitedDead q hq
  · refine (h.forked a ha).imp_left ?_
    rintro ⟨q, hq, hpid⟩
    have hqn : q ≠ np := by
      rintro rfl
      rw [hnp] at hq
      cases hq
    exact ⟨q, by rw [hother q hqn, hq], by rw [hother q hqn, hpid]⟩
  · by_cases hqn : q = np
    · rw [hqn, hself]
      exact hnew h.kstacksLt
    · rw [hother q hqn] at hq ⊢
      exact h.kstacksDead q hq fun r hr => hu r (hundo r q hr)
  · by_cases hqn : q = np
    · rw [hqn, hself]
      exact hnew h.pgdirsLt
    · rw [hother q hqn] at hq ⊢
      exact h.pgdirsDead q hq

theorem held_set (o : Owner) (hs : o ≠ .stack np) (hd : o ≠ .dir np) :
    held (t.set np x) th o = held t th o := by
  have hne : ∀ q, (.stack q = o ∨ .dir q = o) → q ≠ np := by
    rintro q (rfl | rfl) rfl
    · exact hs rfl
    · exact hd rfl
  cases o with
  | stack q => simp only [held, Table.set_apply, if_neg (hne q (.inl rfl))]
  | dir q => simp only [held, Table.set_apply, if_neg (hne q (.inr rfl))]
  | pending q => rfl

theorem held_set_stack : held (t.set np x) th (.stack np) = x.kstack := by
  rw [held, Table.set_apply, if_pos rfl]

theorem held_set_dir :
    held (t.set np x) th (.dir np) = if x.state.early then none else x.pgdir := by
  rw [held, Table.set_apply, if_pos rfl]

theorem held_fill (hnp : (t np).state.early = true) (hx : x.state.early = true) (o : Owner)
    (hs : o ≠ .stack np) : held (t.set np x) th o = held t th o := by
  by_cases hd : o = .dir np
  · rw [hd, held_set_dir, hx, held, hnp]
    rfl
  · exact held_set o hs hd

theorem held_filled (x : Proc) (hnp : (t np).state.early = true) (hx : x.state.early = true)
    (hk : x.kstack = (t np).kstack) (hpend : k.pending = (th p).point.pending) (o : Owner) :
    held (t.set np x) (update th p ⟨k, m⟩) o = held t th o := by
  rw [held_pass hpend]
  by_cases hs : o = .stack np
  · rw [hs, held_set_stack, hk]
    rfl
  · exact held_fill hnp hx o hs

/-! ## `fork` -/

variable {s : Sys C} {c : C}

theorem Inv.fill (h : Inv s) (hr : Runs s c p k₀) (hk : ∀ old, k₀ ≠ .execSwitch old)
    (hnp : (s.table np).state.early = true) (hx : x.state.early = true)
    (hfork : ForkInv (s.table.set np x) (update s.thread p ⟨k, .here⟩))
    {ks : List ℕ} (hpid : PidInv (s.table.set np x) (update s.thread p ⟨k, .here⟩) n
      s.forked s.waited ks s.pgdirs) {used : ℕ → Bool}
    (hown : Own (held (s.table.set np x) (update s.thread p ⟨k, .here⟩)) used)
    {freed : List (ℕ × (C → Cpu))} (hfreed : FreedInv freed) :
    Inv { s with
      table := s.table.set np x, thread := update s.thread p ⟨k, .here⟩, nextpid := n,
      used := used, kstacks := ks, freed := freed } := by
  have hrun := h.state_of_run hr.stage hr.proc
  have hne : p ≠ np := by
    rintro rfl
    rw [hrun] at hnp
    cases hnp
  have hset : s.table.set np x p = s.table p := by rw [Table.set_apply, if_neg hne]
  have hself : update s.thread p ⟨k, .here⟩ p = ⟨k, .here⟩ := update_self ..
  have hgone := (h.thread np).gone (PState.of_early hnp).1
  have hirr : x.parent ≠ some np := by
    intro hpar
    obtain ⟨d, hd⟩ := hfork.parent np np (by rw [Table.set_apply, if_pos rfl, hx])
      (by rw [Table.set_apply, if_pos rfl, hpar])
    rw [update_of_ne hne.symm, hgone] at hd
    cases hd
  have hcpu : CpuInv (s.table.set np x) (update s.thread p ⟨k, .here⟩) s.cpu s.lock :=
    (h.cpu.set_off (h.cpu.off_of_early hnp) (PState.of_early hx).2.2.2).setThread fun _ => by
      rw [hr.thread]
  have hthread : ThreadInv (s.table.set np x) (update s.thread p ⟨k, .here⟩) := by
    have hfill : ThreadInv (s.table.set np x) s.thread := by
      refine h.thread.change (p := np) set_kept (fun _ _ => rfl) ?_
      rw [Table.set_apply, if_pos rfl]
      refine ⟨fun _ => hgone, fun he => ?_, fun he => ?_, fun he => ?_, by rw [hgone]; simp⟩
      all_goals
        rw [he] at hx
        cases hx
    refine hfill.change (p := p) (fun _ _ => .refl _) (fun q hq => update_of_ne hq ..) ?_
    rw [hself, hset]
    exact .of_running hrun nofun (by simp)
  have hcr3 : Cr3Inv (s.table.set np x) (update s.thread p ⟨k, .here⟩) s.cpu := by
    refine Cr3Inv.goto (fun c' q hq => ?_) (hr.not_execSwitch hk)
    have hqn : q ≠ np := by
      rintro rfl
      exact h.cpu.off_of_early hnp c' hq
    rw [Table.set_apply, if_neg hqn]
    exact h.cr3 c' q hq
  exact ⟨hcpu, hthread, hfork, h.tree.set (PState.of_early hnp).1 hirr (by rw [hx]; nofun),
    h.wait.set (fun he => (PState.of_early hx).2.1 he.1) (PState.of_early hx).2.2.1, hpid, hown,
      hcr3, hfreed⟩

theorem Inv.child (h : Inv s) (hr : Runs s c p k₀) (hc : k₀.child = some np) :
    (s.table np).state = .embryo ∧ (s.table np).state.early = true ∧
      (∀ q, q ≠ p → (s.thread q).point.child ≠ some np) ∧ ∀ r,
      (s.thread p).point.child = some r → r = np := by
  have hp : (s.thread p).point.child = some np := by rw [hr.thread, hc]
  have hs := h.fork.embryo p np hp
  refine ⟨hs, by rw [hs]; rfl, fun q hq hqn => hq (h.fork.one q p np hqn hp), fun r hr => ?_⟩
  rw [hp] at hr
  simpa using hr.symm

theorem Inv.orphan (h : Inv s) (hr : Runs s c p k₀) (hc : k₀.child = some np)
    (hm : k₀.made = none) : (s.table np).parent = none := by
  obtain ⟨-, he, hothers, -⟩ := h.child hr hc
  rcases hq : (s.table np).parent with _ | q
  · rfl
  obtain ⟨d, hd⟩ := h.fork.parent np q he hq
  have hqp : q = p := by
    by_contra hqp
    exact hothers q hqp (Point.child_of_made hd)
  rw [hqp, hr.thread, hm] at hd
  cases hd

theorem Inv.free_orphan (h : Inv s) (hs : (s.table np).state = .unused) :
    (s.table np).parent = none ∧ ∀ q, (s.thread q).point.child ≠ some np := by
  have hchild : ∀ q, (s.thread q).point.child ≠ some np := by
    intro q hq
    have := h.fork.embryo q np hq
    rw [hs] at this
    cases this
  refine ⟨?_, hchild⟩
  rcases hq : (s.table np).parent with _ | q
  · rfl
  obtain ⟨d, hd⟩ := h.fork.parent np q (by rw [hs]; rfl) hq
  exact absurd (Point.child_of_made hd) (hchild q)

theorem update_undo (hk : ∀ r, (th p).point ≠ .forkUndo r) (q r : Slot)
    (hq : (th q).point = .forkUndo r) : (update th p ⟨k, m⟩ q).point = .forkUndo r := by
  have hqp : q ≠ p := by
    rintro rfl
    exact hk r hq
  rw [update_of_ne hqp]
  exact hq

theorem Inv.allocproc (h : Inv s) (hr : Runs s c p .user) (hnp : s.table.allocproc = some np) :
    Inv (s.allocproc p np) := by
  have hun := Table.allocproc_unused hnp
  have he : (s.table np).state.early = true := by rw [hun]; rfl
  obtain ⟨horphan, hchild⟩ := h.free_orphan hun
  refine h.fill hr nofun he rfl ?_ ?_ ?_ h.freed
  · refine h.fork.fill (fun q _ => hchild q) (fun r hc => ?_) (fun r hc => ?_) (fun q _ hq => ?_) nofun
    · rw [hr.thread] at hc
      cases hc
    · exact ⟨by simpa [Point.child] using hc.symm, rfl⟩
    · rw [show ((s.table np).embryo s.nextpid).parent = _ from horphan] at hq
      cases hq
  · exact h.pid.alloc hun (update_undo (by rw [hr.thread]; nofun))
  · refine h.own.congr (held_filled _ he rfl rfl ?_)
    rw [hr.thread]
    rfl

theorem Inv.allocStack (h : Inv s) {f : ℕ} (hr : Runs s c p (.forkStack np)) (hf : s.used f = false) :
    Inv (s.allocStack p np f) := by
  obtain ⟨hs, he, hothers, hold⟩ := h.child hr rfl
  have hx : ((s.table np).withStack f).state = .embryo := hs
  refine h.fill hr nofun he (by rw [hx]; rfl) ?_ ?_ ?_ h.freed
  · refine h.fork.fill hothers hold (fun r hc => ⟨by simpa [Point.child] using hc.symm, hx⟩)
      (fun q _ hq => ?_) nofun
    rw [show ((s.table np).withStack f).parent = _ from h.orphan hr rfl rfl] at hq
    cases hq
  · refine h.pid.fill he (fun _ => ⟨by rw [hs]; nofun, rfl⟩) fun q r hq => .inl ?_
    exact update_undo (by rw [hr.thread]; nofun) q r hq
  · have hpend : (Point.forkDir np).pending = (s.thread p).point.pending := by
      rw [hr.thread]
      rfl
    refine h.own.take hf ((held_pass hpend (.stack np)).trans held_set_stack) fun o ho => ?_
    rw [held_pass hpend, held_fill he (by rw [hx]; rfl) o ho]

theorem Inv.allocFails (h : Inv s) (hr : Runs s c p (.forkStack np)) : Inv (s.allocFails p np) := by
  obtain ⟨hs, he, hothers, hold⟩ := h.child hr rfl
  refine h.fill hr nofun he rfl ?_ ?_ ?_ h.freed
  · refine h.fork.fill hothers hold nofun (fun q _ hq => ?_) nofun
    rw [show (s.table np).noStack.parent = _ from h.orphan hr rfl rfl] at hq
    cases hq
  · refine h.pid.fill he (fun hx => absurd rfl hx) fun q r hq => .inl ?_
    exact update_undo (by rw [hr.thread]; nofun) q r hq
  · have hpend : Point.user.pending = (s.thread p).point.pending := by
      rw [hr.thread]
      rfl
    refine h.own.forget ((held_pass hpend (.stack np)).trans held_set_stack) fun o ho => ?_
    rw [held_pass hpend, held_fill he rfl o ho]

theorem Inv.copied (h : Inv s) {d : ℕ} (hr : Runs s c p (.forkCopy np d)) : Inv (s.copied p np d) := by
  obtain ⟨hs, he, hothers, hold⟩ := h.child hr rfl
  have hx : ((s.table np).withDir d p).state = .embryo := hs
  refine h.fill hr nofun he (by rw [hx]; rfl) ?_ ?_ ?_ h.freed
  · refine h.fork.fill hothers hold (fun r hc => ⟨by simpa [Point.child] using hc.symm, hx⟩)
      (fun q _ hq => ⟨by simpa [Proc.withDir] using hq.symm, d, rfl⟩) fun d' hd => ?_
    obtain rfl : d = d' := by simpa [Point.made] using hd
    exact ⟨rfl, rfl⟩
  · refine h.pid.fill he (fun _ => ⟨by rw [hs]; nofun, rfl⟩) fun q r hq => .inl ?_
    exact update_undo (by rw [hr.thread]; nofun) q r hq
  · refine h.own.congr (held_filled _ he (by rw [hx]; rfl) rfl ?_)
    rw [hr.thread]
    rfl

theorem PidInv.freeStack
    (h : PidInv t th n fs ws ks ds) (hnp : (t np).state ≠ .unused) (hp : (th p).point = .forkUndo np) :
    PidInv t th n fs ws ((t np).pid :: ks) ds := by
  refine ⟨h.lt, h.one, h.waitedLt, h.waitedDead, h.waitedOnce, h.waiter, h.forked, fun a ha => ?_,
    h.pgdirsLt, fun q hq hu hmem => ?_, h.pgdirsDead, fun a ha => ?_⟩
  · rcases List.mem_cons.1 ha with rfl | ha
    · exact h.lt np hnp
    · exact h.kstacksLt a ha
  · rcases List.mem_cons.1 hmem with he | hmem
    · exact hu p (by rw [hp, h.one q np hq hnp he])
    · exact h.kstacksDead q hq hu hmem
  · have hne : (t np).pid ≠ a := by
      rintro rfl
      exact h.waitedDead np hnp ha
    rw [List.count_cons_of_ne hne]
    exact h.waitedFrees a ha

theorem Inv.freeStack (h : Inv s) {f : ℕ} (hr : Runs s c p (.forkBad np))
    (hf : (s.table np).kstack = some f) : Inv (s.freeStack p np f) := by
  obtain ⟨hs, he, hothers, hold⟩ := h.child hr rfl
  have hx : (s.table np).noDir.state = .embryo := hs
  have hundo : (update s.thread p ⟨.forkUndo np, .here⟩ p).point = .forkUndo np := by
    rw [update_self]
  have hset : s.table.set np (s.table np).noDir np = (s.table np).noDir := by
    rw [Table.set_apply, if_pos rfl]
  refine h.fill hr nofun he (by rw [hx]; rfl) ?_ ?_ ?_ (h.freed.cons (h.stack_unloaded hf ?_))
  · refine h.fork.fill hothers hold (fun r hc => ⟨by simpa [Point.child] using hc.symm, hx⟩)
      (fun q _ hq => ?_) nofun
    rw [show (s.table np).noDir.parent = _ from h.orphan hr rfl rfl] at hq
    cases hq
  · have hpid : PidInv (s.table.set np (s.table np).noDir)
        (update s.thread p ⟨.forkUndo np, .here⟩) s.nextpid s.forked s.waited s.kstacks
        s.pgdirs := by
      refine h.pid.fill he (fun _ => ⟨by rw [hs]; nofun, rfl⟩) fun q r hq => .inl ?_
      exact update_undo (by rw [hr.thread]; nofun) q r hq
    have hfree := hpid.freeStack (by rw [hset, hx]; nofun) hundo
    rw [hset] at hfree
    exact hfree
  · have hpend : (Point.forkUndo np).pending = (s.thread p).point.pending := by
      rw [hr.thread]
      rfl
    have hstack : held s.table s.thread (.stack np) = some f := hf
    refine h.own.drop hstack ((held_pass hpend (.stack np)).trans held_set_stack) fun o ho => ?_
    rw [held_pass hpend, held_fill he (by rw [hx]; rfl) o ho]
  · rw [hs]
    nofun

theorem Inv.undo (h : Inv s) (hr : Runs s c p (.forkUndo np)) : Inv (s.undo p np) := by
  obtain ⟨hs, he, hothers, hold⟩ := h.child hr rfl
  refine h.fill hr nofun he rfl ?_ ?_ ?_ h.freed
  · refine h.fork.fill hothers hold nofun (fun q _ hq => ?_) nofun
    rw [show ((s.table np).setState .unused).parent = _ from h.orphan hr rfl rfl] at hq
    cases hq
  · refine h.pid.fill he (fun hx => absurd rfl hx) fun q r hq => ?_
    by_cases hqp : q = p
    · rw [hqp, hr.thread] at hq
      exact .inr ⟨by simpa using hq.symm, rfl⟩
    · exact .inl (by rw [update_of_ne hqp, hq])
  · refine h.own.congr (held_filled _ he rfl rfl ?_)
    rw [hr.thread]
    rfl

theorem PidInv.fork {n a : ℕ}
    (h : PidInv t th n fs ws ks ds) (ha : ∃ p, (t p).state.early = false ∧ (t p).pid = a) :
    PidInv t th n (a :: fs) ws ks ds := by
  refine ⟨h.lt, h.one, h.waitedLt, h.waitedDead, h.waitedOnce, h.waiter, fun b hb => ?_, h.kstacksLt,
    h.pgdirsLt, h.kstacksDead, h.pgdirsDead, h.waitedFrees⟩
  rcases List.mem_cons.1 hb with rfl | hb
  · exact .inl ha
  · exact h.forked b hb

/-- The section of `fork`: the child can run, and its directory is its own. -/
theorem Inv.forkRun (h : Inv s) {d : ℕ} (hr : Runs s c p (.forkRun np d)) : Inv (s.forkRun p np) := by
  obtain ⟨hs, he, hothers, hold⟩ := h.child hr rfl
  have hrun := h.state_of_run hr.stage hr.proc
  have hne : p ≠ np := by
    rintro rfl
    rw [hrun] at hs
    cases hs
  have hmade : (s.table np).parent = some p ∧ (s.table np).pgdir = some d := by
    refine h.fork.made p np d ?_
    rw [hr.thread]
    rfl
  have hgone := (h.thread np).gone (PState.of_early he).1
  -- the child's thread stays where it was, at `forkret`
  let th1 := update s.thread np ⟨.user, .yielded⟩
  have hpt : ∀ q, (th1 q).point = (s.thread q).point := by
    intro q
    by_cases hq : q = np
    · rw [hq, hgone, show th1 np = ⟨.user, .yielded⟩ from update_self ..]
    · exact congrArg Thread.point (update_of_ne hq ..)
  have hp1 : th1 p = ⟨.forkRun np d, .here⟩ := (update_of_ne hne ..).trans hr.thread
  have hset : s.table.set np (s.table np).start p = s.table p := by rw [Table.set_apply, if_neg hne]
  have hself : s.table.set np (s.table np).start np = (s.table np).start := by
    rw [Table.set_apply, if_pos rfl]
  have hcpu : CpuInv (s.table.set np (s.table np).start) (update th1 p ⟨.user, .here⟩) s.cpu
      s.lock := by
    have hstart := h.cpu.set_off (x := (s.table np).start) (h.cpu.off_of_early he) (by rintro ⟨⟩)
    refine (hstart.setThread (p := np) fun hx => ?_).setThread fun _ => ?_
    · rw [hself] at hx
      cases hx
    · rw [show update s.thread np ⟨.user, .yielded⟩ p = _ from hp1]
  have hthread : ThreadInv (s.table.set np (s.table np).start) (update th1 p ⟨.user, .here⟩) := by
    have hchild : ThreadInv (s.table.set np (s.table np).start) th1 := by
      refine h.thread.change (p := np) set_kept (fun q hq => update_of_ne hq ..) ?_
      rw [hself, show th1 np = ⟨.user, .yielded⟩ from update_self ..]
      exact ⟨(by rintro ⟨⟩), (by rintro ⟨⟩), fun _ => .inl rfl, (by rintro ⟨⟩), by simp⟩
    refine hchild.change (p := p) (fun _ _ => .refl _) (fun q hq => update_of_ne hq ..) ?_
    rw [update_self, hset]
    exact .of_running hrun (by rintro ⟨⟩) (by simp)
  have hfork : ForkInv (s.table.set np (s.table np).start) (update th1 p ⟨.user, .here⟩) := by
    have hth : ForkInv s.table th1 := h.fork.thread (fun q => by rw [hpt]) fun q => by rw [hpt]
    refine hth.fill (fun q hq => ?_) (fun r hc => ?_) (by rintro _ ⟨⟩) (by rintro _ ⟨⟩) (by rintro _ ⟨⟩)
    · rw [hpt]
      exact hothers q hq
    · rw [hpt] at hc
      exact hold r hc
  have hundo : ∀ q r, (s.thread q).point = .forkUndo r →
      (update th1 p ⟨.user, .here⟩ q).point = .forkUndo r := by
    intro q r hq
    refine update_undo (by rw [hp1]; rintro _ ⟨⟩) q r ?_
    rw [hpt, hq]
  have hpid := h.pid.fill (x := (s.table np).start) he (fun _ => ⟨by rw [hs]; rintro ⟨⟩, rfl⟩)
    fun q r hq => .inl (hundo q r hq)
  have hown : Own (held (s.table.set np (s.table np).start)
      (update th1 p ⟨.user, .here⟩)) s.used := by
    refine h.own.swap (a := .dir np) (b := .pending p) ?_ ?_ fun o hd hpend => ?_
    · rw [held_set_dir, held, hr.thread]
      exact hmade.2
    · rw [held_goto_self, held, he]
      rfl
    rw [held_goto o hpend]
    cases o with
    | stack q =>
      by_cases hq : q = np
      · rw [hq, held_set_stack]
        rfl
      · exact held_set _ (fun ho => hq (by simpa using ho)) (by rintro ⟨⟩)
    | dir q => exact held_set _ (by rintro ⟨⟩) hd
    | pending q => rw [held, held, hpt]
  have hcr3 : Cr3Inv (s.table.set np (s.table np).start) (update th1 p ⟨.user, .here⟩)
      s.cpu := by
    refine Cr3Inv.goto (Cr3Inv.congr h.cr3 (set_pgdir rfl) fun q old hq => ?_)
      (by rw [hp1]; rintro _ ⟨⟩)
    rw [hpt, hq]
  refine ⟨hcpu, hthread, hfork, h.tree.set (PState.of_early he).1 ?_ fun _ => ⟨p, hmade.1, ?_⟩,
    h.wait.set (by rintro ⟨⟨⟩, -⟩) (by rintro ⟨⟩), hpid.fork ?_, hown, hcr3, h.freed⟩
  · intro hpar
    rw [show (s.table np).start.parent = _ from hmade.1] at hpar
    exact hne (by simpa using hpar)
  · rw [hrun]
    rfl
  · exact ⟨np, by rw [hself]; rfl, by rw [hself]; rfl⟩

/-! ## `exec` -/

theorem execStart_woken (s : Sys C) (p q : Slot) : Woken (s.table q) ((s.execStart p).table q) := by
  show Woken _ (((s.table.findAndSetSchedQueue qLottery (s.table p).pid).findAndSetLotteryTicket 500
    (s.table p).pid).findAndSetBurstTime 0 (s.table p).pid q)
  refine (Table.findAndSet_woken ?_ ..).trans
    ((Table.findAndSet_woken ?_ ..).trans (Table.findAndSet_woken ?_ ..))
  all_goals exact fun _ => ⟨⟨.inl rfl, rfl, rfl, rfl, rfl⟩, rfl⟩

theorem Inv.execStart (h : Inv s) (hr : Runs s c p .user) : Inv (s.execStart p) :=
  (h.woken (execStart_woken s p)).pass ⟨hr.stage, hr.proc, hr.thread⟩ rfl rfl
    (fun _ => ⟨nofun, nofun⟩) nofun rfl

theorem Inv.execCommit (h : Inv s) {d old : ℕ} (hr : Runs s c p (.execLoad d))
    (ho : (s.table p).pgdir = some old) :
    Inv ((s.setProc p ((s.table p).setPgdir d)).goto p (.execSwitch old)) := by
  have hrun := h.state_of_run hr.stage hr.proc
  have hself : s.table.set p ((s.table p).setPgdir d) p = (s.table p).setPgdir d := by
    rw [Table.set_apply, if_pos rfl]
  have hth : update s.thread p ⟨.execSwitch old, .here⟩ p = ⟨.execSwitch old, .here⟩ :=
    update_self ..
  have hsame : ∀ q, (s.table.set p ((s.table p).setPgdir d) q).state = (s.table q).state ∧
      (s.table.set p ((s.table p).setPgdir d) q).kstack = (s.table q).kstack ∧
      (s.table.set p ((s.table p).setPgdir d) q).parent = (s.table q).parent ∧
      (s.table.set p ((s.table p).setPgdir d) q).pid = (s.table q).pid := by
    intro q
    by_cases hq : q = p
    · rw [hq, hself]
      exact ⟨rfl, rfl, rfl, rfl⟩
    · rw [Table.set_apply, if_neg hq]
      exact ⟨rfl, rfl, rfl, rfl⟩
  have hx : ((s.table p).setPgdir d).state = .running := hrun
  have hcpu : CpuInv (s.table.set p ((s.table p).setPgdir d))
      (update s.thread p ⟨.execSwitch old, .here⟩) s.cpu s.lock :=
    (h.cpu.congr (fun q => .inl (hsame q).1) fun q => (hsame q).2.1).setThread fun _ => by
      rw [hr.thread]
  have hthread : ThreadInv (s.table.set p ((s.table p).setPgdir d))
      (update s.thread p ⟨.execSwitch old, .here⟩) := by
    refine h.thread.change (p := p) set_kept (fun q hq => update_of_ne hq ..) ?_
    rw [hself, hth]
    exact .of_running hx (by rintro ⟨⟩) (by simp)
  have hfork : ForkInv (s.table.set p ((s.table p).setPgdir d))
      (update s.thread p ⟨.execSwitch old, .here⟩) := by
    refine h.fork.fill (fun q _ hq => ?_) (fun r hc => ?_) (by rintro _ ⟨⟩)
      (by rw [hx]; rintro _ ⟨⟩) (by rintro _ ⟨⟩)
    · have := h.fork.embryo q p hq
      rw [hrun] at this
      cases this
    · rw [hr.thread] at hc
      cases hc
  have hpid : PidInv (s.table.set p ((s.table p).setPgdir d))
      (update s.thread p ⟨.execSwitch old, .here⟩) s.nextpid s.forked s.waited s.kstacks
      s.pgdirs := by
    refine h.pid.congr (fun q => by rw [(hsame q).1]) (fun q => by rw [(hsame q).1])
      (fun q => (hsame q).2.2.2) fun q r => ?_
    by_cases hq : q = p
    · rw [hq, hth, hr.thread]
      exact iff_of_false (by rintro ⟨⟩) (by rintro ⟨⟩)
    · rw [update_of_ne hq]
  have hown : Own (held (s.table.set p ((s.table p).setPgdir d))
      (update s.thread p ⟨.execSwitch old, .here⟩)) s.used := by
    refine h.own.swap (a := .dir p) (b := .pending p) ?_ ?_ fun o hd hpend => ?_
    · rw [held_set_dir, held, hr.thread, hx]
      rfl
    · rw [held_goto_self, held, hrun]
      exact ho.symm
    · rw [held_goto o hpend]
      by_cases hs : o = .stack p
      · rw [hs, held_set_stack]
        rfl
      · exact held_set o hs hd
  have hcr3 : Cr3Inv (s.table.set p ((s.table p).setPgdir d))
      (update s.thread p ⟨.execSwitch old, .here⟩) s.cpu := by
    intro c' q hq
    by_cases hqp : q = p
    · subst hqp
      refine .inr ⟨old, by rw [hth], ?_⟩
      rcases h.cr3 c' q hq with hd | ⟨old', hpt, -⟩
      · rw [hd, ho]
      · rw [hr.thread] at hpt
        cases hpt
    · rw [Table.set_apply, if_neg hqp, update_of_ne hqp]
      exact h.cr3 c' q hq
  have htree : TreeInv (s.table.set p ((s.table p).setPgdir d)) :=
    h.tree.congr (fun q => (hsame q).2.2.1) (fun q => by rw [(hsame q).1])
      fun q => by rw [(hsame q).1]
  exact ⟨hcpu, hthread, hfork, htree, h.wait.set (by simp [hx]) (by rw [hx]; rintro ⟨⟩),
    hpid, hown, hcr3, h.freed⟩

section

variable [DecidableEq C]

theorem Inv.execSwitch (h : Inv s) {old : ℕ} (hr : Runs s c p (.execSwitch old)) :
    Inv ((s.switchuvm c p).goto p (.execFree old)) := by
  have hload := h.reload hr.proc
  have hcpu : (update s.cpu c ((s.cpu c).lcr3 (s.table p).pgdir) c).stage = .run ∧
      (update s.cpu c ((s.cpu c).lcr3 (s.table p).pgdir) c).proc = some p := by
    rw [update_self]
    exact ⟨hr.stage, hr.proc⟩
  refine hload.goto (k := .execFree old) ⟨hcpu.1, hcpu.2, hr.thread⟩ rfl rfl
    (fun _ => ⟨nofun, nofun⟩) ?_ ?_ h.freed
  · intro c' q hq
    by_cases hqp : q = p
    · subst hqp
      obtain rfl : c' = c := hload.cpu.one c' c q hq hcpu.2
      refine .inl ?_
      show (update s.cpu c' ((s.cpu c').lcr3 (s.table q).pgdir) c').cr3 = _
      rw [update_self]
      rfl
    · rw [update_of_ne hqp]
      exact hload.cr3 c' q hq
  · refine h.own.congr (held_pass ?_)
    rw [show (s.switchuvm c p).thread p = _ from hr.thread]
    rfl

/-! ## `exit` -/

theorem Kept.early {y z : Proc} (h : Kept y z) : z.state.early = y.state.early := by
  rcases h.state with hs | ⟨h1, h2⟩
  · rw [hs]
  · rw [h1, h2]
    rfl

theorem Kept.alive {y z : Proc} (h : Kept y z) : z.state.alive = y.state.alive := by
  rcases h.state with hs | ⟨h1, h2⟩
  · rw [hs]
  · rw [h1, h2]
    rfl

/-- Of the states that nobody is woken from or to. -/
theorem Kept.state_iff {y z : Proc} (h : Kept y z) (st : PState) (h1 : st ≠ .sleeping)
    (h2 : st ≠ .runnable) : z.state = st ↔ y.state = st := by
  rcases h.state with hs | ⟨hs, hs'⟩
  · rw [hs]
  · rw [hs, hs']
    exact iff_of_false h2.symm h1.symm

theorem TreeInv.exit (h : TreeInv t) (hp : p ≠ initproc) (hlive : (t p).state.early = false) :
    TreeInv (t.exit p) := by
  have halive : ∀ q, q ≠ p → (t.exit p q).state.alive = (t q).state.alive :=
    fun q hq => (t.exit_kept p q hq).alive
  have hinit : (t.exit p initproc).state.alive = true := by
    rw [halive _ hp.symm]
    exact h.init
  refine ⟨hinit, ?_, fun q => ?_, fun q he hq => ?_⟩
  · rw [Table.exit_parent t hp, h.root]
    rfl
  · rw [Table.exit_parent t hp]
    split_ifs with hpar
    · intro hq
      obtain rfl : initproc = q := by simpa using hq
      rw [h.root] at hpar
      cases hpar
    · exact h.irrefl q
  · rw [Table.exit_parent t hp]
    split_ifs with hpar
    · exact ⟨initproc, rfl, hinit⟩
    have hold : ∃ r, (t q).parent = some r ∧ (t r).state.alive = true := by
      refine h.parent q ?_ hq
      by_cases hqp : q = p
      · rw [hqp, hlive]
      · rw [← (t.exit_kept p q hqp).early, he]
    obtain ⟨r, hr, hlive⟩ := hold
    refine ⟨r, hr, ?_⟩
    rw [halive r, hlive]
    rintro rfl
    exact hpar hr

/-- Whoever waits for a process that is a zombie now has been woken. -/
theorem WaitInv.exit (h : WaitInv t) (hp : p ≠ initproc) (hself : (t p).parent ≠ some p) :
    WaitInv (t.exit p) := by
  intro r q hs hch hq hz
  have hrp : r ≠ p := by
    rintro rfl
    rw [(t.exit_self r).1] at hs
    cases hs
  have hold := t.exit_kept p r hrp
  have hs' : (t r).state = .sleeping := by
    rcases hold.state with he | ⟨-, he⟩
    · rw [← he, hs]
    · rw [hs] at he
      cases he
  rw [Table.exit_parent t hp] at hq
  by_cases hqp : q = p
  · subst hqp
    rw [if_neg hself] at hq
    exact t.exit_wakes_parent hrp hq ⟨hs, hch⟩
  have hz' : (t q).state = .zombie := ((t.exit_kept p q hqp).state_iff .zombie nofun nofun).1 hz
  split_ifs at hq with hpar
  · obtain rfl : initproc = r := by simpa using hq
    exact t.exit_wakes_init hp hpar hz' ⟨hs, hch⟩
  · exact h r q hs' (by rw [← hold.chan, hch]) hq hz'

theorem ForkInv.exit (h : ForkInv t th) (hp : p ≠ initproc) (hpt : (th p).point = .user)
    (hlive : (t p).state.early = false) : ForkInv (t.exit p) (update th p ⟨.user, m⟩) := by
  have hpoint : ∀ q, (update th p ⟨.user, m⟩ q).point = (th q).point := by
    intro q
    by_cases hq : q = p
    · rw [hq, update_self, hpt]
    · rw [update_of_ne hq]
  have hkept : ∀ np, (t np).state = .embryo → np ≠ p ∧ Kept (t np) (t.exit p np) := by
    intro np hnp
    have hne : np ≠ p := by
      rintro rfl
      rw [hnp] at hlive
      cases hlive
    exact ⟨hne, t.exit_kept p np hne⟩
  suffices hold : ForkInv (t.exit p) th from
    hold.thread (fun q => by rw [hpoint]) fun q => by rw [hpoint]
  refine ⟨fun q np hq => ?_, h.one, fun np q he hq => ?_, fun q np d hd => ?_⟩
  · have hs := h.embryo q np hq
    exact ((hkept np hs).2.state_iff .embryo nofun nofun).2 hs
  · have hne : np ≠ p := by
      rintro rfl
      rw [(t.exit_self np).1] at he
      cases he
    rw [(t.exit_kept p np hne).early] at he
    rw [Table.exit_parent t hp] at hq
    split_ifs at hq with hpar
    · obtain ⟨d, hd⟩ := h.parent np p he hpar
      rw [hpt] at hd
      cases hd
    · exact h.parent np q he hq
  · obtain ⟨hpar, hdir⟩ := h.made q np d hd
    have hs := h.embryo q np (Point.child_of_made hd)
    have hqp : q ≠ p := by
      rintro rfl
      rw [hpt] at hd
      cases hd
    rw [Table.exit_parent t hp, (hkept np hs).2.pgdir, hpar, if_neg]
    · exact ⟨rfl, hdir⟩
    · simpa using hqp

theorem Inv.exit (h : Inv s) (hr : Runs s c p .user) (hl : s.lock = none) (hp : p ≠ initproc) :
    Inv ((s.setTable (s.table.exit p)).sched c p .gone) := by
  have hrun := h.state_of_run hr.stage hr.proc
  have hlive : (s.table p).state.early = false := by rw [hrun]; rfl
  have hpt : (s.thread p).point = .user := by rw [hr.thread]
  have hkept := fun q hq => s.table.exit_kept p q hq
  obtain ⟨hz, hpid, hstack, hdir⟩ := s.table.exit_self p
  have hpoint : ∀ q, (update s.thread p ⟨.user, .gone⟩ q).point = (s.thread q).point := by
    intro q
    by_cases hq : q = p
    · rw [hq, update_self, hpt]
    · rw [update_of_ne hq]
  have hearly : ∀ q, (s.table.exit p q).state.early = (s.table q).state.early := by
    intro q
    by_cases hq : q = p
    · rw [hq, hz, hrun]
      rfl
    · exact (hkept q hq).early
  have hpgdir : ∀ q, (s.table.exit p q).pgdir = (s.table q).pgdir := by
    intro q
    by_cases hq : q = p
    · rw [hq, hdir]
    · exact (hkept q hq).pgdir
  have hcpu := h.cpu.leave (k := .user) (m := .gone) hr.stage hr.proc (by rw [hl]; nofun) hkept
    (.inr (.inr hz))
  have hthread : ThreadInv (s.table.exit p) (update s.thread p ⟨.user, .gone⟩) := by
    refine h.thread.change hkept (fun q hq => update_of_ne hq ..) ?_
    rw [update_self]
    exact ⟨fun _ => rfl, by rw [hz]; nofun, by rw [hz]; nofun, by rw [hz]; nofun, by simp⟩
  have hpids : PidInv (s.table.exit p) (update s.thread p ⟨.user, .gone⟩) s.nextpid s.forked
      s.waited s.kstacks s.pgdirs := by
    refine h.pid.congr (fun q => ?_) hearly (fun q => ?_) fun q r => by rw [hpoint]
    all_goals by_cases hq : q = p
    · rw [hq, hz, hrun]
      exact iff_of_false nofun nofun
    · exact (hkept q hq).state_iff .unused nofun nofun
    · rw [hq, hpid]
    · exact (hkept q hq).pid
  have hown : Own (held (s.table.exit p) (update s.thread p ⟨.user, .gone⟩)) s.used := by
    refine h.own.congr fun o => ?_
    cases o with
    | stack q =>
      by_cases hq : q = p
      · rw [hq]
        exact hstack
      · exact (hkept q hq).kstack
    | dir q => rw [held, held, hearly, hpgdir]
    | pending q => rw [held, held, hpoint]
  have hcr3 : Cr3Inv (s.table.exit p) (update s.thread p ⟨.user, .gone⟩) s.cpu :=
    h.cr3.congr hpgdir fun q old hq => by rw [hpoint, hq]
  have hfin : Inv (((s.setTable (s.table.exit p)).setThread p .user .gone).setCpu c
      (s.cpu c).leave |>.setLock (some c)) :=
    ⟨hcpu, hthread, h.fork.exit hp hpt hlive, h.tree.exit hp hlive, h.wait.exit hp (h.tree.irrefl p),
      hpids, hown, hcr3.setCpu fun q hq => hcr3 c q hq, h.freed⟩
  rw [← hpt] at hfin
  exact hfin

/-! ## `wait` -/

theorem PidInv.reap {n : ℕ} {fs : List ℕ} {ws : List Wait} {ks ds : List ℕ} {z : Slot}
    (h : PidInv t th n fs ws ks ds) (hz : (t z).state = .zombie) (hpar : (t z).parent = some p)
    (hx : x.state = .unused) (hundo : ∀ q r, (th q).point = .forkUndo r →
      (th' q).point = .forkUndo r ∧ r ≠ z) :
    PidInv (t.set z x) th' n fs (⟨p, (t z).parent, (t z).pid⟩ :: ws) ((t z).pid :: ks)
      ((t z).pid :: ds) := by
  have hzu : (t z).state ≠ .unused := by rw [hz]; nofun
  -- a slot still in use is another one, with another number
  have hold : ∀ q, (t.set z x q).state ≠ .unused →
      t.set z x q = t q ∧ (t q).state ≠ .unused ∧ (t q).pid ≠ (t z).pid := by
    intro q hq
    rw [Table.set_apply] at hq ⊢
    split_ifs at hq ⊢ with hqz
    · exact absurd hx hq
    · exact ⟨rfl, hq, fun he => hqz (h.one q z hq hzu he)⟩
  have hlt : ∀ {l : List ℕ}, (∀ a ∈ l, a < n) → ∀ a ∈ (t z).pid :: l, a < n := by
    intro l hl a ha
    rcases List.mem_cons.1 ha with rfl | ha
    · exact h.lt z hzu
    · exact hl a ha
  have hks : (t z).pid ∉ ks := h.kstacksDead z hzu fun q hq => (hundo q z hq).2 rfl
  refine ⟨fun q hq => ?_, fun q r hq hr he => ?_, hlt h.waitedLt, fun q hq => ?_, ?_, fun w hw => ?_,
    fun a ha => ?_, hlt h.kstacksLt, hlt h.pgdirsLt, fun q hq hu => ?_, fun q hq => ?_, fun a ha => ?_⟩
  · obtain ⟨he, hq', -⟩ := hold q hq
    rw [he]
    exact h.lt q hq'
  · obtain ⟨heq, hq', -⟩ := hold q hq
    obtain ⟨her, hr', -⟩ := hold r hr
    rw [heq, her] at he
    exact h.one q r hq' hr' he
  · obtain ⟨he, hq', hne⟩ := hold q hq
    rw [he]
    exact List.not_mem_cons_of_ne_of_not_mem hne (h.waitedDead q hq')
  · exact List.nodup_cons.2 ⟨h.waitedDead z hzu, h.waitedOnce⟩
  · rcases List.mem_cons.1 hw with rfl | hw
    · exact hpar
    · exact h.waiter w hw
  · rcases h.forked a ha with ⟨q, hq, hpid⟩ | hmem
    · by_cases hqz : q = z
      · rw [← hpid, hqz]
        exact .inr List.mem_cons_self
      · refine .inl ⟨q, ?_, ?_⟩ <;> rw [Table.set_apply, if_neg hqz]
        · exact hq
        · exact hpid
    · exact .inr (List.mem_cons_of_mem _ hmem)
  · obtain ⟨he, hq', hne⟩ := hold q hq
    rw [he]
    refine List.not_mem_cons_of_ne_of_not_mem hne (h.kstacksDead q hq' fun r hr => ?_)
    exact hu r (hundo r q hr).1
  · obtain ⟨he, hq', hne⟩ := hold q hq
    rw [he]
    exact List.not_mem_cons_of_ne_of_not_mem hne (h.pgdirsDead q hq')
  · rcases List.mem_cons.1 ha with rfl | ha
    · rw [List.count_cons_self, List.count_cons_self, List.count_eq_zero_of_not_mem hks,
        List.count_eq_zero_of_not_mem (h.pgdirsDead z hzu)]
      exact ⟨rfl, rfl⟩
    have hne : (t z).pid ≠ a := by
      rintro rfl
      exact h.waitedDead z hzu ha
    rw [List.count_cons_of_ne hne, List.count_cons_of_ne hne]
    exact h.waitedFrees a ha

theorem Inv.reap (h : Inv s) {z : Slot} {f d : ℕ} (hh : Holds s c p .scan)
    (hz : s.table.zombieChild p = some z) (hf : (s.table z).kstack = some f)
    (hd : (s.table z).pgdir = some d) : Inv (s.reap p z f d) := by
  obtain ⟨hpar, hs⟩ := Table.zombieChild_some hz
  have hrun := h.state_of_run hh.stage hh.proc
  have hpt := (h.thread p).wait (.inr hh.mode)
  have hne : p ≠ z := by
    rintro rfl
    rw [hrun] at hs
    cases hs
  have hset : s.table.set z (s.table z).reap p = s.table p := by rw [Table.set_apply, if_neg hne]
  have hl : ∀ c', s.lock = some c' → (s.cpu c').stage = .run := by
    intro c' hc'
    rw [hh.lock] at hc'
    obtain rfl : c = c' := by simpa using hc'
    exact hh.stage
  have hoff := h.cpu.off_of_zombie hs hl
  have hpoint : ∀ q, (update s.thread p ⟨.user, .here⟩ q).point = (s.thread q).point := by
    intro q
    by_cases hq : q = p
    · rw [hq, update_self, hpt]
    · rw [update_of_ne hq]
  have hchild : ∀ q, (s.thread q).point.child ≠ some z := by
    intro q hq
    rw [h.fork.embryo q z hq] at hs
    cases hs
  have hcpu : CpuInv (s.table.set z (s.table z).reap) (update s.thread p ⟨.user, .here⟩) s.cpu
      none := by
    refine (h.cpu.set_off (x := (s.table z).reap) hoff (by rintro ⟨⟩)).setLock hh.stage hh.proc
      (fun c' hc' => ?_) (by simp)
    rw [hh.lock]
    exact ⟨fun he => hc' (by simpa using he.symm), (by rintro ⟨⟩)⟩
  have hthread : ThreadInv (s.table.set z (s.table z).reap) (update s.thread p ⟨.user, .here⟩) := by
    have hzt : ThreadInv (s.table.set z (s.table z).reap) s.thread := by
      refine h.thread.change (p := z) set_kept (fun _ _ => rfl) ?_
      have hgone := (h.thread z).gone (by rw [hs]; rfl)
      rw [Table.set_apply, if_pos rfl, hgone]
      exact ⟨fun _ => rfl, (by rintro ⟨⟩), (by rintro ⟨⟩), (by rintro ⟨⟩), by simp⟩
    refine hzt.change (p := p) (fun _ _ => .refl _) (fun q hq => update_of_ne hq ..) ?_
    rw [update_self, hset]
    exact .of_running hrun (by rintro ⟨⟩) (by simp)
  have hfork : ForkInv (s.table.set z (s.table z).reap) (update s.thread p ⟨.user, .here⟩) := by
    refine h.fork.fill (fun q _ => hchild q) (fun r hr => ?_) (by rintro _ ⟨⟩) (by rintro _ _ ⟨⟩)
      (by rintro _ ⟨⟩)
    rw [hpt] at hr
    cases hr
  have hpid : PidInv (s.table.set z (s.table z).reap) (update s.thread p ⟨.user, .here⟩)
      s.nextpid s.forked (⟨p, (s.table z).parent, (s.table z).pid⟩ :: s.waited)
      ((s.table z).pid :: s.kstacks) ((s.table z).pid :: s.pgdirs) := by
    refine h.pid.reap hs hpar rfl fun q r hq => ⟨by rw [hpoint, hq], ?_⟩
    rintro rfl
    exact hchild q (by rw [hq]; rfl)
  have hown : Own (held (s.table.set z (s.table z).reap) (update s.thread p ⟨.user, .here⟩))
      (update (update s.used f false) d false) := by
    have hstack : held s.table s.thread (.stack z) = some f := hf
    have hdir : held s.table s.thread (.dir z) = some d := by
      rw [held, hs]
      exact hd
    -- first the stack, then the directory
    have hfirst : Own (update (held s.table s.thread) (.stack z) none) (update s.used f false) :=
      h.own.drop hstack (update_self ..) fun o ho => update_of_ne ho ..
    refine hfirst.drop ((update_of_ne (by rintro ⟨⟩) ..).trans hdir) held_set_dir fun o ho => ?_
    rw [held_pass (by rw [hpt])]
    by_cases hos : o = .stack z
    · rw [hos, held_set_stack, update_self]
      rfl
    · rw [held_set o hos ho, update_of_ne hos]
  have hcr3 : Cr3Inv (s.table.set z (s.table z).reap) (update s.thread p ⟨.user, .here⟩)
      s.cpu := by
    refine Cr3Inv.goto (fun c' q hq => ?_) (by rw [hpt]; rintro _ ⟨⟩)
    have hqz : q ≠ z := by
      rintro rfl
      exact hoff c' hq
    rw [Table.set_apply, if_neg hqz]
    exact h.cr3 c' q hq
  refine ⟨hcpu, hthread, hfork, h.tree.set (by rw [hs]; rfl) (by rintro ⟨⟩) (by rintro ⟨⟩),
    h.wait.set (by rintro ⟨⟨⟩, -⟩) (by rintro ⟨⟩), hpid,
    hown, hcr3, (h.freed.cons (h.stack_unloaded hf (by rw [hs]; rintro ⟨⟩))).cons
      (h.dir_unloaded hd hs hl)⟩

theorem Inv.waitScan (h : Inv s) (hr : Runs s c p .user) (hl : s.lock = none) :
    Inv ((s.setThread p .user .scan).setLock (some c)) := by
  have hpt : (s.thread p).point = .user := by rw [hr.thread]
  have hcpu : CpuInv s.table (update s.thread p ⟨(s.thread p).point, .scan⟩) s.cpu (some c) := by
    refine h.cpu.setLock hr.stage hr.proc (fun c' hc' => ?_) (by simp)
    rw [hl]
    exact ⟨nofun, fun he => hc' (by simpa using he.symm)⟩
  have := h.setMode (m := .scan) hr.stage hr.proc nofun (fun _ => hpt) hcpu
  rw [hpt] at this
  exact this

theorem Inv.waitReturns (h : Inv s) (hh : Holds s c p .scan) :
    Inv ((s.goto p .user).setLock none) := by
  have := h.resume hh
  rw [Sys.resume, (h.thread p).wait (.inr hh.mode)] at this
  exact this

omit [DecidableEq C] in
theorem Inv.waitWakes (h : Inv s) (hh : Holds s c p .inWait) :
    Inv ((s.wake p).setThread p (s.thread p).point .scan) := by
  have hw := h.wake hh.stage hh.proc
  have hpt := (h.thread p).wait (.inl hh.mode)
  refine hw.setMode hh.stage hh.proc nofun (fun _ => hpt) (hw.cpu.setThread fun _ => ?_)
  rw [show (s.wake p).thread p = s.thread p from rfl, hh.mode]
  exact iff_of_false nofun nofun

/-- `wait` goes to sleep: it has found no zombie. -/
theorem Inv.waitSleep (h : Inv s) (hh : Holds s c p .scan) (hz : s.table.zombieChild p = none) :
    Inv ((s.setProc p ((s.table p).sleepOn (.proc p))).sched c p .inWait) := by
  have hpt := (h.thread p).wait (.inr hh.mode)
  refine h.leave hh.stage hh.proc (fun c' hc' => ?_) (.inr rfl) rfl rfl rfl rfl ?_ ?_
  · rw [hh.lock] at hc'
    simpa using hc'.symm
  · exact ⟨nofun, nofun, nofun, fun _ => .inr ⟨rfl, rfl⟩, fun _ => hpt⟩
  intro r q hs hch hq
  rw [Table.set_apply] at hs hch hq ⊢
  split_ifs at hs hch with hr
  · subst hr
    split_ifs at hq ⊢
    · nofun
    · exact Table.zombieChild_none hz hq
  · split_ifs at hq ⊢
    · nofun
    · exact h.wait r q hs hch hq

end

end Xv6.Ptable

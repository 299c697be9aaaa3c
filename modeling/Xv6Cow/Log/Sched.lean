import Xv6Cow.Log.Log

/-!
# Sleeping and committing (`log.c`)

What `Log.Log` leaves out: a process that `begin_op` does not admit sleeps on `&log`, `end_op` and
the end of a commit wake all sleepers, which run in any order and test again, and `commit` runs
without `log.lock`, one block at a time.  The sections under `log.lock` are the steps.
-/

namespace Xv6.Ops

open Function Lts

/-- Where `commit` stands. -/
inductive CommitPc
  | start
  /-- `write_log`, at `tail`. -/
  | writeLog (tail : ℕ)
  | writeHead
  /-- `install_trans`, at `tail`. -/
  | install (tail : ℕ)
  /-- Before `log.lh.n = 0`. -/
  | clear
  /-- Before the second `write_head`. -/
  | erase
  | done
deriving DecidableEq

/-- `commit`, one iteration of its loops at a time. -/
def CommitPc.next (lh : List ℕ) : CommitPc → CommitPc
  | start => if 0 < lh.length then writeLog 0 else done
  | writeLog tail => if tail < lh.length then writeLog (tail + 1) else writeHead
  | writeHead => install 0
  | install tail => if tail < lh.length then install (tail + 1) else clear
  | clear => erase
  | erase => done
  | done => done

/-- Where a process stands. -/
inductive Pc
  | idle
  /-- In `begin_op`, before its tests. -/
  | begins
  /-- In `begin_op`, in `sleep(&log, &log.lock)`. -/
  | asleep
  | op
  /-- In `log_write(b)`, after its tests. -/
  | checked (b : ℕ)
  /-- In `end_op`, with `do_commit` set. -/
  | commits (c : CommitPc)
deriving DecidableEq

/-- The process is in an operation. -/
def Pc.inOp : Pc → Bool
  | op | checked _ => true
  | _ => false

structure Sys (P : Type) where
  log : Log
  pc : P → Pc

inductive Act (P : Type)
  | call (p : P)
  | test (p : P)
  | check (p : P) (b : ℕ)
  | append (p : P)
  | endOp (p : P)
  | commit (p : P)
  | finish (p : P)
  | kill (p : P)

variable {P : Type}

namespace Sys

/-- `wakeup(&log)`. -/
def wakeup (s : Sys P) : Sys P := { s with pc := fun p => if s.pc p = .asleep then .begins else s.pc p }

/-- The log after recovery. -/
def start : Sys P := ⟨⟨[], 0, false⟩, fun _ => .idle⟩

variable [DecidableEq P]

def setPc (s : Sys P) (p : P) (c : Pc) : Sys P := { s with pc := update s.pc p c }

/-- One step; a panic has none. -/
def step (s : Sys P) : Act P → Option (Sys P)
  | .call p => if s.pc p = .idle then some (s.setPc p .begins) else none
  | .test p =>
    if s.pc p = .begins then
      if s.log.admits then
        some ({ s with log := { s.log with outstanding := s.log.outstanding + 1 } }.setPc p .op)
      else some (s.setPc p .asleep)
    else none
  | .check p b =>
    match s.pc p, s.log.check with
    | .op, .ok _ => some (s.setPc p (.checked b))
    | _, _ => none
  | .append p =>
    match s.pc p with
    | .checked b => some ({ s with log := s.log.append b }.setPc p .op)
    | _ => none
  | .endOp p =>
    match s.pc p, s.log.endOp with
    | .op, .ok l =>
      if l.committing then some ({ s with log := l }.setPc p (.commits .start))
      else some ({ s with log := l }.wakeup.setPc p .idle)
    | _, _ => none
  | .commit p =>
    match s.pc p with
    | .commits .done => none
    | .commits .clear => some ({ s with log := { s.log with lh := [] } }.setPc p (.commits .erase))
    | .commits c => some (s.setPc p (.commits (c.next s.log.lh)))
    | _ => none
  | .finish p =>
    if s.pc p = .commits .done then
      some ({ s with log := { s.log with committing := false } }.wakeup.setPc p .idle)
    else none
  -- `kill` makes a sleeper runnable; `begin_op` does not look at `killed`
  | .kill p => if s.pc p = .asleep then some (s.setPc p .begins) else none

end Sys

/-! ## What a step can do -/

section Wakeup

variable {s : Sys P}

@[simp] theorem wakeup_log : s.wakeup.log = s.log := rfl

theorem wakeup_pc (p : P) : s.wakeup.pc p = if s.pc p = .asleep then .begins else s.pc p := rfl

theorem wakeup_ne_asleep (p : P) : s.wakeup.pc p ≠ .asleep := by
  rw [wakeup_pc]
  split
  · nofun
  · assumption

theorem wakeup_commits {p : P} {d : CommitPc} : s.wakeup.pc p = .commits d ↔ s.pc p = .commits d := by
  rw [wakeup_pc]
  split
  · next h => simp [h]
  · rfl

@[simp] theorem inOp_wakeup (p : P) : (s.wakeup.pc p).inOp = (s.pc p).inOp := by
  rw [wakeup_pc]
  split
  · next h => simp [h, Pc.inOp]
  · rfl

end Wakeup

section Cases

variable [DecidableEq P] {s t : Sys P} {p q : P} {b : ℕ} {c : Pc}

@[simp] theorem setPc_self : (s.setPc p c).pc p = c := update_self ..

theorem setPc_of_ne (h : q ≠ p) : (s.setPc p c).pc q = s.pc q := update_of_ne h ..

theorem pc_setPc {d : Pc} (h : (s.setPc p c).pc q = d) : q = p ∧ d = c ∨ q ≠ p ∧ s.pc q = d := by
  by_cases hq : q = p
  · subst hq
    exact .inl ⟨rfl, h.symm.trans setPc_self⟩
  · exact .inr ⟨hq, (setPc_of_ne hq).symm.trans h⟩

@[simp] theorem setPc_log : (s.setPc p c).log = s.log := rfl

theorem step_call (h : s.step (.call p) = some t) : s.pc p = .idle ∧ t = s.setPc p .begins := by
  simp only [Sys.step] at h
  split_ifs at h with hpc
  exact ⟨hpc, (Option.some.inj h).symm⟩

theorem step_test (h : s.step (.test p) = some t) : s.pc p = .begins ∧ (s.log.admits = true ∧
        t = { s with log := { s.log with outstanding := s.log.outstanding + 1 } }.setPc p .op ∨
      s.log.admits = false ∧ t = s.setPc p .asleep) := by
  simp only [Sys.step] at h
  split_ifs at h with hpc had
  · exact ⟨hpc, .inl ⟨had, (Option.some.inj h).symm⟩⟩
  · exact ⟨hpc, .inr ⟨Bool.eq_false_iff.2 had, (Option.some.inj h).symm⟩⟩

theorem step_check (h : s.step (.check p b) = some t) : s.pc p = .op ∧ t = s.setPc p (.checked b) := by
  simp only [Sys.step] at h
  split at h
  · next hpc _ => exact ⟨hpc, (Option.some.inj h).symm⟩
  · cases h

theorem step_append (h : s.step (.append p) = some t) :
    ∃ b, s.pc p = .checked b ∧ t = { s with log := s.log.append b }.setPc p .op := by
  simp only [Sys.step] at h
  split at h
  · next b hpc => exact ⟨b, hpc, (Option.some.inj h).symm⟩
  · cases h

theorem step_endOp (h : s.step (.endOp p) = some t) : ∃ l, s.pc p = .op ∧ s.log.endOp = .ok l ∧
    (l.committing = true ∧ t = { s with log := l }.setPc p (.commits .start) ∨
      l.committing = false ∧ t = { s with log := l }.wakeup.setPc p .idle) := by
  simp only [Sys.step] at h
  split at h
  · next l hpc hend =>
    refine ⟨l, hpc, hend, ?_⟩
    split_ifs at h with hc
    · exact .inl ⟨hc, (Option.some.inj h).symm⟩
    · exact .inr ⟨Bool.eq_false_iff.2 hc, (Option.some.inj h).symm⟩
  · cases h

/-- The header is empty after `log.lh.n = 0`, and when there was nothing to commit. -/
def CommitPc.cleared : CommitPc → Bool
  | erase | done => true
  | _ => false

theorem CommitPc.cleared_next {lh : List ℕ} {d : CommitPc} (hd : d ≠ .clear)
    (hlh : d.cleared = true → lh = []) (h : (d.next lh).cleared = true) : lh = [] := by
  cases d with
  | start =>
    simp only [next] at h
    split_ifs at h with hlen
    · cases h
    · exact List.eq_nil_of_length_eq_zero (by omega)
  | writeLog tail =>
    simp only [next] at h
    split_ifs at h <;> cases h
  | install tail =>
    simp only [next] at h
    split_ifs at h <;> cases h
  | writeHead => cases h
  | clear => exact absurd rfl hd
  | erase => exact hlh rfl
  | done => exact hlh rfl

theorem step_commit (h : s.step (.commit p) = some t) : ∃ d, s.pc p = .commits d ∧
    (d = .clear ∧ t = { s with log := { s.log with lh := [] } }.setPc p (.commits .erase) ∨
      d ≠ .clear ∧ t = s.setPc p (.commits (d.next s.log.lh))) := by
  simp only [Sys.step] at h
  split at h
  · cases h
  · next hpc => exact ⟨_, hpc, .inl ⟨rfl, (Option.some.inj h).symm⟩⟩
  · next d _ hclear hpc =>
    exact ⟨d, hpc, .inr ⟨hclear, (Option.some.inj h).symm⟩⟩
  · cases h

theorem step_finish (h : s.step (.finish p) = some t) : s.pc p = .commits .done ∧
    t = { s with log := { s.log with committing := false } }.wakeup.setPc p .idle := by
  simp only [Sys.step] at h
  split_ifs at h with hpc
  exact ⟨hpc, (Option.some.inj h).symm⟩

theorem step_kill (h : s.step (.kill p) = some t) : s.pc p = .asleep ∧ t = s.setPc p .begins := by
  simp only [Sys.step] at h
  split_ifs at h with hpc
  exact ⟨hpc, (Option.some.inj h).symm⟩

end Cases

/-! ## The invariant -/

/-- `outstanding` counts the processes in operations; `committing` is set while one process is in
`commit`, and then there are none. -/
structure Inv (s : Sys P) : Prop where
  count : ∃ A : Finset P, (∀ p, p ∈ A ↔ (s.pc p).inOp = true) ∧ s.log.outstanding = A.card
  nodup : s.log.lh.Nodup
  quiet : s.log.committing = true → s.log.outstanding = 0
  owner : s.log.committing = true → ∃ p c, s.pc p = .commits c
  commits : ∀ {p c}, s.pc p = .commits c → s.log.committing = true ∧ (c.cleared = true → s.log.lh = [])
  one : ∀ {p q c d}, s.pc p = .commits c → s.pc q = .commits d → p = q
  empty : s.log.committing = false → s.log.outstanding = 0 → s.log.lh = []
  asleep : ∀ {p}, s.pc p = .asleep → s.log.committing = true ∨ 0 < s.log.outstanding

theorem Inv.start : Inv (Sys.start : Sys P) where
  count := ⟨∅, by simp [Sys.start, Pc.inOp], rfl⟩
  nodup := List.nodup_nil
  quiet := nofun
  owner := nofun
  commits := nofun
  one := nofun
  empty _ _ := rfl
  asleep := nofun

section Invariant

variable {s t : Sys P} {p q : P} {c : Pc} {l : Log}

theorem Inv.outstanding_pos (h : Inv s) (hp : (s.pc p).inOp = true) : 0 < s.log.outstanding := by
  obtain ⟨A, hA, hcard⟩ := h.count
  rw [hcard]
  exact Finset.card_pos.2 ⟨p, (hA p).2 hp⟩

theorem Inv.not_committing (h : Inv s) (hp : (s.pc p).inOp = true) : s.log.committing = false := by
  refine Bool.eq_false_iff.2 fun hc => ?_
  have hzero := h.quiet hc
  have hpos := h.outstanding_pos hp
  omega

theorem Inv.endOp_ok (h : Inv s) (hp : (s.pc p).inOp = true) : ∃ l, s.log.endOp = .ok l := by
  unfold Log.endOp
  rw [if_neg (Bool.eq_false_iff.1 (h.not_committing hp))]
  split
  · exact ⟨_, rfl⟩
  · exact ⟨_, rfl⟩

/-- The log admits a process if nobody uses it. -/
theorem Inv.admits (h : Inv s) (hc : s.log.committing = false) (ho : s.log.outstanding = 0) :
    s.log.admits = true := by
  simp [Log.admits, hc, ho, h.empty hc ho, maxopblocks, logsize]

/-- Somebody will wake a sleeper. -/
theorem Inv.waker (h : Inv s) (hp : s.pc p = .asleep) :
    (∃ q, (s.pc q).inOp = true) ∨ ∃ q d, s.pc q = .commits d := by
  rcases h.asleep hp with hc | hpos
  · exact .inr (h.owner hc)
  · obtain ⟨A, hA, hcard⟩ := h.count
    obtain ⟨q, hq⟩ := Finset.card_pos.1 (hcard ▸ hpos)
    exact .inl ⟨q, (hA q).1 hq⟩

theorem Inv.not_commits (h : Inv s) (hc : s.log.committing = false) (q : P) (d : CommitPc) :
    s.pc q ≠ .commits d := by
  intro hq
  rw [(h.commits hq).1] at hc
  cases hc

theorem Inv.append (h : Inv s) (hp : (s.pc p).inOp = true) (b : ℕ) :
    Inv { s with log := s.log.append b } := by
  have hlog : (s.log.append b).outstanding = s.log.outstanding ∧
      (s.log.append b).committing = s.log.committing := by
    unfold Log.append
    split <;> exact ⟨rfl, rfl⟩
  have hpos := h.outstanding_pos hp
  refine ⟨?_, Log.nodup_append h.nodup b, ?_, ?_, fun {q d} hq => ?_, h.one, ?_, ?_⟩
  · rw [hlog.1]
    exact h.count
  · rw [hlog.1, hlog.2]
    exact h.quiet
  · rw [hlog.2]
    exact h.owner
  · exact absurd hq (h.not_commits (h.not_committing hp) q d)
  · rw [hlog.1]
    intro _ hzero
    omega
  · rw [hlog.1, hlog.2]
    exact h.asleep

variable [DecidableEq P]

section

variable (h : Inv s)

include h

theorem Inv.move (hin : c.inOp = (s.pc p).inOp) (hold : ∀ d, s.pc p ≠ .commits d)
    (hnew : ∀ d, c ≠ .commits d) (hsleep : c = .asleep → s.log.committing = true ∨
    0 < s.log.outstanding) :
    Inv (s.setPc p c) := by
  have hsame : ∀ {q d}, (s.setPc p c).pc q = .commits d → s.pc q = .commits d := fun {q d} hq => by
    rcases pc_setPc hq with ⟨-, hd⟩ | ⟨-, hq⟩
    · exact absurd hd.symm (hnew d)
    · exact hq
  refine ⟨?_, h.nodup, h.quiet, fun hc => ?_, fun hq => h.commits (hsame hq),
    fun hq hr => h.one (hsame hq) (hsame hr), h.empty, fun {q} hq => ?_⟩
  · obtain ⟨A, hA, hcard⟩ := h.count
    refine ⟨A, fun q => ?_, hcard⟩
    by_cases hq : q = p
    · subst hq
      rw [setPc_self, hin, hA]
    · rw [setPc_of_ne hq, hA]
  · obtain ⟨q, d, hq⟩ := h.owner hc
    have hne : q ≠ p := fun heq => hold d (heq ▸ hq)
    exact ⟨q, d, (setPc_of_ne hne).trans hq⟩
  · rcases pc_setPc hq with ⟨-, hc⟩ | ⟨-, hq⟩
    · exact hsleep hc.symm
    · exact h.asleep hq

theorem Inv.enter (hp : s.pc p = .begins) (had : s.log.admits = true) :
    Inv ({ s with log := { s.log with outstanding := s.log.outstanding + 1 } }.setPc p .op) := by
  have hnot : s.log.committing = false := by
    unfold Log.admits at had
    simpa using (Bool.and_eq_true_iff.1 had).1
  have hnone : ∀ q d, ({ s with log := { s.log with outstanding := s.log.outstanding + 1 } }.setPc
    p .op).pc q ≠
      .commits d := fun q d hq => by
    rcases pc_setPc hq with ⟨-, hd⟩ | ⟨-, hq⟩
    · cases hd
    · exact h.not_commits hnot q d hq
  refine ⟨?_, h.nodup, fun hc => ?_, fun hc => ?_, fun {q d} hq => absurd hq (hnone q d),
    fun {q r d e} hq => absurd hq (hnone q d), fun _ hzero => ?_, fun _ => .inr (Nat.succ_pos _)⟩
  · obtain ⟨A, hA, hcard⟩ := h.count
    have hpA : p ∉ A := fun hmem => by
      rw [hA, hp] at hmem
      cases hmem
    refine ⟨insert p A, fun q => ?_, ?_⟩
    · by_cases hq : q = p
      · subst hq
        simp [Pc.inOp]
      · rw [setPc_of_ne hq, Finset.mem_insert, ← hA]
        simp [hq]
    · rw [Finset.card_insert_of_notMem hpA, ← hcard]
      rfl
  · exact absurd hc (Bool.eq_false_iff.1 hnot)
  · exact absurd hc (Bool.eq_false_iff.1 hnot)
  · exact absurd hzero (Nat.succ_ne_zero _)

theorem Inv.leave (hp : s.pc p = .op) :
    ∃ A : Finset P, (∀ q, q ∈ A ↔ q ≠ p ∧ (s.pc q).inOp = true) ∧ s.log.outstanding - 1 = A.card := by
  obtain ⟨A, hA, hcard⟩ := h.count
  refine ⟨A.erase p, fun q => ?_, ?_⟩
  · rw [Finset.mem_erase, hA]
  · rw [Finset.card_erase_of_mem ((hA p).2 (by rw [hp]; rfl)), hcard]

theorem Inv.endOp_commit (hp : s.pc p = .op) (hend : s.log.endOp = .ok l)
    (hl : l.committing = true) : Inv ({ s with log := l }.setPc p (.commits .start)) := by
  obtain ⟨hnot, hlh, hout, hcom⟩ := Log.endOp_ok hend
  have hzero : l.outstanding = 0 := by
    rw [hl] at hcom
    rw [hout]
    exact of_decide_eq_true hcom.symm
  have hself : ∀ {q d}, ({ s with log := l }.setPc p (.commits .start)).pc q = .commits d →
      q = p ∧ d = .start := fun {q d} hq => by
    rcases pc_setPc hq with ⟨hqp, hd⟩ | ⟨-, hq⟩
    · exact ⟨hqp, Pc.commits.inj hd⟩
    · exact absurd hq (h.not_commits hnot q d)
  obtain ⟨A, hA, hcard⟩ := h.leave hp
  refine ⟨⟨A, fun q => ?_, hout.trans hcard⟩, ?_, fun _ => hzero, fun _ => ⟨p, _, setPc_self⟩,
    fun {q d} hq => ⟨hl, ?_⟩, fun {q r d e} hq hr => (hself hq).1.trans (hself hr).1.symm, fun hc => ?_,
    fun _ => .inl hl⟩
  · rw [hA]
    by_cases hq : q = p
    · subst hq
      simp [Pc.inOp]
    · rw [setPc_of_ne hq]
      simp [hq]
  · rw [setPc_log]
    exact hlh ▸ h.nodup
  · rw [(hself hq).2]
    nofun
  · exact absurd hl (Bool.eq_false_iff.1 hc)

theorem Inv.endOp_wake (hp : s.pc p = .op) (hend : s.log.endOp = .ok l)
    (hl : l.committing = false) : Inv ({ s with log := l }.wakeup.setPc p .idle) := by
  obtain ⟨hnot, hlh, hout, hcom⟩ := Log.endOp_ok hend
  have hpos : l.outstanding ≠ 0 := by
    rw [hl] at hcom
    rw [hout]
    exact of_decide_eq_false hcom.symm
  have hnone : ∀ q d, ({ s with log := l }.wakeup.setPc p .idle).pc q ≠ .commits d := fun q d hq => by
    rcases pc_setPc hq with ⟨-, hd⟩ | ⟨-, hq⟩
    · cases hd
    · exact h.not_commits hnot q d (wakeup_commits.1 hq)
  obtain ⟨A, hA, hcard⟩ := h.leave hp
  refine ⟨⟨A, fun q => ?_, hout.trans hcard⟩, ?_, fun hc => ?_, fun hc => ?_,
    fun {q d} hq => absurd hq (hnone q d), fun {q r d e} hq => absurd hq (hnone q d),
    fun _ hzero => absurd hzero hpos, fun _ => .inr (Nat.pos_of_ne_zero hpos)⟩
  · rw [hA]
    by_cases hq : q = p
    · subst hq
      simp [Pc.inOp]
    · rw [setPc_of_ne hq, inOp_wakeup]
      simp [hq]
  · rw [setPc_log, wakeup_log]
    exact hlh ▸ h.nodup
  · exact absurd hc (Bool.eq_false_iff.1 hl)
  · exact absurd hc (Bool.eq_false_iff.1 hl)

theorem Inv.commit {d d' : CommitPc} (hp : s.pc p = .commits d) {lh : List ℕ}
    (hlh : lh = s.log.lh ∨ lh = []) (hd : d'.cleared = true → lh = []) :
    Inv ({ s with log := { s.log with lh } }.setPc p (.commits d')) := by
  have hc := (h.commits hp).1
  have hself : ∀ {q e}, ({ s with log := { s.log with lh } }.setPc p (.commits d')).pc q = .commits e →
      q = p ∧ e = d' := fun {q e} hq => by
    rcases pc_setPc hq with ⟨hqp, he⟩ | ⟨hqp, hq⟩
    · exact ⟨hqp, Pc.commits.inj he⟩
    · exact absurd (h.one hq hp) hqp
  refine ⟨?_, ?_, h.quiet, fun _ => ⟨p, _, setPc_self⟩, fun {q e} hq => ⟨hc, ?_⟩,
    fun {q r e e'} hq hr => (hself hq).1.trans (hself hr).1.symm, fun hnot => ?_, fun _ => .inl hc⟩
  · obtain ⟨A, hA, hcard⟩ := h.count
    refine ⟨A, fun q => ?_, hcard⟩
    rw [hA]
    by_cases hq : q = p
    · subst hq
      rw [setPc_self, hp]
      rfl
    · rw [setPc_of_ne hq]
  · rcases hlh with rfl | rfl
    · exact h.nodup
    · exact List.nodup_nil
  · rw [(hself hq).2]
    exact hd
  · exact absurd hc (Bool.eq_false_iff.1 hnot)

theorem Inv.finish (hp : s.pc p = .commits .done) :
    Inv ({ s with log := { s.log with committing := false } }.wakeup.setPc p .idle) := by
  obtain ⟨hc, hlh⟩ := h.commits hp
  have hnone : ∀ q d, ({ s with log := { s.log with committing := false } }.wakeup.setPc p .idle).pc q ≠
      .commits d := fun q d hq => by
    rcases pc_setPc hq with ⟨-, hd⟩ | ⟨hqp, hq⟩
    · cases hd
    · exact hqp (h.one (wakeup_commits.1 hq) hp)
  refine ⟨?_, h.nodup, nofun, nofun, fun {q d} hq => absurd hq (hnone q d),
    fun {q r d e} hq => absurd hq (hnone q d), fun _ _ => hlh rfl, fun {q} hq => ?_⟩
  · obtain ⟨A, hA, hcard⟩ := h.count
    refine ⟨A, fun q => ?_, hcard⟩
    rw [hA]
    by_cases hq : q = p
    · subst hq
      rw [setPc_self, hp]
      rfl
    · rw [setPc_of_ne hq, inOp_wakeup]
  · rcases pc_setPc hq with ⟨-, hd⟩ | ⟨-, hq⟩
    · cases hd
    · exact absurd hq (wakeup_ne_asleep q)

theorem Inv.step {a : Act P} (hstep : s.step a = some t) : Inv t := by
  cases a with
  | call p =>
    obtain ⟨hp, rfl⟩ := step_call hstep
    exact h.move (by rw [hp]; rfl) (by rw [hp]; nofun) nofun nofun
  | test p =>
    obtain ⟨hp, ⟨had, rfl⟩ | ⟨had, rfl⟩⟩ := step_test hstep
    · exact h.enter hp had
    refine h.move (by rw [hp]; rfl) (by rw [hp]; nofun) nofun fun _ => ?_
    by_contra hnone
    rw [not_or, Bool.not_eq_true] at hnone
    rw [h.admits hnone.1 (by omega)] at had
    cases had
  | check p b =>
    obtain ⟨hp, rfl⟩ := step_check hstep
    exact h.move (by rw [hp]; rfl) (by rw [hp]; nofun) nofun nofun
  | append p =>
    obtain ⟨b, hp, rfl⟩ := step_append hstep
    have happ := h.append (p := p) (by rw [hp]; rfl) b
    refine happ.move ?_ ?_ nofun nofun
    · show _ = (s.pc p).inOp
      rw [hp]
      rfl
    · show ∀ d, s.pc p ≠ _
      rw [hp]
      nofun
  | endOp p =>
    obtain ⟨l, hp, hend, ⟨hl, rfl⟩ | ⟨hl, rfl⟩⟩ := step_endOp hstep
    · exact h.endOp_commit hp hend hl
    · exact h.endOp_wake hp hend hl
  | commit p =>
    obtain ⟨d, hp, ⟨rfl, rfl⟩ | ⟨hd, rfl⟩⟩ := step_commit hstep
    · exact h.commit hp (.inr rfl) fun _ => rfl
    · exact h.commit hp (.inl rfl) (CommitPc.cleared_next hd (h.commits hp).2)
  | finish p =>
    obtain ⟨hp, rfl⟩ := step_finish hstep
    exact h.finish hp
  | kill p =>
    obtain ⟨hp, rfl⟩ := step_kill hstep
    exact h.move (by rw [hp]; rfl) (by rw [hp]; nofun) nofun nofun

end

theorem Inv.run {as : List (Act P)} (hrun : Run (ofFun Sys.step) Sys.start as t) : Inv t :=
  hrun.invariant Inv.start fun _ _ _ h hstep => h.step hstep

/-! ## A sleeper is woken -/

/-- The process that moves. -/
def Act.proc : Act P → P
  | call p | test p | check p _ | append p | endOp p | commit p | finish p | kill p => p

/-- The steps that `commit` has left. -/
def CommitPc.left (lh : List ℕ) : CommitPc → ℕ
  | start => 2 * lh.length + 6
  | writeLog tail => (lh.length - tail) + lh.length + 5
  | writeHead => lh.length + 4
  | install tail => (lh.length - tail) + 3
  | clear => 2
  | erase => 1
  | done => 0

variable {d : CommitPc}

theorem CommitPc.left_next (lh : List ℕ) (hd : d ≠ .done) : (d.next lh).left lh < d.left lh := by
  cases d with
  | start =>
    simp only [next]
    split_ifs
    · simp only [left]
      omega
    · simp [left]
  | writeLog tail =>
    simp only [next]
    split_ifs
    · simp only [left]
      omega
    · simp only [left]
      omega
  | install tail =>
    simp only [next]
    split_ifs
    · simp only [left]
      omega
    · simp only [left]
      omega
  | writeHead => simp [next, left]
  | clear => simp [next, left]
  | erase => simp [next, left]
  | done => exact absurd rfl hd

theorem commit_step (hq : s.pc q = .commits d) (hd : d ≠ .done) :
    ∃ t e, s.step (.commit q) = some t ∧ t.pc q = .commits e ∧ e.left t.log.lh < d.left s.log.lh ∧
      ∀ r, r ≠ q → t.pc r = s.pc r := by
  by_cases hclear : d = .clear
  · subst hclear
    refine ⟨{ s with log := { s.log with lh := [] } }.setPc q (.commits .erase), .erase, ?_,
      setPc_self, ?_, fun r hr => setPc_of_ne hr⟩
    · simp only [Sys.step, hq]
    · simp [CommitPc.left]
  · refine ⟨s.setPc q (.commits (d.next s.log.lh)), _, ?_, setPc_self, CommitPc.left_next _ hd,
      fun r hr => setPc_of_ne hr⟩
    simp only [Sys.step, hq]

theorem commit_done (hq : s.pc q = .commits d) : ∃ as t, Run (ofFun Sys.step) s as t ∧
    (∀ a ∈ as, a.proc = q) ∧ t.pc q = .commits .done ∧ ∀ r, r ≠ q → t.pc r = s.pc r := by
  induction hn : d.left s.log.lh using Nat.strong_induction_on generalizing s d with
  | _ n ih =>
    by_cases hd : d = .done
    · subst hd
      exact ⟨[], s, .nil s, nofun, hq, fun _ _ => rfl⟩
    obtain ⟨u, e, hstep, he, hlt, hsame⟩ := commit_step hq hd
    obtain ⟨as, t, hrun, hproc, hdone, hkeep⟩ := ih _ (hn ▸ hlt) he rfl
    refine ⟨.commit q :: as, t, .cons hstep hrun, ?_, hdone, fun r hr =>
      (hkeep r hr).trans (hsame r hr)⟩
    rintro a (_ | ⟨_, ha⟩)
    · rfl
    · exact hproc a ha

omit [DecidableEq P] in
theorem ne_of_asleep (hp : s.pc p = .asleep) (hq : s.pc q ≠ .asleep) : p ≠ q := by
  rintro rfl
  exact hq hp

theorem wakes_cons {a : Act P} (hstep : s.step a = some u) (ha : a.proc = q)
    (h : ∃ as t, Run (ofFun Sys.step) u as t ∧ (∀ a ∈ as, a.proc = q) ∧ t.pc p = .begins) :
    ∃ as t, Run (ofFun Sys.step) s as t ∧ (∀ a ∈ as, a.proc = q) ∧ t.pc p = .begins := by
  obtain ⟨as, t, hrun, hproc, ht⟩ := h
  exact ⟨a :: as, t, .cons hstep hrun, List.forall_mem_cons.2 ⟨ha, hproc⟩, ht⟩

/-- The steps of a process in `commit` wake the sleepers. -/
theorem commit_wakes (hq : s.pc q = .commits d) (hp : s.pc p = .asleep) :
    ∃ as t, Run (ofFun Sys.step) s as t ∧ (∀ a ∈ as, a.proc = q) ∧ t.pc p = .begins := by
  have hne : p ≠ q := ne_of_asleep hp (hq ▸ nofun)
  obtain ⟨as, t, hrun, hproc, hdone, hkeep⟩ := commit_done hq
  have hstep : ofFun Sys.step t (.finish q)
      ({ t with log := { t.log with committing := false } }.wakeup.setPc q .idle) := by
    simp only [ofFun, Sys.step, hdone, if_true]
  refine ⟨as ++ [.finish q], _, hrun.append (Run.one hstep), fun a ha => ?_, ?_⟩
  · rcases List.mem_append.1 ha with ha | ha
    · exact hproc a ha
    · rw [List.mem_singleton.1 ha]
      rfl
  · rw [setPc_of_ne hne, wakeup_pc]
    exact if_pos ((hkeep p hne).trans hp)

/-- `end_op` wakes the sleepers, at once or after the commit. -/
theorem Inv.endOp_wakes (h : Inv s) (hq : s.pc q = .op) (hp : s.pc p = .asleep) :
    ∃ as t, Run (ofFun Sys.step) s as t ∧ (∀ a ∈ as, a.proc = q) ∧ t.pc p = .begins := by
  have hne : p ≠ q := ne_of_asleep hp (hq ▸ nofun)
  obtain ⟨l, hl⟩ := h.endOp_ok (p := q) (by rw [hq]; rfl)
  by_cases hc : l.committing = true
  · have hstep : s.step (.endOp q) = some ({ s with log := l }.setPc q (.commits .start)) := by
      simp only [Sys.step, hq, hl, hc, if_true]
    exact wakes_cons hstep rfl (commit_wakes (setPc_self (s := { s with log := l }) (p := q))
      ((setPc_of_ne hne).trans hp))
  have hstep : s.step (.endOp q) = some ({ s with log := l }.wakeup.setPc q .idle) := by
    simp only [Sys.step, hq, hl, hc]
    rfl
  refine wakes_cons hstep rfl ⟨[], _, .nil _, nofun, ?_⟩
  rw [setPc_of_ne hne, wakeup_pc]
  exact if_pos hp

theorem Inv.inOp_wakes (h : Inv s) (hq : (s.pc q).inOp = true) (hp : s.pc p = .asleep) :
    ∃ as t, Run (ofFun Sys.step) s as t ∧ (∀ a ∈ as, a.proc = q) ∧ t.pc p = .begins := by
  have hne : p ≠ q := by
    rintro rfl
    rw [hp] at hq
    cases hq
  cases hpc : s.pc q with
  | op => exact h.endOp_wakes hpc hp
  | checked b =>
    -- `log_write` ends first
    have hstep : s.step (.append q) = some ({ s with log := s.log.append b }.setPc q .op) := by
      simp only [Sys.step, hpc]
    exact wakes_cons hstep rfl ((h.step hstep).endOp_wakes setPc_self ((setPc_of_ne hne).trans hp))
  | _ =>
    rw [hpc] at hq
    cases hq

/-- The process is in an operation or in `commit`, and its next steps wake the sleeper `p`. -/
def Wakes (s : Sys P) (q p : P) : Prop :=
  ((s.pc q).inOp = true ∨ ∃ d, s.pc q = .commits d) ∧
    ∃ as t, Run (ofFun Sys.step) s as t ∧ (∀ a ∈ as, a.proc = q) ∧ t.pc p = .begins

theorem Inv.wakes (h : Inv s) (hp : s.pc p = .asleep) : ∃ q, Wakes s q p := by
  rcases h.waker hp with ⟨q, hq⟩ | ⟨q, d, hq⟩
  · exact ⟨q, .inl hq, h.inOp_wakes hq hp⟩
  · exact ⟨q, .inr ⟨d, hq⟩, commit_wakes hq hp⟩

/-- A commit runs alone, and whoever sleeps in `begin_op` will be woken. -/
theorem log_scheduling {as : List (Act P)} (hrun : Run (ofFun Sys.step) Sys.start as s) :
    (∀ p d, s.pc p = .commits d →
      s.log.outstanding = 0 ∧ s.log.committing = true ∧ ∀ q, (s.pc q).inOp = false) ∧
    (∀ p, s.pc p = .op → ∃ l, s.log.endOp = .ok l) ∧ s.log.lh.Nodup ∧
    (s.log.outstanding = 0 → s.log.committing = false → s.log.lh = [] ∧ ∀ p, s.pc p ≠ .asleep) ∧
    ∀ p, s.pc p = .asleep → ∃ q, Wakes s q p := by
  have h := Inv.run hrun
  refine ⟨fun p d hp => ?_, fun p hp => ?_, h.nodup, fun hzero hc => ⟨h.empty hc hzero, fun p hp => ?_⟩,
    fun p => h.wakes⟩
  · have hc := (h.commits hp).1
    refine ⟨h.quiet hc, hc, fun q => Bool.eq_false_iff.2 fun hq => ?_⟩
    rw [h.not_committing hq] at hc
    cases hc
  · exact h.endOp_ok (p := p) (by rw [hp]; rfl)
  · rcases h.asleep hp with hc' | hpos
    · rw [hc] at hc'
      cases hc'
    · omega

end Invariant

/-- Three operations fill the log, and a fourth process sleeps. -/
def crowd : List (Act (Fin 4)) :=
  [.call 0, .call 1, .call 2, .call 3, .test 0, .test 1, .check 0 40, .test 2, .test 3, .append 0]

theorem crowd_runs : (crowd.foldlM Sys.step Sys.start).isSome = true := by decide

theorem log_scheduling_crowd : ((crowd.foldlM Sys.step Sys.start).get crowd_runs).pc 3 = .asleep ∧
    ∃ q, Wakes ((crowd.foldlM Sys.step Sys.start).get crowd_runs) q 3 := by
  have hasleep : ((crowd.foldlM Sys.step Sys.start).get crowd_runs).pc 3 = .asleep := by decide
  exact ⟨hasleep, (log_scheduling (Run.of_foldlM (Option.some_get crowd_runs).symm)).2.2.2.2 3 hasleep⟩

end Xv6.Ops

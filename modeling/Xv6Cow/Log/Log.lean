import Xv6Cow.Lib.Run
import Xv6Cow.Param

/-!
# The log protocol (`log.c`)

`begin_op`, `log_write` and `end_op` as steps of processes on the in-memory log.  `log_write` tests
`log.lh.n` before it acquires `log.lock`, so its test and its append are two steps.  The last
`end_op` sets `committing`; `commit` then empties the header (`clear`), and `end_op` resets the flag
(`finish`).
-/

namespace Xv6

open Lts

/-- `sb.nlog` as `mkfs` sets it: the header block and the data blocks. -/
def nlog : ℕ := logsize

/-- `sb.logstart`. -/
def logstart : ℕ := 2

/-- `struct log`: the blocks `lh.block[0..lh.n)`, and the two counters. -/
structure Log where
  lh : List ℕ
  outstanding : ℕ
  committing : Bool

namespace Log

/-- The test of `begin_op`; while it fails the caller sleeps. -/
def admits (l : Log) : Bool :=
  !l.committing && decide (l.lh.length + (l.outstanding + 1) * maxopblocks ≤ logsize)

/-- The tests of `log_write`, made without the lock. -/
def check (l : Log) : Except String Unit :=
  if logsize ≤ l.lh.length ∨ nlog - 1 ≤ l.lh.length then throw "too big a transaction"
  else if l.outstanding < 1 then throw "log_write outside of trans"
  else pure ()

/-- The section of `log_write`: a block that is in the log already is absorbed. -/
def append (l : Log) (b : ℕ) : Log := if b ∈ l.lh then l else { l with lh := l.lh ++ [b] }

/-- The first section of `end_op`. -/
def endOp (l : Log) : Except String Log :=
  if l.committing then throw "log.committing"
  else if l.outstanding - 1 = 0 then pure { l with outstanding := 0, committing := true }
  else pure { l with outstanding := l.outstanding - 1 }

end Log

/-! ## Processes -/

/-- Where a process stands: outside, in its operation number `o`, or in the middle of
`log_write(b)`. -/
inductive OpPc
  | idle
  | op (o : ℕ)
  | checked (o b : ℕ)
deriving DecidableEq

/-- The log and the processes that use it; operations are numbered in the order they begin. -/
structure LogSys where
  log : Log
  pc : Pid → OpPc
  ops : ℕ

inductive LogOp
  | beginOp (p : Pid)
  | check (p : Pid) (b : ℕ)
  | append (p : Pid) (b : ℕ)
  | endOp (p : Pid)
  | clear
  | finish
deriving DecidableEq

namespace LogSys

def setPc (s : LogSys) (p : Pid) (c : OpPc) : LogSys := { s with pc := Function.update s.pc p c }

/-- One step; a panic or a process that sleeps has none. -/
def step (s : LogSys) : LogOp → Option LogSys
  | .beginOp p =>
    if s.pc p = .idle ∧ s.log.admits then
      some ({ s with log := { s.log with outstanding := s.log.outstanding + 1 }
                     ops := s.ops + 1 }.setPc p (.op s.ops))
    else none
  | .check p b =>
    match s.pc p, s.log.check with
    | .op o, .ok _ => some (s.setPc p (.checked o b))
    | _, _ => none
  | .append p b =>
    match s.pc p with
    | .checked o b' =>
      if b' = b then some ({ s with log := s.log.append b }.setPc p (.op o)) else none
    | _ => none
  | .endOp p =>
    match s.pc p, s.log.endOp with
    | .op _, .ok l => some ({ s with log := l }.setPc p .idle)
    | _, _ => none
  | .clear => if s.log.committing then some { s with log := { s.log with lh := [] } } else none
  | .finish =>
    if s.log.committing ∧ s.log.lh = [] then
      some { s with log := { s.log with committing := false } }
    else none

/-- The log after recovery. -/
def start : LogSys := ⟨⟨[], 0, false⟩, fun _ => .idle, 0⟩

end LogSys

/-! ## What a step can do -/

section Cases

variable {s t : LogSys} {p : Pid} {b : ℕ}

theorem step_beginOp (h : s.step (.beginOp p) = some t) : s.pc p = .idle ∧ s.log.admits = true ∧
      t = { s with log := { s.log with outstanding := s.log.outstanding + 1 }
                   ops := s.ops + 1 }.setPc p (.op s.ops) := by
  simp only [LogSys.step] at h
  split_ifs at h with hc
  exact ⟨hc.1, hc.2, (Option.some.inj h).symm⟩

theorem step_check (h : s.step (.check p b) = some t) :
    ∃ o, s.pc p = .op o ∧ s.log.check = .ok () ∧ t = s.setPc p (.checked o b) := by
  simp only [LogSys.step] at h
  split at h
  next o u hpc hck => exact ⟨o, hpc, hck, (Option.some.inj h).symm⟩
  next => cases h

theorem step_append (h : s.step (.append p b) = some t) :
    ∃ o, s.pc p = .checked o b ∧ t = { s with log := s.log.append b }.setPc p (.op o) := by
  simp only [LogSys.step] at h
  split at h
  next o b' hpc =>
    split_ifs at h with hb
    exact ⟨o, by rw [hpc, hb], (Option.some.inj h).symm⟩
  next => cases h

theorem step_endOp (h : s.step (.endOp p) = some t) :
    ∃ o l, s.pc p = .op o ∧ s.log.endOp = .ok l ∧ t = { s with log := l }.setPc p .idle := by
  simp only [LogSys.step] at h
  split at h
  next o l hpc hend => exact ⟨o, l, hpc, hend, (Option.some.inj h).symm⟩
  next => cases h

theorem step_clear (h : s.step .clear = some t) :
    s.log.committing = true ∧ t = { s with log := { s.log with lh := [] } } := by
  simp only [LogSys.step] at h
  split_ifs at h with hc
  exact ⟨hc, (Option.some.inj h).symm⟩

theorem step_finish (h : s.step .finish = some t) : s.log.committing = true ∧ s.log.lh = [] ∧
      t = { s with log := { s.log with committing := false } } := by
  simp only [LogSys.step] at h
  split_ifs at h with hc
  exact ⟨hc.1, hc.2, (Option.some.inj h).symm⟩

theorem Log.endOp_ok {l l' : Log} (h : l.endOp = .ok l') :
    l.committing = false ∧ l'.lh = l.lh ∧ l'.outstanding = l.outstanding - 1 ∧
      l'.committing = decide (l.outstanding - 1 = 0) := by
  unfold Log.endOp at h
  split_ifs at h with hc h0
  · cases h
    exact ⟨by simpa using hc, rfl, h0.symm, by simp [h0]⟩
  · cases h
    exact ⟨by simpa using hc, rfl, rfl, by simp [h0, hc]⟩

end Cases

/-! ## Admission -/

theorem Log.nodup_append {l : Log} (h : l.lh.Nodup) (b : ℕ) : (l.append b).lh.Nodup := by
  unfold Log.append
  split_ifs with hb
  · exact h
  · exact List.nodup_append'.2 ⟨h, List.nodup_singleton b, by simpa using hb⟩

theorem Log.toFinset_append (l : Log) (b : ℕ) : (l.append b).lh.toFinset = insert b l.lh.toFinset := by
  unfold Log.append
  split_ifs with hb
  · exact (Finset.insert_eq_of_mem (List.mem_toFinset.2 hb)).symm
  · ext x
    simp

/-- How a step changes the distinct blocks passed to `log_write` since the last commit. -/
def LogOp.logs (X : Finset ℕ) : LogOp → Finset ℕ
  | .append _ b => insert b X
  | .clear => ∅
  | _ => X

/-- The distinct blocks passed to `log_write` since the last commit. -/
def logged (ls : List LogOp) : Finset ℕ := ls.foldl LogOp.logs ∅

theorem lh_step {s t : LogSys} {l : LogOp} (h : s.step l = some t) (hnd : s.log.lh.Nodup) :
    t.log.lh.Nodup ∧ t.log.lh.toFinset = l.logs s.log.lh.toFinset := by
  cases l with
  | beginOp p =>
    obtain ⟨-, -, rfl⟩ := step_beginOp h
    exact ⟨hnd, rfl⟩
  | check p b =>
    obtain ⟨o, -, -, rfl⟩ := step_check h
    exact ⟨hnd, rfl⟩
  | append p b =>
    obtain ⟨o, -, rfl⟩ := step_append h
    exact ⟨Log.nodup_append hnd b, Log.toFinset_append _ b⟩
  | endOp p =>
    obtain ⟨o, l, -, hend, rfl⟩ := step_endOp h
    have hlh : l.lh = s.log.lh := (Log.endOp_ok hend).2.1
    show l.lh.Nodup ∧ l.lh.toFinset = s.log.lh.toFinset
    rw [hlh]
    exact ⟨hnd, rfl⟩
  | clear =>
    obtain ⟨-, rfl⟩ := step_clear h
    exact ⟨List.nodup_nil, rfl⟩
  | finish =>
    obtain ⟨-, -, rfl⟩ := step_finish h
    exact ⟨hnd, rfl⟩

theorem lh_run {s t : LogSys} {ls : List LogOp} (h : Run (ofFun LogSys.step) s ls t)
    (hnd : s.log.lh.Nodup) :
    t.log.lh.Nodup ∧ t.log.lh.toFinset = ls.foldl LogOp.logs s.log.lh.toFinset := by
  induction h with
  | nil => exact ⟨hnd, rfl⟩
  | cons head _ ih =>
    obtain ⟨hnd', hset⟩ := lh_step head hnd
    obtain ⟨hnd'', hset'⟩ := ih hnd'
    exact ⟨hnd'', by rw [hset', hset, List.foldl_cons]⟩

/-- `log_write` panics for a transaction that is too big exactly if `nlog - 1` distinct blocks have
been passed to it since the last commit: one less than the reservations of `begin_op` allow. -/
theorem tooBig_iff {s : LogSys} {ls : List LogOp} (hrun : Run (ofFun LogSys.step) .start ls s) :
    s.log.check = .error "too big a transaction" ↔ nlog - 1 ≤ (logged ls).card := by
  obtain ⟨hnd, hset⟩ := lh_run hrun List.nodup_nil
  have hcard : s.log.lh.length = (logged ls).card := by
    rw [← List.toFinset_card_of_nodup hnd, hset]
    rfl
  unfold Log.check
  rw [← hcard]
  split_ifs with hbig hout
  · have hle : nlog - 1 ≤ s.log.lh.length := by
      simp only [nlog, logsize, maxopblocks] at *
      omega
    exact ⟨fun _ => hle, fun _ => rfl⟩
  · exact ⟨fun h => absurd (Except.error.inj h) (by decide), fun h => absurd (.inr h) hbig⟩
  · exact ⟨nofun, fun h => absurd (.inr h) hbig⟩

/-- How a step changes the blocks that process `p` has passed to `log_write` in its operation. -/
def LogOp.blocks (p : Pid) (X : Finset ℕ) : LogOp → Finset ℕ
  | .beginOp p' => if p' = p then ∅ else X
  | .check p' b => if p' = p then insert b X else X
  | _ => X

/-- The blocks that process `p` has passed to `log_write` in its current operation. -/
def opBlocks (p : Pid) (ls : List LogOp) : Finset ℕ := ls.foldl (LogOp.blocks p) ∅

/-- Every operation passes at most `MAXOPBLOCKS` distinct blocks to `log_write`. -/
def Reserved (ls : List LogOp) : Prop := ∀ ms, ms <+: ls → ∀ p, (opBlocks p ms).card ≤ maxopblocks

/-- `n` calls of `log_write` by process `p`, for the blocks from `b` on. -/
def writes (p : Pid) (b n : ℕ) : List LogOp :=
  (List.range n).flatMap fun i => [.check p (b + i), .append p (b + i)]

/-- Three operations that are all admitted log ten, ten and nine blocks. -/
def fullLoad : List LogOp :=
  [.beginOp 0, .beginOp 1, .beginOp 2] ++ writes 0 100 10 ++ writes 1 110 10 ++ writes 2 120 9

theorem fullLoad_runs : (fullLoad.foldlM LogSys.step .start).isSome = true := by decide

theorem tooBig_iff_fullLoad :
    ((fullLoad.foldlM LogSys.step .start).get fullLoad_runs).log.check =
      .error "too big a transaction" ↔ nlog - 1 ≤ (logged fullLoad).card :=
  tooBig_iff (Run.of_foldlM (Option.some_get fullLoad_runs).symm)

/-- The tenth block of the third operation makes `log_write` panic. -/
theorem log_too_small : ∃ ls s o, Run (ofFun LogSys.step) .start ls s ∧ s.pc 2 = .op o ∧
    Reserved (ls ++ [.check 2 129]) ∧ s.log.check = .error "too big a transaction" := by
  refine ⟨fullLoad, (fullLoad.foldlM LogSys.step .start).get fullLoad_runs, 2,
    Run.of_foldlM (Option.some_get fullLoad_runs).symm, ?_, ?_, ?_⟩
  · decide
  · have hinits : ∀ ms ∈ (fullLoad ++ [LogOp.check 2 129]).inits, ∀ p,
        (opBlocks p ms).card ≤ maxopblocks := by decide +kernel
    exact fun ms hms => hinits ms ((List.mem_inits _ _).2 hms)
  · decide

end Xv6

import Xv6Cow.Pipe.Pipe

/-!
# A pipe is a stream, and who is woken

A process asleep on `&p->nread` finds the pipe empty and its write end open, and one asleep on
`&p->nwrite` finds it full and its read end open, but for one way out of `pipewrite`: where it returns
-1 after it has stored something, it wakes nobody.
-/

namespace Xv6.Pipes

open Function Lts

namespace Pipe

variable {p : Pipe} {k : ℕ} {written taken : List UInt8}

def size (p : Pipe) : ℕ := Ring.size p.nread p.nwrite

/-- The bytes in the ring. -/
def buffered (p : Pipe) : List UInt8 := Ring.window p.data p.nread p.size

/-- What is in the ring has been written and not been taken. -/
structure Stream (p : Pipe) (written taken : List UInt8) : Prop where
  size_le : p.size ≤ pipeSize
  eq : written = taken ++ p.buffered

theorem full_iff : p.nwrite = p.nread + BitVec.ofNat 32 pipeSize ↔ p.size = pipeSize :=
  (Ring.size_eq_full (by decide)).symm

theorem empty_iff : p.nread = p.nwrite ↔ p.size = 0 := Ring.size_eq_zero.symm

theorem size_put (h : p.size < pipeSize) (b : UInt8) : (p.put b).size = p.size + 1 := by
  refine Ring.size_put (lt_of_le_of_lt ?_ (show pipeSize < 2 ^ 32 by decide))
  exact h

theorem buffered_put (h : p.size < pipeSize) (b : UInt8) : (p.put b).buffered = p.buffered ++ [b] := by
  rw [buffered, size_put h]
  exact Ring.window_put (by decide) h

theorem size_advance (h : p.nread ≠ p.nwrite) : p.advance.size + 1 = p.size := Ring.size_get h

theorem buffered_advance (h : p.nread ≠ p.nwrite) :
    p.buffered = p.data (Ring.cell p.nread) :: p.advance.buffered := by
  rw [buffered, ← size_advance h]
  exact Ring.window_get

theorem Stream.put (h : p.Stream written taken) (hfull : p.size < pipeSize) (b : UInt8) :
    (p.put b).Stream (written ++ [b]) taken := by
  refine ⟨by rw [size_put hfull]; exact hfull, ?_⟩
  rw [buffered_put hfull, h.eq, List.append_assoc]

theorem Stream.advance (h : p.Stream written taken) (hne : p.nread ≠ p.nwrite) :
    p.advance.Stream written (taken ++ [p.data (Ring.cell p.nread)]) := by
  have hsize := size_advance hne
  refine ⟨?_, ?_⟩
  · have := h.size_le
    omega
  · rw [h.eq, buffered_advance hne, List.append_assoc, List.singleton_append]

/-! ## Sections -/

/-- `pipewrite` puts in what it has room for, and then it returns, or fails, or sleeps. -/
theorem pipewrite_spec (h : p.Stream written taken) (addr : ℕ → UInt8) (killed : Bool) (i k : ℕ) :
    (p.pipewrite addr killed i k).1.Stream (written ++ (p.pipewrite addr killed i k).2.1) taken ∧
      (p.pipewrite addr killed i k).1.nread = p.nread ∧
      (p.pipewrite addr killed i k).1.readopen = p.readopen ∧
      (p.pipewrite addr killed i k).1.writeopen = p.writeopen := by
  induction k generalizing p i written with
  | zero => exact ⟨by simpa [pipewrite] using h, rfl, rfl, rfl⟩
  | succ k ih =>
    by_cases hfull : p.nwrite = p.nread + BitVec.ofNat 32 pipeSize
    · have hsame : (p.pipewrite addr killed i (k + 1)).1 = p ∧
          (p.pipewrite addr killed i (k + 1)).2.1 = [] := by
        rw [pipewrite, if_pos hfull]
        split_ifs <;> exact ⟨rfl, rfl⟩
      rw [hsame.1, hsame.2, List.append_nil]
      exact ⟨h, rfl, rfl, rfl⟩
    · have hlt : p.size < pipeSize := lt_of_le_of_ne h.size_le fun he => hfull (full_iff.2 he)
      rw [pipewrite, if_neg hfull]
      have hnext := ih (h.put hlt (addr i)) (i + 1)
      rw [List.append_assoc, List.singleton_append] at hnext
      exact hnext

theorem pipewrite_end (h : p.size ≤ pipeSize) (addr : ℕ → UInt8) (killed : Bool) (i k : ℕ) :
    (p.size + k ≤ pipeSize ∧ (p.pipewrite addr killed i k).2.2 = .returns ∧
        (p.pipewrite addr killed i k).1.size = p.size + k) ∨
      pipeSize < p.size + k ∧ (p.pipewrite addr killed i k).1.size = pipeSize ∧
        if p.readopen = false ∨ killed = true then (p.pipewrite addr killed i k).2.2 = .fails
        else ∃ i' k', (p.pipewrite addr killed i k).2.2 = .sleeps i' k' := by
  induction k generalizing p i with
  | zero => exact .inl ⟨h, rfl, rfl⟩
  | succ k ih =>
    by_cases hfull : p.nwrite = p.nread + BitVec.ofNat 32 pipeSize
    · have hsize := full_iff.1 hfull
      refine .inr ⟨by omega, ?_⟩
      rw [pipewrite, if_pos hfull]
      split_ifs
      · exact ⟨hsize, rfl⟩
      · exact ⟨hsize, i, k + 1, rfl⟩
    have hlt : p.size < pipeSize := lt_of_le_of_ne h fun he => hfull (full_iff.2 he)
    have hput := size_put hlt (addr i)
    have hnext := ih (p := p.put (addr i)) (by rw [hput]; exact hlt) (i + 1)
    rw [pipewrite, if_neg hfull]
    rw [hput] at hnext
    rcases hnext with ⟨hle, he, hs⟩ | ⟨hle, hs, he⟩
    · exact .inl ⟨by omega, he, by rw [hs]; omega⟩
    · exact .inr ⟨by omega, hs, he⟩

theorem copy_spec (h : p.Stream written taken) :
    (p.copy k).1.Stream written (taken ++ (p.copy k).2) := by
  induction k generalizing p taken with
  | zero => simpa [copy] using h
  | succ k ih =>
    rw [copy]
    split_ifs with hempty
    · simpa using h
    · have hnext := ih (h.advance hempty)
      rw [List.append_assoc, List.singleton_append] at hnext
      exact hnext

end Pipe

variable {P : Type} [DecidableEq P] {s s' : Sys P} {p : P} {op : Op} {l : P × Op}
  {ls : List (P × Op)} {data : Fin pipeSize → UInt8}

theorem step_cases (h : step s (p, op) = some s') : (op = .kill ∧ s' = s.kill p) ∨
    (∃ t, s.task p = .idle ∧ s' = s.setTask p t ∧ op ≠ .run ∧
      ((∃ addr n, t = .write addr 0 n false) ∨ ∃ n, t = .read n false)) ∨
    (∃ addr i k, op = .run ∧ s.task p = .write addr i k false ∧ s' = s.runWrite p addr i k) ∨
    (∃ n, op = .run ∧ s.task p = .read n false ∧ s' = s.runRead p n) ∨
    ∃ writable, op = .pipeclose writable ∧ s' = s.pipeclose writable := by
  simp only [step] at h
  cases op with
  | kill => exact .inl ⟨rfl, by simpa using h.symm⟩
  | pipewrite addr n =>
    split_ifs at h
    cases ht : s.task p with
    | idle =>
      rw [ht] at h
      exact .inr (.inl ⟨_, rfl, by simpa using h.symm, nofun, .inl ⟨addr, _, rfl⟩⟩)
    | write | read =>
      rw [ht] at h
      cases h
  | piperead n =>
    split_ifs at h
    cases ht : s.task p with
    | idle =>
      rw [ht] at h
      exact .inr (.inl ⟨_, rfl, by simpa using h.symm, nofun, .inr ⟨n, rfl⟩⟩)
    | write | read =>
      rw [ht] at h
      cases h
  | run =>
    split_ifs at h
    cases ht : s.task p with
    | idle =>
      rw [ht] at h
      cases h
    | write addr i k asleep =>
      rw [ht] at h
      cases asleep with
      | true => cases h
      | false => exact .inr (.inr (.inl ⟨addr, i, k, rfl, rfl, by simpa using h.symm⟩))
    | read n asleep =>
      rw [ht] at h
      cases asleep with
      | true => cases h
      | false => exact .inr (.inr (.inr (.inl ⟨n, rfl, rfl, by simpa using h.symm⟩)))
  | pipeclose writable =>
    split_ifs at h
    cases ht : s.task p with
    | idle =>
      rw [ht] at h
      exact .inr (.inr (.inr (.inr ⟨writable, rfl, by simpa using h.symm⟩)))
    | write | read =>
      rw [ht] at h
      cases h

/-! ## The stream -/

theorem step_stream (h : step s l = some s') (hs : s.pipe.Stream s.written s.taken) :
    s'.pipe.Stream s'.written s'.taken := by
  obtain ⟨p, op⟩ := l
  rcases step_cases h with ⟨-, rfl⟩ | ⟨t, -, rfl, -⟩ | ⟨addr, i, k, -, -, rfl⟩ | ⟨n, -, -, rfl⟩ |
    ⟨writable, -, rfl⟩
  · exact hs
  · exact hs
  · have hw := (Pipe.pipewrite_spec hs addr (s.killed p) i k).1
    unfold Sys.runWrite
    dsimp only
    split <;> exact hw
  · unfold Sys.runRead Pipe.piperead
    split_ifs
    · exact hs
    · exact hs
    · exact Pipe.copy_spec hs
  · cases writable <;> exact ⟨hs.size_le, hs.eq⟩

omit [DecidableEq P] in
theorem pipealloc_stream :
    (pipealloc P data).pipe.Stream (pipealloc P data).written (pipealloc P data).taken := by
  have hsize : (pipealloc P data).pipe.size = 0 := Ring.size_eq_zero.2 rfl
  refine ⟨by rw [hsize]; exact Nat.zero_le _, ?_⟩
  rw [Pipe.buffered, hsize]
  rfl

theorem run_stream (run : Run (ofFun step) (pipealloc P data) ls s) :
    s.pipe.Stream s.written s.taken :=
  run.invariant (I := fun s => s.pipe.Stream s.written s.taken) pipealloc_stream
    fun _ _ _ hs h => step_stream h hs

/-- A pipe is a stream: what has been returned is a part of what has been stored, from its beginning,
and the rest is in the ring. -/
theorem fifo (run : Run (ofFun step) (pipealloc P data) ls s) :
    (s.pipe.nwrite - s.pipe.nread).toNat ≤ pipeSize ∧ s.taken <+: s.written ∧
      s.written = s.taken ++ s.pipe.buffered ∧
      s.pipe.buffered.length = (s.pipe.nwrite - s.pipe.nread).toNat := by
  have hs := run_stream run
  refine ⟨hs.size_le, ?_, hs.eq, Ring.window_length⟩
  rw [hs.eq]
  exact List.prefix_append ..

/-- One process writes three bytes, and another one reads two of them. -/
def twoRead : Sys Bool :=
  ((((pipealloc Bool fun _ => 0).setTask true (.write (fun i => i.toUInt8) 0 3 false)).runWrite true
    (fun i => i.toUInt8) 0 3).setTask false (.read 2 false)).runRead false 2

theorem twoRead_run : Run (ofFun step) (pipealloc Bool fun _ => 0)
    [(true, .pipewrite (fun i => i.toUInt8) 3), (true, .run), (false, .piperead 2), (false, .run)]
    twoRead :=
  .cons rfl (.cons rfl (.cons rfl (.one rfl)))

theorem fifo_twoRead : twoRead.taken = [0, 1] ∧ twoRead.written = twoRead.taken ++ [2] := by
  refine ⟨by decide +kernel, ?_⟩
  rw [(fifo twoRead_run).2.2.1]
  decide +kernel

/-! ## Wakeups -/

/-- Nobody sleeps without a reason. -/
structure NoneForgotten (s : Sys P) : Prop where
  reader : ∀ q n, s.task q = .read n true → s.pipe.nread = s.pipe.nwrite ∧ s.pipe.writeopen = true
  writer : ∀ q addr i k, s.task q = .write addr i k true →
    s.pipe.nwrite = s.pipe.nread + BitVec.ofNat 32 pipeSize ∧ s.pipe.readopen = true

/-- No process that has been killed, or whose readers are gone, comes to write with room for some of
its bytes and not for all, while a reader sleeps. -/
def WriteOk (s : Sys P) (l : P × Op) : Prop :=
  l.2 = .run → ∀ addr i k, s.task l.1 = .write addr i k false →
    s.pipe.readopen = false ∨ s.killed l.1 = true → s.pipe.size < pipeSize →
    pipeSize < s.pipe.size + k → ∀ q n, s.task q ≠ .read n true

omit [DecidableEq P] in
/-- After `wakeup(&p->nread)` only the writers matter. -/
theorem noneForgotten_wakeReaders {s : Sys P} (hw : ∀ q addr i k, s.task q = .write addr i k true →
      s.pipe.nwrite = s.pipe.nread + BitVec.ofNat 32 pipeSize ∧ s.pipe.readopen = true) :
    NoneForgotten s.wakeReaders := by
  refine ⟨fun q n hq => ?_, fun q addr i k hq => hw q addr i k ?_⟩
  · cases ht : s.task q <;> simp [Sys.wakeReaders, Task.wakeReader, ht] at hq
  · cases ht : s.task q <;> simp_all [Sys.wakeReaders, Task.wakeReader]

omit [DecidableEq P] in
theorem noneForgotten_wakeWriters {s : Sys P} (hr : ∀ q n, s.task q = .read n true →
      s.pipe.nread = s.pipe.nwrite ∧ s.pipe.writeopen = true) : NoneForgotten s.wakeWriters := by
  refine ⟨fun q n hq => hr q n ?_, fun q addr i k hq => ?_⟩
  · cases ht : s.task q <;> simp_all [Sys.wakeWriters, Task.wakeWriter]
  · cases ht : s.task q <;> simp [Sys.wakeWriters, Task.wakeWriter, ht] at hq

theorem NoneForgotten.setTask (h : NoneForgotten s) {t : Task}
    (hr : ∀ n, t = .read n true → s.pipe.nread = s.pipe.nwrite ∧ s.pipe.writeopen = true)
    (hw : ∀ addr i k, t = .write addr i k true →
      s.pipe.nwrite = s.pipe.nread + BitVec.ofNat 32 pipeSize ∧ s.pipe.readopen = true) :
    NoneForgotten (s.setTask p t) := by
  refine ⟨fun q n hq => ?_, fun q addr i k hq => ?_⟩
  all_goals
    simp only [Sys.setTask] at hq
    by_cases hqp : q = p
  · rw [hqp, update_self] at hq
    exact hr n hq
  · rw [update_of_ne hqp] at hq
    exact h.reader q n hq
  · rw [hqp, update_self] at hq
    exact hw addr i k hq
  · rw [update_of_ne hqp] at hq
    exact h.writer q addr i k hq

/-- A section of `pipewrite` forgets a reader if and only if it returns -1 with something stored. -/
theorem runWrite_noneForgotten (h : NoneForgotten s) (hs : s.pipe.Stream s.written s.taken)
    {addr : ℕ → UInt8} {i k : ℕ} (hp : s.task p = .write addr i k false) :
    NoneForgotten (s.runWrite p addr i k) ↔ WriteOk s (p, .run) := by
  obtain ⟨-, -, hopen, -⟩ := Pipe.pipewrite_spec hs addr (s.killed p) i k
  have hend := Pipe.pipewrite_end hs.size_le addr (s.killed p) i k
  unfold Sys.runWrite
  generalize s.pipe.pipewrite addr (s.killed p) i k = r at hopen hend ⊢
  obtain ⟨pipe, stored, last⟩ := r
  dsimp only at hopen hend ⊢
  let s1 : Sys P := { s with pipe := pipe, written := s.written ++ stored }
  -- whoever sleeps on `&p->nwrite` saw a full pipe, and it still is
  have hfull : ∀ q addr' i' k', s.task q = .write addr' i' k' true →
      pipe.nwrite = pipe.nread + BitVec.ofNat 32 pipeSize ∧ pipe.readopen = true := by
    intro q addr' i' k' hq
    obtain ⟨hf, hro⟩ := h.writer q addr' i' k' hq
    rw [Pipe.full_iff] at hf ⊢
    exact ⟨by omega, by rw [hopen, hro]⟩
  have hwake : NoneForgotten s1.wakeReaders := noneForgotten_wakeReaders (s := s1) hfull
  rcases hend with ⟨hfit, rfl, -⟩ | ⟨hfit, hsize, hend⟩
  · have hok : WriteOk s (p, .run) := by
      intro _ addr' i' k' hp' _ hroom hmore
      rw [hp] at hp'
      cases hp'
      omega
    exact iff_of_true (hwake.setTask nofun nofun) hok
  split_ifs at hend with hgone
  · subst hend
    constructor
    · -- a reader that slept before sleeps on, with a full pipe
      intro hnew _ addr' i' k' _ _ _ _ q n hq
      have hqp : q ≠ p := by
        rintro rfl
        rw [hp] at hq
        cases hq
      have hempty := (hnew.reader q n ((update_of_ne hqp ..).trans hq)).1
      rw [show (s1.setTask p .idle).pipe = pipe from rfl, Pipe.empty_iff, hsize] at hempty
      cases hempty
    · intro hok
      have hnobody : ∀ q n, s.task q ≠ .read n true := by
        intro q n hq
        have hempty := Pipe.empty_iff.1 (h.reader q n hq).1
        refine hok rfl addr i k hp hgone ?_ hfit q n hq
        rw [hempty]
        decide
      have h1 : NoneForgotten s1 := ⟨fun q n hq => absurd hq (hnobody q n), hfull⟩
      exact h1.setTask nofun nofun
  · obtain ⟨i', k', rfl⟩ := hend
    have hok : WriteOk s (p, .run) := by
      intro _ addr' i' k' _ hgone'
      exact absurd hgone' hgone
    refine iff_of_true (hwake.setTask nofun fun addr' i' k' _ => ⟨Pipe.full_iff.2 hsize, ?_⟩) hok
    show pipe.readopen = true
    rw [hopen]
    simpa using fun hro => hgone (.inl hro)

/-- A section of `piperead` forgets nobody. -/
theorem runRead_noneForgotten (h : NoneForgotten s) (n : ℤ) : NoneForgotten (s.runRead p n) := by
  unfold Sys.runRead Pipe.piperead
  split_ifs with hempty hkilled
  · exact h.setTask nofun nofun
  · exact h.setTask (fun _ _ => hempty) nofun
  · -- nobody else sleeps on `&p->nread` either
    refine NoneForgotten.setTask (noneForgotten_wakeWriters ?_) nofun nofun
    intro q n' hq
    exact absurd (h.reader q n' hq) hempty

omit [DecidableEq P] in
theorem pipeclose_noneForgotten (h : NoneForgotten s) (writable : Bool) :
    NoneForgotten (s.pipeclose writable) := by
  cases writable with
  | true => exact noneForgotten_wakeReaders h.writer
  | false => exact noneForgotten_wakeWriters h.reader

theorem kill_noneForgotten (h : NoneForgotten s) : NoneForgotten (s.kill p) := by
  have hset : NoneForgotten (s.setTask p (s.task p).wakeReader.wakeWriter) := by
    refine h.setTask (fun n hn => ?_) fun addr i k hk => ?_
    all_goals cases ht : s.task p <;> simp_all [Task.wakeReader, Task.wakeWriter]
  exact ⟨hset.reader, hset.writer⟩

theorem step_noneForgotten (hstep : step s l = some s') (h : NoneForgotten s)
    (hs : s.pipe.Stream s.written s.taken) : NoneForgotten s' ↔ WriteOk s l := by
  obtain ⟨p, op⟩ := l
  rcases step_cases hstep with ⟨rfl, rfl⟩ | ⟨t, -, rfl, hop, ht⟩ | ⟨addr, i, k, rfl, hp, rfl⟩ |
    ⟨n, rfl, hp, rfl⟩ | ⟨writable, rfl, rfl⟩
  · exact iff_of_true (kill_noneForgotten h) nofun
  · refine iff_of_true (h.setTask ?_ ?_) fun hrun => absurd hrun hop
    all_goals
      rcases ht with ⟨addr, n, rfl⟩ | ⟨n, rfl⟩
      · nofun
      · nofun
  · exact runWrite_noneForgotten h hs hp
  · refine iff_of_true (runRead_noneForgotten h n) fun _ addr i k hk => ?_
    rw [hp] at hk
    cases hk
  · exact iff_of_true (pipeclose_noneForgotten h writable) nofun

/-- In a run in which each step meets `WriteOk` nobody sleeps on `&p->nread` while the pipe holds data
or its write end is closed, nor on `&p->nwrite` while it has room or its read end is closed; and a step
that does not meet it forgets somebody. -/
theorem no_lost_wakeup (run : Run (given (ofFun step) WriteOk) (pipealloc P data) ls s) :
    NoneForgotten s ∧ ∀ l s', step s l = some s' → (NoneForgotten s' ↔ WriteOk s l) := by
  have hinv : NoneForgotten s ∧ s.pipe.Stream s.written s.taken := by
    refine run.invariant (I := fun s => NoneForgotten s ∧ s.pipe.Stream s.written s.taken)
      ⟨⟨nofun, nofun⟩, pipealloc_stream⟩ ?_
    rintro s l s' ⟨h, hs⟩ ⟨hok, hstep⟩
    exact ⟨(step_noneForgotten hstep h hs).2 hok, step_stream hstep hs⟩
  exact ⟨hinv.1, fun l s' hstep => step_noneForgotten hstep hinv.1 hinv.2⟩

/-- A reader sleeps, and is woken by a writer. -/
def readerWoken : Sys Bool :=
  let s := ((pipealloc Bool fun _ => 0).setTask false (.read 1 false)).runRead false 1
  (s.setTask true (.write (fun _ => 7) 0 3 false)).runWrite true (fun _ => 7) 0 3

theorem no_lost_wakeup_readerWoken : NoneForgotten readerWoken ∧ readerWoken.pipe.nwrite = 3 := by
  have run : Run (given (ofFun step) WriteOk) (pipealloc Bool fun _ => 0) [(false, .piperead 1),
      (false, .run), (true, .pipewrite (fun _ => 7) 3), (true, .run)] readerWoken := by
    refine .cons ⟨nofun, rfl⟩ (.cons ⟨fun _ addr i k h => ?_, rfl⟩ (.cons ⟨nofun, rfl⟩
      (.one ⟨fun _ addr i k _ hgone => ?_, rfl⟩)))
    · cases h
    · rcases hgone with h | h <;> cases h
  exact ⟨(no_lost_wakeup run).1, by decide +kernel⟩

/-- A reader sleeps, and a writer with more bytes than the pipe has room for is killed before it gets
the lock. -/
def killedWriter : Sys Bool :=
  let s := ((pipealloc Bool fun _ => 0).setTask false (.read 1 false)).runRead false 1
  (s.setTask true (.write (fun _ => 7) 0 513 false)).kill true

/-- The writer fills the pipe, returns -1, and does not wake the reader. -/
theorem reader_forgotten :
    Run (ofFun step) (pipealloc Bool fun _ => 0) [(false, .piperead 1), (false, .run),
      (true, .pipewrite (fun _ => 7) 513), (true, .kill), (true, .run)]
      (killedWriter.runWrite true (fun _ => 7) 0 513) ∧
    (killedWriter.runWrite true (fun _ => 7) 0 513).task false = .read 1 true ∧
    (killedWriter.runWrite true (fun _ => 7) 0 513).pipe.nread = 0 ∧
    (killedWriter.runWrite true (fun _ => 7) 0 513).pipe.nwrite = 512 := by
  have hend : (killedWriter.pipe.pipewrite (fun _ => 7) (killedWriter.killed true) 0 513).2.2 =
    .fails := by
    decide +kernel
  refine ⟨.cons rfl (.cons rfl (.cons rfl (.cons rfl (.one rfl)))), ?_, by decide +kernel,
    by decide +kernel⟩
  simp only [Sys.runWrite, hend]
  rfl

end Xv6.Pipes

import Xv6Cow.Log.Bcache

/-!
# Crash atomicity of the log

The disk is a redo log in the sense of `Redo.Store`, and the invariant `MachInv` says that what
recovery would make of it (`recovered`) is at every moment the effect of the committed transactions.
Only the header write changes that, and it does so for a whole transaction.

`log_write` tests `log.lh.n` without the lock, so `lh.n` can reach `LOGSIZE`, one more than the log has
data blocks.  Such a transaction never reaches the disk (`CacheOk.length_lt`).
-/

namespace Xv6

open Function Lts Cache

/-! ## The disk as a redo log -/

theorem readHead_writeHead (lh : List ℕ) (d : Block) : readHead (writeHead lh d) = lh := by
  refine List.ext_getElem (by simp [readHead, writeHead]) fun i h1 h2 => ?_
  simp [readHead, writeHead, h2]

/-- The disk, as a store with a redo log. -/
def redo (disk : ℕ → Block) : Redo.Store ℕ Block where
  head := readHead (disk logstart)
  slot i := if i < nlog - 1 then disk (logBlock i) else fun _ => 0
  home := disk

theorem home_ne_logstart {b : ℕ} (hb : Home b) : b ≠ logstart := by
  rintro rfl
  exact hb ⟨le_rfl, by decide⟩

theorem home_ne_logBlock {b i : ℕ} (hb : Home b) (hi : i < nlog - 1) : b ≠ logBlock i := by
  rintro rfl
  refine hb ⟨by simp [logBlock]; omega, ?_⟩
  simp only [logBlock, nlog, logsize, maxopblocks] at *
  omega

theorem logBlock_ne_logstart (i : ℕ) : logBlock i ≠ logstart := by
  simp only [logBlock]
  omega

theorem logBlock_inj {i j : ℕ} (h : logBlock i = logBlock j) : i = j := by
  simp only [logBlock] at h
  omega

section Redo

variable (disk : ℕ → Block) {b i : ℕ}

theorem redo_home (d : Block) (hb : Home b) : redo (update disk b d) =
    { redo disk with home := update disk b d } := by
  have hslot : ∀ i, (if i < nlog - 1 then update disk b d (logBlock i) else fun _ => 0) =
      if i < nlog - 1 then disk (logBlock i) else fun _ => 0 := by
    intro i
    split_ifs with hi
    · rw [update_of_ne (home_ne_logBlock hb hi).symm]
    · rfl
  simp only [redo, update_of_ne (home_ne_logstart hb).symm, hslot]

theorem redo_slot (d : Block) (hi : i < nlog - 1) : redo (update disk (logBlock i) d) =
    ⟨(redo disk).head, update (redo disk).slot i d, update disk (logBlock i) d⟩ := by
  have hslot : (fun j => if j < nlog - 1 then update disk (logBlock i) d (logBlock j)
      else fun _ => 0) = update (redo disk).slot i d := by
    funext j
    by_cases e : j = i
    · subst e
      simp [hi]
    · have hne : logBlock j ≠ logBlock i := fun h => e (logBlock_inj h)
      simp [redo, e, hne]
  simp only [redo] at hslot ⊢
  rw [hslot, update_of_ne (logBlock_ne_logstart i).symm]

theorem redo_head (lh : List ℕ) (d : Block) : redo (update disk logstart (writeHead lh d)) =
    ⟨lh, (redo disk).slot, update disk logstart (writeHead lh d)⟩ := by
  have hslot : ∀ j, update disk logstart (writeHead lh d) (logBlock j) = disk (logBlock j) :=
    fun j => update_of_ne (logBlock_ne_logstart j) ..
  simp only [redo, update_self, readHead_writeHead, hslot]

end Redo

/-! ## The invariant -/

/-- The effect of the committed transactions. -/
def Machine.durable (base : ℕ → Block) (s : Machine) : ℕ → Block :=
  applyWrites base s.committed.flatten

/-- The effect of these and of the current transaction. -/
def Machine.current (base : ℕ → Block) (s : Machine) : ℕ → Block :=
  applyWrites (s.durable base) s.cur

/-- The blocks whose buffers are dirty. -/
def Machine.pending (s : Machine) : List ℕ :=
  match s.mode with
  | .running | .writeLog _ => s.sys.log.lh
  | .install tail false => s.sys.log.lh.drop tail
  | _ => []

/-- What the progress of `commit` or of the boot says about the log. -/
def Machine.AtMode (base : ℕ → Block) (s : Machine) : Prop :=
  match s.mode with
  | .running => s.sys.log.committing = false ∧ (redo s.disk).head = []
  | .writeLog tail =>
      s.sys.log.committing = true ∧ (redo s.disk).head = [] ∧ tail ≤ s.sys.log.lh.length ∧
      0 < s.sys.log.lh.length ∧ (0 < tail → s.sys.log.lh.length < nlog) ∧
      ∀ i (hi : i < s.sys.log.lh.length), i < tail →
        (redo s.disk).slot i = s.current base s.sys.log.lh[i]
  | .install tail boot =>
      s.sys.log.committing = !boot ∧ (redo s.disk).head = s.sys.log.lh ∧
      tail ≤ s.sys.log.lh.length ∧ s.cur = [] ∧
      ∀ i (hi : i < s.sys.log.lh.length), i < tail →
        s.disk s.sys.log.lh[i] = (redo s.disk).slot i
  | .finish => s.sys.log.committing = true ∧ (redo s.disk).head = [] ∧ s.sys.log.lh = []
  | .boot => s.sys.log.committing = false ∧ s.sys.log.lh = []

/-- The processes that are in an operation. -/
def LogSys.active (s : LogSys) : Finset Pid := Finset.univ.filter fun p => s.pc p ≠ .idle

/-- Recovery would leave `m` in the home blocks. -/
structure DiskOk (disk m : ℕ → Block) : Prop where
  nodup : (redo disk).head.Nodup
  home : ∀ b ∈ (redo disk).head, Home b
  length_lt : (redo disk).head.length < nlog
  recovered : ∀ b, Home b → (redo disk).recovered b = m b

structure MachInv (base : ℕ → Block) (s : Machine) : Prop where
  nodup : s.sys.log.lh.Nodup
  home : ∀ b ∈ s.sys.log.lh, Home b
  cur : ∀ w ∈ s.cur, w.block ∈ s.sys.log.lh
  disk : DiskOk s.disk (s.durable base)
  cache : CacheOk s.disk s.pending (s.current base) s.cache
  mode : s.AtMode base
  outstanding : s.sys.log.outstanding = s.sys.active.card
  idle : s.sys.log.committing = true ∨ s.mode.up = false → s.sys.log.outstanding = 0

theorem MachInv.atMode {base : ℕ → Block} {s : Machine} (h : MachInv base s) {m : Mode}
    (hm : s.mode = m) : Machine.AtMode base { s with mode := m } := by
  subst hm
  exact h.mode

section Active

variable {s : LogSys} {p : Pid} {c : OpPc}

theorem mem_active : p ∈ s.active ↔ s.pc p ≠ .idle := by simp [LogSys.active]

theorem active_setPc_ne (hc : c ≠ .idle) : (s.setPc p c).active = insert p s.active := by
  ext q
  simp only [Finset.mem_insert, mem_active]
  by_cases e : q = p
  · simp [LogSys.setPc, e, hc]
  · simp [LogSys.setPc, e]

theorem active_setPc_idle : (s.setPc p .idle).active = s.active.erase p := by
  ext q
  simp only [Finset.mem_erase, mem_active]
  by_cases e : q = p
  · simp [LogSys.setPc, e]
  · simp [LogSys.setPc, e]

end Active

section Inv

variable {base : ℕ → Block} {s t : Machine} {p : Pid}

/-- `committing` is set from the last `end_op` to the end of `commit`. -/
theorem MachInv.mode_running (h : MachInv base s) (hup : s.mode.up = true)
    (hnc : s.sys.log.committing = false) : s.mode = .running := by
  have hmode := h.mode
  unfold Machine.AtMode at hmode
  cases hm : s.mode with
  | running => rfl
  | writeLog | finish =>
    rw [hm, hnc] at hmode
    cases hmode.1
  | install tail boot =>
    rw [hm] at hup hmode
    cases boot with
    | false => exact absurd (hnc.symm.trans hmode.1) nofun
    | true => cases hup
  | boot =>
    rw [hm] at hup
    cases hup

/-- A process in an operation keeps `commit` and the boot away. -/
theorem MachInv.running (h : MachInv base s) (hp : s.sys.pc p ≠ .idle) :
    s.mode = .running ∧ s.sys.log.committing = false ∧ (redo s.disk).head = [] := by
  have hpos : 0 < s.sys.log.outstanding := by
    rw [h.outstanding]
    exact Finset.card_pos.2 ⟨p, mem_active.2 hp⟩
  have hnc : s.sys.log.committing = false := by
    by_contra hc
    have := h.idle (.inl (by simpa using hc))
    omega
  have hup : s.mode.up = true := by
    by_contra hc
    have := h.idle (.inr (by simpa using hc))
    omega
  have hm := h.mode_running hup hnc
  have hmode := h.atMode hm
  exact ⟨hm, hmode⟩

variable {u : LogSys}

theorem MachInv.setSys (h : MachInv base s) (hm : s.mode = .running)
    (hlh : u.log.lh = s.sys.log.lh) (hc : u.log.committing = false)
    (ho : u.log.outstanding = u.active.card) : MachInv base { s with sys := u } := by
  have hmode := h.atMode hm
  have hpend : Machine.pending { s with sys := u } = s.pending := by
    simp only [Machine.pending, hm, hlh]
  refine ⟨by simpa [hlh] using h.nodup, by simpa [hlh] using h.home, by simpa [hlh] using h.cur,
    h.disk, ?_, ?_, ho, ?_⟩
  · rw [hpend]
    exact h.cache
  · simp only [Machine.AtMode, hm]
    exact ⟨hc, hmode.2⟩
  · simp only [hc, hm]
    rintro (hf | hf) <;> cases hf

variable {c : Cache}

theorem MachInv.setCache (h : MachInv base s)
    (hc : CacheOk s.disk s.pending (s.current base) c) : MachInv base { s with cache := c } :=
  ⟨h.nodup, h.home, h.cur, h.disk, hc, h.mode, h.outstanding, h.idle⟩

theorem Log.not_committing_of_admits {l : Log} (h : l.admits = true) : l.committing = false := by
  simp only [Log.admits, Bool.and_eq_true, Bool.not_eq_true'] at h
  exact h.1

theorem mach_beginOp (h : MachInv base s) (hup : s.mode.up = true)
    (hs : s.sys.step (.beginOp p) = some u) : MachInv base { s with sys := u } := by
  obtain ⟨hpc, hadm, rfl⟩ := step_beginOp hs
  have hnc := Log.not_committing_of_admits hadm
  have hm := h.mode_running hup hnc
  refine h.setSys hm rfl hnc ?_
  rw [active_setPc_ne (by simp), Finset.card_insert_of_notMem]
  · exact congrArg (· + 1) h.outstanding
  · exact fun hmem => mem_active.1 hmem hpc

theorem mach_check {b : ℕ} (h : MachInv base s)
    (hs : s.sys.step (.check p b) = some u) : MachInv base { s with sys := u } := by
  obtain ⟨o, hpc, -, rfl⟩ := step_check hs
  have hp : s.sys.pc p ≠ .idle := by simp [hpc]
  obtain ⟨hm, hnc, -⟩ := h.running hp
  refine h.setSys hm rfl hnc ?_
  rw [active_setPc_ne (by simp), Finset.insert_eq_of_mem (mem_active.2 hp)]
  exact h.outstanding

theorem Log.mem_append {l : Log} {b b' : ℕ} : b' ∈ (l.append b).lh ↔ b' ∈ l.lh ∨ b' = b := by
  unfold Log.append
  split_ifs with hb
  · exact ⟨.inl, fun hor => hor.elim id fun e => e ▸ hb⟩
  · simp

theorem applyWrites_append (m : ℕ → Block) (ws vs : List Write) :
    applyWrites m (ws ++ vs) = applyWrites (applyWrites m ws) vs := by
  simp only [applyWrites, List.map_append, Redo.applyAll_append]

variable {i : Fin nbuf} {x : Buf}

theorem mach_append {b o : ℕ} {d : Block}
    (h : MachInv base s) (hpc : s.sys.pc p = .checked o b) (hs : s.sys.step (.append p b) = some u)
    (hb : Home b) (hi : s.cache i = some x) (hx : x.block = b) :
    MachInv base { s with
      sys := u
      cache := s.cache.modify i d
      cur := s.cur ++ [⟨o, b, d⟩]
      issued := s.issued ++ [⟨o, b, d⟩] } := by
  obtain ⟨o', -, rfl⟩ := step_append hs
  have hp : s.sys.pc p ≠ .idle := by simp [hpc]
  obtain ⟨hm, hnc, hhead⟩ := h.running hp
  have hnc' : (s.sys.log.append b).committing = false := by
    unfold Log.append
    split_ifs <;> exact hnc
  have hout : (s.sys.log.append b).outstanding = s.sys.log.outstanding := by
    unfold Log.append
    split_ifs <;> rfl
  have hpend : s.pending = s.sys.log.lh := by simp only [Machine.pending, hm]
  have hcache := h.cache
  rw [hpend] at hcache
  subst hx
  refine ⟨Log.nodup_append h.nodup _, fun b' hb' => ?_, fun w hw => ?_, h.disk, ?_, ?_, ?_, ?_⟩
  · rcases Log.mem_append.1 hb' with hb' | rfl
    · exact h.home b' hb'
    · exact hb
  · refine Log.mem_append.2 ?_
    rcases List.mem_append.1 hw with hw | hw
    · exact .inl (h.cur w hw)
    · rw [List.mem_singleton.1 hw]
      exact .inr rfl
  · have hcur : Machine.current base { s with cur := s.cur ++ [⟨o, x.block, d⟩] } =
        update (s.current base) x.block d := by
      simp only [Machine.current, applyWrites_append]
      rfl
    simp only [Machine.pending, hm]
    show CacheOk s.disk _ (Machine.current base { s with cur := s.cur ++ [⟨o, x.block, d⟩] }) _
    rw [hcur]
    exact hcache.modify hi fun b' => Log.mem_append
  · simp only [Machine.AtMode, hm]
    exact ⟨hnc', hhead⟩
  · show (s.sys.log.append x.block).outstanding = _
    rw [hout, active_setPc_ne (by simp)]
    exact h.outstanding.trans (congrArg _ (Finset.insert_eq_of_mem (mem_active.2 hp)).symm)
  · show (s.sys.log.append x.block).committing = true ∨ s.mode.up = false → _
    rw [hnc', hm]
    rintro (hf | hf) <;> cases hf

theorem mach_endOp {o : ℕ} (h : MachInv base s) (hpc : s.sys.pc p = .op o)
    (hs : s.sys.step (.endOp p) = some u) :
    MachInv base { s with
      sys := u
      mode := if u.log.committing then (if u.log.lh = [] then .finish else .writeLog 0) else s.mode
      ended := s.ended ++ [o] } := by
  obtain ⟨o', l, -, hend, rfl⟩ := step_endOp hs
  have hp : s.sys.pc p ≠ .idle := by simp [hpc]
  obtain ⟨hm, hnc, hhead⟩ := h.running hp
  obtain ⟨-, hlh, hout, hcom⟩ := Log.endOp_ok hend
  have hpend : s.pending = s.sys.log.lh := by simp only [Machine.pending, hm]
  have hcache := h.cache
  rw [hpend, ← hlh] at hcache
  have hcard : l.outstanding = (s.sys.active.erase p).card := by
    rw [Finset.card_erase_of_mem (mem_active.2 hp), hout, h.outstanding]
  -- the last operation goes on to `commit`
  obtain ⟨m, hmeq⟩ : ∃ m, m = if l.committing then (if l.lh = [] then .finish else .writeLog 0)
    else s.mode := ⟨_, rfl⟩
  have hcases : (m = .finish ∧ l.committing = true ∧ l.lh = []) ∨
      (m = .writeLog 0 ∧ l.committing = true ∧ l.lh ≠ []) ∨
      (m = .running ∧ l.committing = false) := by
    rw [hmeq]
    split_ifs with h1 h2
    · exact .inl ⟨rfl, h1, h2⟩
    · exact .inr (.inl ⟨rfl, h1, h2⟩)
    · exact .inr (.inr ⟨hm, by simpa using h1⟩)
  show MachInv base { s with
    sys := LogSys.setPc { s.sys with log := l } p .idle
    mode := if l.committing then (if l.lh = [] then .finish else .writeLog 0) else s.mode
    ended := s.ended ++ [o] }
  rw [← hmeq]
  refine ⟨by simpa [LogSys.setPc, hlh] using h.nodup, by simpa [LogSys.setPc, hlh] using h.home,
    by simpa [LogSys.setPc, hlh] using h.cur, h.disk, ?_, ?_, ?_, ?_⟩
  · rcases hcases with ⟨rfl, -, hnil⟩ | ⟨rfl, -, -⟩ | ⟨rfl, -⟩
    · rw [hnil] at hcache
      exact hcache
    · exact hcache
    · exact hcache
  · rcases hcases with ⟨rfl, hc, hnil⟩ | ⟨rfl, hc, hne⟩ | ⟨rfl, hc⟩
    · exact ⟨hc, hhead, hnil⟩
    · exact ⟨hc, hhead, Nat.zero_le _, List.length_pos_iff.2 hne, fun h0 => absurd h0 (lt_irrefl _),
        fun i _ hi => absurd hi (Nat.not_lt_zero i)⟩
    · exact ⟨hc, hhead⟩
  · rw [active_setPc_idle]
    exact hcard
  · show l.committing = true ∨ m.up = false → l.outstanding = 0
    rintro (hf | hf)
    · rw [hcom] at hf
      rw [hout]
      simpa using hf
    · rcases hcases with ⟨rfl, -⟩ | ⟨rfl, -⟩ | ⟨rfl, -⟩ <;> cases hf

variable {disk m : ℕ → Block}

theorem DiskOk.write {b : ℕ} {d : Block} (h : DiskOk disk m)
    (hhead : (redo disk).head = []) (hb : ¬ Home b)
    (hhead' : (redo (update disk b d)).head = []) :
    DiskOk (update disk b d) m := by
  refine ⟨by simp [hhead'], by simp [hhead'], by simp [hhead', nlog, logsize, maxopblocks],
    fun b' hb' => ?_⟩
  have hne : b' ≠ b := by
    rintro rfl
    exact hb hb'
  rw [Redo.recovered_of_nil hhead', ← h.recovered b' hb', Redo.recovered_of_nil hhead]
  exact update_of_ne hne ..

theorem not_home_logBlock {i : ℕ} (hi : i < nlog - 1) : ¬ Home (logBlock i) :=
  fun h => home_ne_logBlock h hi rfl

theorem not_home_logstart : ¬ Home logstart := fun h => home_ne_logstart h rfl

theorem DiskOk.commit {disk m m' : ℕ → Block} (h : DiskOk disk m) (hhead : (redo disk).head = [])
    {lh : List ℕ} (hnd : lh.Nodup) (hhome : ∀ b ∈ lh, Home b) (hlt : lh.length < nlog)
    (hslot : ∀ i (hi : i < lh.length), (redo disk).slot i = m' lh[i])
    (hm : ∀ b ∉ lh, m' b = m b) (d : Block) :
    DiskOk (update disk logstart (writeHead lh d)) m' := by
  have hredo := redo_head disk lh d
  refine ⟨by rwa [hredo], by rwa [hredo], by rwa [hredo], fun b hb => ?_⟩
  rw [hredo]
  by_cases hmem : b ∈ lh
  · obtain ⟨k, hk, rfl⟩ := List.getElem_of_mem hmem
    rw [← hslot k hk]
    exact Redo.recovered_get (d := ⟨lh, (redo disk).slot, _⟩) hnd hk
  · rw [hm b hmem, ← h.recovered b hb, Redo.recovered_of_nil hhead, Redo.recovered_of_notMem hmem]
    exact update_of_ne (home_ne_logstart hb) ..

theorem DiskOk.install (h : DiskOk disk m) {tail : ℕ}
    (ht : tail < (redo disk).head.length) {d : Block} (hd : (redo disk).slot tail = d) :
    DiskOk (update disk (redo disk).head[tail] d) m := by
  have hredo := redo_home disk d (h.home _ (List.getElem_mem ht))
  refine ⟨by rw [hredo]; exact h.nodup, by rw [hredo]; exact h.home, by rw [hredo]; exact h.length_lt,
    fun b hb => ?_⟩
  rw [← h.recovered b hb, ← Redo.recovered_install ht b, hredo, hd]
  rfl

theorem DiskOk.clear (h : DiskOk disk m)
    (hdone : ∀ i (hi : i < (redo disk).head.length), disk (redo disk).head[i] = (redo disk).slot i)
    (d : Block) : DiskOk (update disk logstart (writeHead [] d)) m := by
  have hhead : (redo (update disk logstart (writeHead [] d))).head = [] := by
    rw [redo_head]
  refine ⟨by simp [hhead], by simp [hhead], by simp [hhead, nlog, logsize, maxopblocks],
    fun b hb => ?_⟩
  rw [Redo.recovered_of_nil hhead, ← h.recovered b hb, ← Redo.recovered_clear h.nodup hdone b]
  exact update_of_ne (home_ne_logstart hb) ..

theorem mach_writeLog {tail b : ℕ} {i j : Fin nbuf} {c c' : Cache} {y : Buf} (h : MachInv base s)
    (hm : s.mode = .writeLog tail) (ht : s.sys.log.lh[tail]? = some b)
    (hto : Bread s.disk (logBlock tail) s.cache i c) (hfrom : Bread s.disk b c j c')
    (hy : c' j = some y) :
    MachInv base { s.setDisk (logBlock tail) y.data with
      cache := ((c'.bwrite i y.data).brelse j).brelse i
      mode := .writeLog (tail + 1) } := by
  obtain ⟨hc, hhead, hle, hpos, hlt, hslot⟩ := h.atMode hm
  obtain ⟨htail, rfl⟩ := List.getElem?_eq_some_iff.1 ht
  have hcache := h.cache
  simp only [Machine.pending, hm] at hcache
  -- a transaction that overflows the log has no buffer left for its first log block
  have hn : s.sys.log.lh.length < nlog := by
    by_cases h0 : tail = 0
    · subst h0
      have hmem : logBlock 0 ∉ s.sys.log.lh := fun hmem =>
        not_home_logBlock (by decide) (h.home _ hmem)
      exact hcache.length_lt h.nodup hmem hto
    · exact hlt (Nat.pos_of_ne_zero h0)
  have ht' : tail < nlog - 1 := by omega
  have hlog : logBlock tail ∉ s.sys.log.lh := fun hmem => not_home_logBlock ht' (h.home _ hmem)
  obtain ⟨hcache1, x, hx, hxb, hxr⟩ := hcache.bread hto
  obtain ⟨x', hx', hxb', -⟩ := hfrom.keeps hx hxr
  obtain ⟨hcache2, y', hy', hyb, -⟩ := hcache1.bread hfrom
  obtain rfl : y = y' := by rwa [hy, Option.some.injEq] at hy'
  have hdata : y.data = s.current base s.sys.log.lh[tail] := by
    rw [hcache2.data_of_mem hy (by rw [hyb]; exact List.getElem_mem htail), hyb]
  have hxb'' : x'.block = logBlock tail := by rw [hxb', hxb]
  have hhead' : (redo (update s.disk (logBlock tail) y.data)).head = [] := by
    rw [redo_slot _ _ ht']
    exact hhead
  refine ⟨h.nodup, h.home, h.cur, h.disk.write hhead (not_home_logBlock ht') hhead', ?_, ?_,
    h.outstanding, ?_⟩
  · have hw := hcache2.bwrite (d := y.data) hx' (fun b' => (and_iff_left_of_imp
      (fun hb' e => hlog (by rw [← hxb'', ← e]; exact hb'))).symm)
    rw [hxb''] at hw
    exact (hw.brelse j).brelse i
  · refine ⟨hc, hhead', htail, hpos, fun _ => hn, fun k hk hkt => ?_⟩
    show (redo (update s.disk (logBlock tail) y.data)).slot k = _
    rw [redo_slot _ _ ht']
    by_cases e : k = tail
    · subst e
      simp only [update_self]
      exact hdata
    · simp only [update_of_ne e]
      exact hslot k hk (by omega)
  · intro _
    exact h.idle (.inl hc)

theorem mach_writeHead (h : MachInv base s)
    (hm : s.mode = .writeLog s.sys.log.lh.length) (hbuf : Bread s.disk logstart s.cache i c)
    (hx : c i = some x) :
    MachInv base { s.setDisk logstart (writeHead s.sys.log.lh x.data) with
      cache := (c.bwrite i (writeHead s.sys.log.lh x.data)).brelse i
      mode := .install 0 false
      committed := s.committed ++ [s.cur]
      cur := [] } := by
  obtain ⟨hc, hhead, hle, hpos, hlt, hslot⟩ := h.atMode hm
  have hcache := h.cache
  simp only [Machine.pending, hm] at hcache
  obtain ⟨hcache1, hxb⟩ := hcache.bread_some hbuf hx
  have hdur : applyWrites base (s.committed ++ [s.cur]).flatten = s.current base := by
    rw [List.flatten_append, List.flatten_singleton, applyWrites_append]
    rfl
  have hredo := redo_head s.disk s.sys.log.lh x.data
  have hstart : logstart ∉ s.sys.log.lh := fun hmem => not_home_logstart (h.home _ hmem)
  refine ⟨h.nodup, h.home, nofun, ?_, ?_, ?_, h.outstanding, ?_⟩
  · -- the commit point
    show DiskOk _ (applyWrites base (s.committed ++ [s.cur]).flatten)
    rw [hdur]
    refine h.disk.commit hhead h.nodup h.home (hlt hpos) (fun k hk => hslot k hk hk)
      (fun b hb => ?_) x.data
    refine Redo.applyAll_of_notMem fun w hw => ?_
    obtain ⟨v, hv, rfl⟩ := List.mem_map.1 hw
    rintro rfl
    exact hb (h.cur v hv)
  · have hw := hcache1.bwrite (d := writeHead s.sys.log.lh x.data) hx (fun b' =>
      (and_iff_left_of_imp (fun hb' e => hstart (by rw [← hxb, ← e]; exact hb'))).symm)
    rw [hxb] at hw
    exact (hw.brelse i).congr (fun b => Iff.rfl) fun b _ => congrFun hdur b
  · refine ⟨hc, ?_, Nat.zero_le _, rfl, fun k _ hk => absurd hk (Nat.not_lt_zero k)⟩
    show (redo (update s.disk logstart (writeHead s.sys.log.lh x.data))).head = _
    rw [hredo]
    rfl
  · intro _
    exact h.idle (.inl hc)

theorem mem_drop_succ {lh : List ℕ} (hnd : lh.Nodup) {tail : ℕ} (ht : tail < lh.length) (b : ℕ) :
    b ∈ lh.drop (tail + 1) ↔ b ∈ lh.drop tail ∧ b ≠ lh[tail] := by
  rw [List.drop_eq_getElem_cons ht, List.mem_cons]
  have hnot : lh[tail] ∉ lh.drop (tail + 1) := by
    have := hnd.sublist (List.drop_sublist tail lh)
    rw [List.drop_eq_getElem_cons ht, List.nodup_cons] at this
    exact this.1
  constructor
  · rintro hb
    exact ⟨.inr hb, fun e => hnot (e ▸ hb)⟩
  · rintro ⟨rfl | hb, hne⟩
    · exact absurd rfl hne
    · exact hb

section

variable (h : MachInv base s)

include h

theorem mach_install {tail b : ℕ} {boot : Bool} {i j : Fin nbuf} {c c' : Cache}
    (hm : s.mode = .install tail boot) (ht : s.sys.log.lh[tail]? = some b)
    (hl : Bread s.disk (logBlock tail) s.cache i c) (hd : Bread s.disk b c j c')
    (hx : c' i = some x) :
    MachInv base { s.setDisk b x.data with
      cache := ((c'.bwrite j x.data).brelse i).brelse j
      mode := .install (tail + 1) boot } := by
  obtain ⟨hc, hhead, hle, hcur, hdone⟩ := h.atMode hm
  obtain ⟨htail, rfl⟩ := List.getElem?_eq_some_iff.1 ht
  have hn : s.sys.log.lh.length < nlog := hhead ▸ h.disk.length_lt
  have ht' : tail < nlog - 1 := by omega
  have hhome : Home s.sys.log.lh[tail] := h.home _ (List.getElem_mem htail)
  have hsub : ∀ b ∈ s.pending, b ∈ s.sys.log.lh := by
    intro b hb
    simp only [Machine.pending, hm] at hb
    cases boot with
    | false => exact List.mem_of_mem_drop hb
    | true => cases hb
  have hlog : logBlock tail ∉ s.pending := fun hmem =>
    not_home_logBlock ht' (h.home _ (hsub _ hmem))
  obtain ⟨hcache1, x1, hx1, hxb1, hxr⟩ := h.cache.bread hl
  obtain ⟨x2, hx2, hxb2, -⟩ := hd.keeps hx1 hxr
  obtain rfl : x = x2 := by rwa [hx, Option.some.injEq] at hx2
  obtain ⟨hcache2, y, hy, hyb, -⟩ := hcache1.bread hd
  have hslot : (redo s.disk).slot tail = x.data := by
    rw [hcache2.data_of_notMem hx (by rw [hxb2, hxb1]; exact hlog), hxb2, hxb1]
    simp [redo, ht']
  have hredo := redo_home s.disk x.data hhome
  have hhead' : (redo (update s.disk s.sys.log.lh[tail] x.data)).head =
      s.sys.log.lh := by
    rw [hredo]
    exact hhead
  have hdone' : ∀ k (hk : k < s.sys.log.lh.length), k < tail + 1 →
      update s.disk s.sys.log.lh[tail] x.data s.sys.log.lh[k] =
        (redo (update s.disk s.sys.log.lh[tail] x.data)).slot k := by
    intro k hk hkt
    rw [hredo]
    by_cases e : k = tail
    · subst e
      rw [update_self]
      exact hslot.symm
    have hne : s.sys.log.lh[k] ≠ s.sys.log.lh[tail] := fun he =>
      e ((h.nodup.getElem_inj_iff).1 he)
    rw [update_of_ne hne]
    exact hdone k hk (by omega)
  refine ⟨h.nodup, h.home, h.cur, ?_, ?_, ?_, h.outstanding, ?_⟩
  · have hinst := h.disk.install
      (show tail < (redo s.disk).head.length by rw [hhead]; exact htail) hslot
    simp only [hhead] at hinst
    exact hinst
  · have hpend : ∀ b', b' ∈ Machine.pending { s with mode := .install (tail + 1) boot } ↔
        b' ∈ s.pending ∧ b' ≠ y.block := by
      intro b'
      rw [hyb]
      simp only [Machine.pending, hm]
      cases boot with
      | false => exact mem_drop_succ h.nodup htail b'
      | true => simp
    have hw := hcache2.bwrite (d := x.data) hy hpend
    rw [hyb] at hw
    exact (hw.brelse i).brelse j
  · exact ⟨hc, hhead', htail, hcur, hdone'⟩
  · intro hor
    refine h.idle (hor.imp id fun hup => ?_)
    rw [hm]
    cases boot with
    | false => cases hup
    | true => rfl

theorem mach_clear {boot : Bool} (hm : s.mode = .install s.sys.log.lh.length boot)
    (hbuf : Bread s.disk logstart s.cache i c) (hx : c i = some x) :
    MachInv base { (s.setLh []).setDisk logstart (writeHead [] x.data) with
      cache := (c.bwrite i (writeHead [] x.data)).brelse i
      mode := if boot then .running else .finish } := by
  obtain ⟨hc, hhead, hle, hcur, hdone⟩ := h.atMode hm
  have hredo := redo_head s.disk [] x.data
  have hhead' : (redo (update s.disk logstart (writeHead [] x.data))).head = [] := by
    rw [hredo]
  have hpend : s.pending = [] := by
    simp only [Machine.pending, hm]
    cases boot with
    | false => exact List.drop_length
    | true => rfl
  have hcache := h.cache
  rw [hpend] at hcache
  obtain ⟨hcache1, hxb⟩ := hcache.bread_some hbuf hx
  have hout : s.sys.log.outstanding = 0 := by
    refine h.idle ?_
    cases boot with
    | false => exact .inl hc
    | true => exact .inr (by rw [hm]; rfl)
  have hcur' : ∀ w ∈ s.cur, w.block ∈ ([] : List ℕ) := by
    rw [hcur]
    nofun
  refine ⟨List.nodup_nil, nofun, hcur', ?_, ?_, ?_, h.outstanding, fun _ => hout⟩
  · refine h.disk.clear (fun k hk => ?_) x.data
    simp only [hhead] at hk ⊢
    exact hdone k hk hk
  · have hnil : ∀ b, b ∈ ([] : List ℕ) ↔ b ∈ ([] : List ℕ) ∧ b ≠ x.block := by simp
    have hw := hcache1.bwrite (d := writeHead [] x.data) hx hnil
    rw [hxb] at hw
    refine (hw.brelse i).congr (fun b => ?_) fun b hb => absurd hb (by simp)
    simp only [Machine.pending]
    cases boot with
    | false => simp
    | true => simp [Machine.setDisk, Machine.setLh]
  · cases boot with
    | false => exact ⟨hc, hhead', rfl⟩
    | true => exact ⟨hc, hhead'⟩

theorem mach_finish (hm : s.mode = .finish) (hs : s.sys.step .finish = some u) :
    MachInv base { s with
      sys := u
      mode := .running
      acked := s.acked ++ s.ended
      ended := [] } := by
  obtain ⟨hc, hhead, (hlh : s.sys.log.lh = [])⟩ := h.atMode hm
  obtain ⟨-, -, rfl⟩ := step_finish hs
  refine ⟨h.nodup, h.home, h.cur, h.disk, ?_, ⟨rfl, hhead⟩, h.outstanding, ?_⟩
  · have hcache := h.cache
    simp only [Machine.pending, hm] at hcache
    simp only [Machine.pending, hlh]
    exact hcache
  · rintro (hf | hf) <;> cases hf

theorem mach_crash : MachInv base s.reset := by
  refine ⟨List.nodup_nil, nofun, nofun, h.disk, CacheOk.empty _ _, ⟨rfl, rfl⟩, ?_, fun _ => rfl⟩
  simp [Machine.reset, LogSys.start, LogSys.active]

theorem MachInv.cur_nil (hlh : s.sys.log.lh = []) : s.cur = [] := by
  refine List.eq_nil_iff_forall_not_mem.2 fun w hw => ?_
  have := h.cur w hw
  rw [hlh] at this
  cases this

theorem mach_readHead
    (hm : s.mode = .boot) (hbuf : Bread s.disk logstart s.cache i c) (hx : c i = some x) :
    MachInv base { s.setLh (readHead x.data) with
      cache := c.brelse i
      mode := .install 0 true } := by
  obtain ⟨hc, hlh⟩ := h.atMode hm
  have hcache := h.cache
  simp only [Machine.pending, hm] at hcache
  obtain ⟨hcache1, hxb⟩ := hcache.bread_some hbuf hx
  have hhead : readHead x.data = (redo s.disk).head := by
    rw [hcache1.data_of_notMem hx (by simp), hxb]
    rfl
  have hcur := h.cur_nil hlh
  have hout : s.sys.log.outstanding = 0 := h.idle (.inr (by rw [hm]; rfl))
  refine ⟨?_, ?_, ?_, h.disk, hcache1.brelse i, ⟨hc, hhead.symm, Nat.zero_le _, hcur,
    fun k _ hk => absurd hk (Nat.not_lt_zero k)⟩, h.outstanding, fun _ => hout⟩
  · show (readHead x.data).Nodup
    rw [hhead]
    exact h.disk.nodup
  · show ∀ b ∈ readHead x.data, Home b
    rw [hhead]
    exact h.disk.home
  · show ∀ w ∈ s.cur, w.block ∈ readHead x.data
    rw [hcur]
    nofun

end

theorem mach_start (h : readHead (base logstart) = []) : MachInv base (.start base) := by
  have hhead : (redo base).head = [] := h
  refine ⟨List.nodup_nil, nofun, nofun, ⟨by simp [Machine.start, hhead], by simp [Machine.start, hhead],
    by simp [Machine.start, hhead, nlog, logsize, maxopblocks], fun b _ => ?_⟩, CacheOk.empty _ _,
    ⟨rfl, rfl⟩, ?_, fun _ => rfl⟩
  · exact Redo.recovered_of_nil hhead
  · simp [Machine.start, LogSys.start, LogSys.active]

theorem mach_step {l : MachOp} (h : MachInv base s) (hs : MachStep s l t) : MachInv base t := by
  cases hs with
  | beginOp hup hs => exact mach_beginOp h hup hs
  | check _ hs => exact mach_check h hs
  | bread _ hr => exact h.setCache (h.cache.bread hr).1
  | @brelse i => exact h.setCache (h.cache.brelse i)
  | append _ hpc hs hb hi hx _ => exact mach_append h hpc hs hb hi hx
  | endOp _ hpc hs => exact mach_endOp h hpc hs
  | writeLog hm ht hto hfrom hy => exact mach_writeLog h hm ht hto hfrom hy
  | writeHead hm hbuf hx => exact mach_writeHead h hm hbuf hx
  | install hm ht hl hd hx => exact mach_install h hm ht hl hd hx
  | clear hm hbuf hx => exact mach_clear h hm hbuf hx
  | finish hm hs => exact mach_finish h hm hs
  | crash => exact mach_crash h
  | readHead hm hbuf hx => exact mach_readHead h hm hbuf hx

end Inv

/-! ## Operations -/

/-- The operation a process is in. -/
def OpPc.opOf : OpPc → Option ℕ
  | .idle => none
  | .op o | .checked o _ => some o

/-- The commit point of the current transaction has passed. -/
def Mode.past : Mode → Bool
  | .install _ false | .finish => true
  | _ => false

namespace Machine

/-- Some process is in operation `o`. -/
def Active (s : Machine) (o : ℕ) : Prop := ∃ p, (s.sys.pc p).opOf = some o

end Machine

/-- Which operations belong to the current transaction and which to the committed ones. -/
structure OpsInv (s : Machine) : Prop where
  issued_lt : ∀ w ∈ s.issued, w.op < s.sys.ops
  active_lt : ∀ {o}, s.Active o → o < s.sys.ops
  active_inj : ∀ {p q o}, (s.sys.pc p).opOf = some o → (s.sys.pc q).opOf = some o → p = q
  ended : ∀ o ∈ s.ended, o < s.sys.ops ∧ ¬ s.Active o
  cur : ∀ w ∈ s.cur, s.Active w.op ∨ w.op ∈ s.ended
  before : s.mode.past = false → ∀ o, s.Active o ∨ o ∈ s.ended →
    opWrites o s.issued = opWrites o s.cur
  after : s.mode.past = true → ∀ o ∈ s.ended, s.Present o
  committed : ∀ ws ∈ s.committed, ∀ o, opWrites o ws ≠ [] →
    opWrites o ws = opWrites o s.issued ∧ o < s.sys.ops ∧ ¬ s.Active o
  acked : ∀ o ∈ s.acked, s.Present o ∧ o < s.sys.ops ∧ ¬ s.Active o

section Ops

variable {base : ℕ → Block} {s t : Machine} {p : Pid} {o : ℕ}

theorem opWrites_append (o : ℕ) (ws vs : List Write) :
    opWrites o (ws ++ vs) = opWrites o ws ++ opWrites o vs := List.filter_append ..

theorem opWrites_singleton_ne {w : Write} (h : w.op ≠ o) : opWrites o [w] = [] := by
  simp [opWrites, h]

theorem opWrites_eq_nil {ws : List Write} (h : ∀ w ∈ ws, w.op ≠ o) : opWrites o ws = [] := by
  simpa [opWrites] using h

theorem exists_of_opWrites {ws : List Write} (h : opWrites o ws ≠ []) : ∃ w ∈ ws, w.op = o := by
  by_contra hc
  exact h (opWrites_eq_nil fun w hw e => hc ⟨w, hw, e⟩)

theorem OpsInv.of_eq (h : OpsInv s) (hpc : ∀ q, (t.sys.pc q).opOf = (s.sys.pc q).opOf)
    (hops : t.sys.ops = s.sys.ops) (hi : t.issued = s.issued) (hcur : t.cur = s.cur)
    (hc : t.committed = s.committed) (he : t.ended = s.ended) (ha : t.acked = s.acked)
    (hm : t.mode.past = s.mode.past) : OpsInv t := by
  have hact : ∀ o, t.Active o ↔ s.Active o := fun o => by simp only [Machine.Active, hpc]
  have hpres : ∀ o, t.Present o ↔ s.Present o := fun o => by simp only [Machine.Present, hi, hc]
  refine ⟨?_, ?_, ?_, ?_, ?_, ?_, ?_, ?_, ?_⟩
  · rw [hi, hops]
    exact h.issued_lt
  · intro o ho
    rw [hops]
    exact h.active_lt ((hact o).1 ho)
  · intro q r o hq hr
    rw [hpc] at hq hr
    exact h.active_inj hq hr
  · rw [he, hops]
    simpa only [hact] using h.ended
  · rw [hcur, he]
    simpa only [hact] using h.cur
  · rw [hm, hi, hcur, he]
    simpa only [hact] using h.before
  · rw [hm, he]
    simpa only [hpres] using h.after
  · rw [hc, hi, hops]
    simpa only [hact] using h.committed
  · rw [ha, hops]
    simpa only [hact, hpres] using h.acked

theorem opOf_setPc (u : LogSys) (c : OpPc) (q : Pid) :
    ((u.setPc p c).pc q).opOf = if q = p then c.opOf else (u.pc q).opOf := by
  by_cases e : q = p
  · simp [LogSys.setPc, e]
  · simp [LogSys.setPc, e]

variable {u : LogSys}

theorem ops_beginOp (h : OpsInv s) (hm : s.mode.past = false)
    (hs : s.sys.step (.beginOp p) = some u) : OpsInv { s with sys := u } := by
  have hidle : (s.sys.pc p).opOf = none := by rw [(step_beginOp hs).1]; rfl
  have hops : u.ops = s.sys.ops + 1 := by
    obtain ⟨-, -, rfl⟩ := step_beginOp hs
    rfl
  have hof : ∀ q, (u.pc q).opOf = if q = p then some s.sys.ops else (s.sys.pc q).opOf := by
    obtain ⟨-, -, rfl⟩ := step_beginOp hs
    exact opOf_setPc _ _
  have hact : ∀ {o}, Machine.Active { s with sys := u } o ↔ o = s.sys.ops ∨ s.Active o := by
    intro o
    constructor
    · rintro ⟨q, hq⟩
      rw [hof] at hq
      split_ifs at hq with e
      · exact .inl (Option.some.inj hq).symm
      · exact .inr ⟨q, hq⟩
    rintro (rfl | ⟨q, hq⟩)
    · exact ⟨p, by rw [hof, if_pos rfl]⟩
    refine ⟨q, ?_⟩
    rw [hof, if_neg]
    · exact hq
    · rintro rfl
      rw [hidle] at hq
      cases hq
  have hnot : ∀ {o}, o < s.sys.ops → ¬ s.Active o → ¬ Machine.Active { s with sys := u } o := by
    intro o ho hna ha
    exact (hact.1 ha).elim (fun e => absurd ho (by omega)) hna
  refine ⟨fun w hw => ?_, fun ha => ?_, fun {q r o} hq hr => ?_, fun o ho => ?_, fun w hw => ?_,
    fun _ o ho => ?_, h.after, fun ws hws o ho => ?_, fun o ho => ?_⟩
  · have := h.issued_lt w hw
    simp only [hops]
    omega
  · simp only [hops]
    rcases hact.1 ha with rfl | ha
    · exact Nat.lt_succ_self _
    · exact (h.active_lt ha).trans (Nat.lt_succ_self _)
  · rw [hof] at hq hr
    split_ifs at hq hr with e1 e2 e2
    · rw [e1, e2]
    · cases hq
      exact absurd (h.active_lt ⟨r, hr⟩) (lt_irrefl _)
    · cases hr
      exact absurd (h.active_lt ⟨q, hq⟩) (lt_irrefl _)
    · exact h.active_inj hq hr
  · obtain ⟨hlt, hna⟩ := h.ended o ho
    exact ⟨by simp only [hops]; omega, hnot hlt hna⟩
  · exact (h.cur w hw).imp (fun ha => hact.2 (.inr ha)) id
  · have hor : o = s.sys.ops ∨ s.Active o ∨ o ∈ s.ended := by
      rcases ho with ha | he
      · exact (hact.1 ha).imp id .inl
      · exact .inr (.inr he)
    rcases hor with rfl | hor
    · -- the new operation has written nothing
      have hcur : ∀ w ∈ s.cur, w.op ≠ s.sys.ops := by
        intro w hw e
        rcases h.cur w hw with ha | he
        · exact absurd (h.active_lt ha) (by omega)
        · exact absurd (h.ended _ he).1 (by omega)
      rw [opWrites_eq_nil hcur, opWrites_eq_nil fun w hw e => absurd (h.issued_lt w hw) (by omega)]
    · exact h.before hm o hor
  · obtain ⟨heq, hlt, hna⟩ := h.committed ws hws o ho
    exact ⟨heq, by simp only [hops]; omega, hnot hlt hna⟩
  · obtain ⟨hp, hlt, hna⟩ := h.acked o ho
    exact ⟨hp, by simp only [hops]; omega, hnot hlt hna⟩

theorem Machine.Present.append {w : Write} (h : s.Present o) (hw : w.op ≠ o) {c : Cache}
    {cur : List Write} :
    Machine.Present { s with sys := u, cache := c, cur := cur, issued := s.issued ++ [w] } o := by
  have heq : opWrites o (s.issued ++ [w]) = opWrites o s.issued := by
    rw [opWrites_append, opWrites_singleton_ne hw, List.append_nil]
  unfold Machine.Present
  rw [heq]
  exact h

theorem ops_append {b : ℕ} {d : Block} {c : Cache} (h : OpsInv s)
    (hpc : s.sys.pc p = .checked o b) (hs : s.sys.step (.append p b) = some u) :
    OpsInv { s with
      sys := u
      cache := c
      cur := s.cur ++ [⟨o, b, d⟩]
      issued := s.issued ++ [⟨o, b, d⟩] } := by
  have hao : s.Active o := ⟨p, by rw [hpc]; rfl⟩
  have hops : u.ops = s.sys.ops := by
    obtain ⟨o', -, rfl⟩ := step_append hs
    rfl
  have hof : ∀ q, (u.pc q).opOf = (s.sys.pc q).opOf := by
    obtain ⟨o', hpc', rfl⟩ := step_append hs
    intro q
    rw [opOf_setPc]
    split_ifs with e
    · rw [e, hpc']
      rfl
    · rfl
  have hact : ∀ {o' : ℕ}, Machine.Active { s with
      sys := u
      cache := c
      cur := s.cur ++ [⟨o, b, d⟩]
      issued := s.issued ++ [⟨o, b, d⟩] } o' ↔ s.Active o' := by
    intro o'
    simp only [Machine.Active, hof]
  have hwrite : ∀ ws o', opWrites o' (ws ++ [⟨o, b, d⟩]) = opWrites o' ws ++ opWrites o' [⟨o, b, d⟩] :=
    fun ws o' => opWrites_append o' ws _
  refine ⟨fun w hw => ?_, fun ha => ?_, fun {q r o} hq hr => ?_, fun o' ho' => ?_, fun w hw => ?_,
    fun hm o' ho' => ?_, fun hm o' ho' => ?_, fun ws hws o' ho' => ?_, fun o' ho' => ?_⟩
  · simp only [hops]
    rcases List.mem_append.1 hw with hw | hw
    · exact h.issued_lt w hw
    · rw [List.mem_singleton.1 hw]
      exact h.active_lt hao
  · simp only [hops]
    exact h.active_lt (hact.1 ha)
  · rw [hof] at hq hr
    exact h.active_inj hq hr
  · simp only [hops, hact]
    exact h.ended o' ho'
  · rw [hact]
    rcases List.mem_append.1 hw with hw | hw
    · exact h.cur w hw
    · rw [List.mem_singleton.1 hw]
      exact .inl hao
  · rw [hact] at ho'
    simp only [hwrite, h.before hm o' ho']
  · have hne : o ≠ o' := by
      rintro rfl
      exact (h.ended o ho').2 hao
    exact (h.after hm o' ho').append hne
  · obtain ⟨heq, hlt, hna⟩ := h.committed ws hws o' ho'
    have hne : o ≠ o' := by
      rintro rfl
      exact hna hao
    rw [hact]
    simp only [hwrite, hops, opWrites_singleton_ne (w := ⟨o, b, d⟩) hne, List.append_nil]
    exact ⟨heq, hlt, hna⟩
  · obtain ⟨hp, hlt, hna⟩ := h.acked o' ho'
    have hne : o ≠ o' := by
      rintro rfl
      exact hna hao
    rw [hact]
    simp only [hops]
    exact ⟨hp.append hne, hlt, hna⟩

theorem ops_endOp {m : Mode} (h : OpsInv s) (hpast : s.mode.past = false)
    (hpc : s.sys.pc p = .op o) (hs : s.sys.step (.endOp p) = some u)
    (hm : m.past = true → s.cur = []) :
    OpsInv { s with sys := u, mode := m, ended := s.ended ++ [o] } := by
  have hao : (s.sys.pc p).opOf = some o := by rw [hpc]; rfl
  have hops : u.ops = s.sys.ops := by
    obtain ⟨o', l, -, -, rfl⟩ := step_endOp hs
    rfl
  have hof : ∀ q, (u.pc q).opOf = if q = p then none else (s.sys.pc q).opOf := by
    obtain ⟨o', l, -, -, rfl⟩ := step_endOp hs
    exact opOf_setPc _ _
  have hact : ∀ {o'}, Machine.Active { s with sys := u, mode := m, ended := s.ended ++ [o] } o' ↔
      s.Active o' ∧ o' ≠ o := by
    intro o'
    constructor
    · rintro ⟨q, hq⟩
      rw [hof] at hq
      split_ifs at hq with e
      refine ⟨⟨q, hq⟩, ?_⟩
      rintro rfl
      exact e (h.active_inj hq hao)
    · rintro ⟨⟨q, hq⟩, hne⟩
      refine ⟨q, ?_⟩
      rw [hof, if_neg]
      · exact hq
      · rintro rfl
        rw [hao, Option.some.injEq] at hq
        exact hne hq.symm
  -- the operations of the transaction are the same as before
  have hin : ∀ {o'}, s.Active o' ∨ o' ∈ s.ended → (s.Active o' ∧ o' ≠ o) ∨ o' ∈ s.ended ++ [o] := by
    intro o' hor
    by_cases e : o' = o
    · exact .inr (by simp [e])
    · exact hor.imp (fun ha => ⟨ha, e⟩) fun he => List.mem_append_left _ he
  have hin' : ∀ {o'}, (s.Active o' ∧ o' ≠ o) ∨ o' ∈ s.ended ++ [o] → s.Active o' ∨ o' ∈ s.ended := by
    rintro o' (⟨ha, -⟩ | he)
    · exact .inl ha
    rcases List.mem_append.1 he with he | he
    · exact .inr he
    · rw [List.mem_singleton.1 he]
      exact .inl ⟨p, hao⟩
  refine ⟨?_, fun ha => ?_, fun {q r o} hq hr => ?_, fun o' ho' => ?_, fun w hw => ?_,
    fun _ o' ho' => ?_, fun hm' o' ho' => ?_, fun ws hws o' ho' => ?_, fun o' ho' => ?_⟩
  · simp only [hops]
    exact h.issued_lt
  · simp only [hops]
    exact h.active_lt (hact.1 ha).1
  · rw [hof] at hq hr
    split_ifs at hq hr
    exact h.active_inj hq hr
  · simp only [hops, hact, not_and, not_not]
    rcases List.mem_append.1 ho' with he | he
    · exact ⟨(h.ended o' he).1, fun ha => absurd ha (h.ended o' he).2⟩
    · rw [List.mem_singleton.1 he]
      exact ⟨h.active_lt ⟨p, hao⟩, fun _ => rfl⟩
  · rw [hact]
    exact hin (h.cur w hw)
  · rw [hact] at ho'
    exact h.before hpast o' (hin' ho')
  · have heq := h.before hpast o' (hin' (.inr ho'))
    rw [hm hm'] at heq
    exact .inl heq
  · obtain ⟨heq, hlt, hna⟩ := h.committed ws hws o' ho'
    rw [hact]
    simp only [hops]
    exact ⟨heq, hlt, fun ha => hna ha.1⟩
  · obtain ⟨hp, hlt, hna⟩ := h.acked o' ho'
    rw [hact]
    simp only [hops]
    exact ⟨hp, hlt, fun ha => hna ha.1⟩

theorem ops_writeHead (c : Cache) (disk : ℕ → Block) (h : OpsInv s) (hm : s.mode.past = false)
    (hna : ∀ o, ¬ s.Active o) :
    OpsInv { s with
      cache := c
      disk := disk
      mode := .install 0 false
      committed := s.committed ++ [s.cur]
      cur := [] } := by
  have hpres : ∀ {o}, s.Present o → Machine.Present { s with
      cache := c
      disk := disk
      mode := .install 0 false
      committed := s.committed ++ [s.cur]
      cur := [] } o := by
    rintro o (h0 | ⟨ws, hws, heq⟩)
    · exact .inl h0
    · exact .inr ⟨ws, List.mem_append_left _ hws, heq⟩
  refine ⟨h.issued_lt, h.active_lt, h.active_inj, h.ended, nofun, nofun, fun _ o ho => ?_,
    fun ws hws o ho => ?_, fun o ho => ?_⟩
  · exact .inr ⟨s.cur, by simp, (h.before hm o (.inr ho)).symm⟩
  · rcases List.mem_append.1 hws with hws | hws
    · exact h.committed ws hws o ho
    rw [List.mem_singleton.1 hws] at ho ⊢
    obtain ⟨w, hw, rfl⟩ := exists_of_opWrites ho
    have hin := h.cur w hw
    refine ⟨(h.before hm _ hin).symm, ?_, hna _⟩
    exact hin.elim h.active_lt fun he => (h.ended _ he).1
  · obtain ⟨hp, hrest⟩ := h.acked o ho
    exact ⟨hpres hp, hrest⟩

theorem ops_finish (h : OpsInv s) (hm : s.mode = .finish)
    (hs : s.sys.step .finish = some u) (hcur : s.cur = []) (hna : ∀ o, ¬ s.Active o) :
    OpsInv { s with
      sys := u
      mode := .running
      acked := s.acked ++ s.ended
      ended := [] } := by
  obtain ⟨-, -, rfl⟩ := step_finish hs
  refine ⟨h.issued_lt, h.active_lt, h.active_inj, nofun, ?_, fun _ o ho => ?_, nofun, h.committed,
    fun o ho => ?_⟩
  · simp only [hcur]
    nofun
  · exact absurd (ho.resolve_right (by simp)) (hna o)
  · rcases List.mem_append.1 ho with ho | ho
    · exact h.acked o ho
    · exact ⟨h.after (by rw [hm]; rfl) o ho, (h.ended o ho).1, hna o⟩

theorem ops_crash (h : OpsInv s) : OpsInv s.reset := by
  have hna : ∀ o, ¬ s.reset.Active o := by
    rintro o ⟨q, hq⟩
    cases hq
  refine ⟨h.issued_lt, fun ha => absurd ha (hna _), fun {q r o} hq _ => absurd ⟨q, hq⟩ (hna o), nofun,
    nofun, fun _ o ho => absurd (ho.resolve_right (by simp [Machine.reset])) (hna o), nofun,
    fun ws hws o ho => ?_, fun o ho => ?_⟩
  · obtain ⟨heq, hlt, -⟩ := h.committed ws hws o ho
    exact ⟨heq, hlt, hna o⟩
  · obtain ⟨hp, hlt, -⟩ := h.acked o ho
    exact ⟨hp, hlt, hna o⟩

theorem ops_start (d : ℕ → Block) : OpsInv (.start d) := by
  have hna : ∀ o, ¬ (Machine.start d).Active o := by
    rintro o ⟨q, hq⟩
    cases hq
  exact ⟨nofun, fun ha => absurd ha (hna _), fun {q r o} hq _ => absurd ⟨q, hq⟩ (hna o), nofun, nofun,
    fun _ o ho => absurd (ho.resolve_right (by simp [Machine.start])) (hna o), nofun, nofun, nofun⟩

theorem MachInv.not_active (h : MachInv base s) (hc : s.sys.log.committing = true) (o : ℕ) :
    ¬ s.Active o := by
  rintro ⟨q, hq⟩
  have hcard : s.sys.active.card = 0 := by rw [← h.outstanding, h.idle (.inl hc)]
  have hidle : s.sys.pc q = .idle := by
    by_contra hne
    have := Finset.card_eq_zero.1 hcard ▸ mem_active.2 hne
    simp at this
  rw [hidle] at hq
  cases hq

theorem ops_step {l : MachOp} (h : MachInv base s) (ho : OpsInv s) (hs : MachStep s l t) :
    OpsInv t := by
  cases hs with
  | beginOp hup hs =>
    exact ops_beginOp ho
      (by rw [h.mode_running hup (Log.not_committing_of_admits (step_beginOp hs).2.1)]; rfl) hs
  | check _ hs =>
    obtain ⟨o, hpc, -, rfl⟩ := step_check hs
    refine ho.of_eq (fun q => ?_) rfl rfl rfl rfl rfl rfl rfl
    rw [opOf_setPc]
    split_ifs with e
    · rw [e, hpc]
      rfl
    · rfl
  | bread _ hr => exact ho.of_eq (fun _ => rfl) rfl rfl rfl rfl rfl rfl rfl
  | brelse => exact ho.of_eq (fun _ => rfl) rfl rfl rfl rfl rfl rfl rfl
  | append _ hpc hs hb hi hx _ => exact ops_append ho hpc hs
  | endOp _ hpc hs =>
    obtain ⟨hm, -, -⟩ := h.running (by rw [hpc]; simp)
    refine ops_endOp ho (by rw [hm]; rfl) hpc hs fun hpast => ?_
    obtain ⟨o', l, -, hend, rfl⟩ := step_endOp hs
    refine h.cur_nil ?_
    have hlh : l.lh = s.sys.log.lh := (Log.endOp_ok hend).2.1
    rw [← hlh]
    -- only an empty log skips `write_log`
    by_contra hne
    simp only [LogSys.setPc, hne, if_false, hm] at hpast
    split_ifs at hpast <;> cases hpast
  | writeLog hm _ _ _ _ => exact ho.of_eq (fun _ => rfl) rfl rfl rfl rfl rfl rfl (by rw [hm]; rfl)
  | writeHead hm _ _ =>
    exact ops_writeHead (s := s) _ _ ho (by rw [hm]; rfl) (h.not_active (h.atMode hm).1)
  | @install tail boot _ _ _ _ _ _ hm _ _ _ _ =>
    refine ho.of_eq (fun _ => rfl) rfl rfl rfl rfl rfl rfl ?_
    rw [hm]
    cases boot <;> rfl
  | @clear boot _ _ _ hm _ _ =>
    refine ho.of_eq (fun _ => rfl) rfl rfl rfl rfl rfl rfl ?_
    rw [hm]
    cases boot <;> rfl
  | finish hm hs =>
    obtain ⟨hc, hlh, -⟩ := step_finish hs
    exact ops_finish ho hm hs (h.cur_nil hlh) (h.not_active hc)
  | crash => exact ops_crash ho
  | readHead hm _ _ => exact ho.of_eq (fun _ => rfl) rfl rfl rfl rfl rfl rfl (by rw [hm]; rfl)

end Ops

/-! ## The result -/

/-- The log is crash atomic: from a file system whose log is empty, after any operations, crashes and
crashes during recovery, a recovery that completes leaves in the home blocks the committed
transactions; each operation is wholly present or wholly absent, and an operation that had ended when
a commit finished is present. -/
theorem crash_atomic {base : ℕ → Block} {s t : Machine} {ls : List MachOp} {tail : ℕ}
    (hbase : readHead (base logstart) = []) (hrun : Run MachStep (.start base) ls s)
    (hboot : s.mode = .install tail true) (hclear : MachStep s .clear t) : Atomic base t := by
  have hinv : MachInv base s ∧ OpsInv s :=
    hrun.invariant (I := fun s => MachInv base s ∧ OpsInv s) ⟨mach_start hbase, ops_start base⟩
      fun _ _ _ h hs => ⟨mach_step h.1 hs, ops_step h.1 h.2 hs⟩
  have hmach := mach_step hinv.1 hclear
  have hops := ops_step hinv.1 hinv.2 hclear
  have hmode : t.mode = .running := by
    cases hclear with
    | @clear boot _ _ _ hm _ _ =>
      rw [hboot] at hm
      cases hm
      rfl
  refine ⟨fun b hb => ?_, fun o => ?_, fun o ho => (hops.acked o ho).1⟩
  · have hhead : (redo t.disk).head = [] := (hmach.atMode hmode).2
    have hrec := hmach.disk.recovered b hb
    rwa [Redo.recovered_of_nil hhead] at hrec
  by_cases hex : ∃ ws ∈ t.committed, opWrites o ws ≠ []
  · obtain ⟨ws, hws, hne⟩ := hex
    exact .inl (.inr ⟨ws, hws, (hops.committed ws hws o hne).1⟩)
  · exact .inr fun ws hws => by_contra fun hne => hex ⟨ws, hws, hne⟩

theorem Cache.Bread.miss {disk : ℕ → Block} {b : ℕ} {c : Cache} {i : Fin nbuf}
    (hb : ∀ j, ((c j).all fun x => decide (x.block ≠ b)) = true)
    (hi : ((c i).all fun x => decide (x.refcnt = 0 ∧ x.dirty = false)) = true) :
    Bread disk b c i (update c i (some ⟨b, disk b, false, 1⟩)) := by
  refine .recycle (fun j x hj => ?_) fun x hx => ?_
  · simpa [hj] using hb j
  · simpa [hx] using hi

/-- The machine crashes between the header write and the installation of the only block. -/
theorem crash_atomic_install : ∃ ls s t, Run MachStep (.start fun _ _ => 0) ls s ∧
    MachStep s .clear t ∧ t.committed ≠ [] ∧ Atomic (fun _ _ => 0) t := by
  have hrun : Run MachStep (.start fun _ _ => 0) [.readHead, .clear, .beginOp 0, .bread 100,
      .check 0 100, .append 0 100 (fun _ => 7), .endOp 0, .writeLog, .writeHead, .crash, .readHead,
      .install] _ :=
    .cons (.readHead (i := 0) rfl (.miss (by decide) (by decide)) rfl) <|
    .cons (.clear rfl (.hit (i := 0) rfl rfl) rfl) <|
    .cons (.beginOp rfl rfl) <|
    .cons (.bread (i := 1) rfl (.miss (by decide) (by decide))) <|
    .cons (.check rfl rfl) <|
    .cons (.append (i := 1) rfl rfl rfl (by decide) rfl rfl (by decide)) <|
    .cons (.endOp rfl rfl rfl) <|
    .cons (.writeLog (i := 2) (j := 1) rfl rfl (.miss (by decide) (by decide)) (.hit rfl rfl) rfl) <|
    .cons (.writeHead (i := 0) rfl (.hit rfl rfl) rfl) <|
    .cons .crash <|
    .cons (.readHead (i := 0) rfl (.miss (by decide) (by decide)) rfl) <|
    .one (.install (i := 1) (j := 2) rfl rfl (.miss (by decide) (by decide))
      (.miss (by decide) (by decide)) rfl)
  refine ⟨_, _, _, hrun, .clear (i := 0) rfl (.hit rfl rfl) rfl, ?_, ?_⟩
  · exact List.cons_ne_nil _ _
  · exact crash_atomic rfl hrun rfl (.clear (i := 0) rfl (.hit rfl rfl) rfl)

end Xv6

import Xv6Cow.Lib.Run
import Xv6Cow.Vm.Boot

/-!
# Frame safety

Runs of the functions of `vm.c` on any number of page directories, each call atomic and with any of
its allocations failing.  `FrameSafe` holds in every state of such a run as long as `copyuvm` is
never called when 127 directories map user pages already: `pg_refcount` is an array of `char`, and
the 128th mapping of a frame turns its count negative.
-/

namespace Xv6

open Lts Prog

/-- The functions of `vm.c` that work on page directories. -/
inductive VmOp
  | setupkvm
  | inituvm (d : ℕ) (init : ℕ → UInt8) (sz : ℕ)
  | allocuvm (d oldsz newsz : ℕ)
  | deallocuvm (d oldsz newsz : ℕ)
  | copyuvm (d sz : ℕ)
  | clearpteu (d uva : ℕ)
  | pagefault (d va : ℕ)
  | freevm (d : ℕ)

/-- A call, with a script of the allocations that fail in it. -/
structure VmCall where
  op : VmOp
  fails : List Bool

/-- What the callers see to: the directory exists, and sizes of address spaces are at most
`KERNBASE`. -/
def VmOp.Pre (s : Vm) : VmOp → Prop
  | .setupkvm => True
  | .inituvm d _ _ | .allocuvm d _ _ | .clearpteu d _ | .pagefault d _ | .freevm d =>
    s.live d = true
  | .deallocuvm d oldsz _ => s.live d = true ∧ oldsz ≤ kernbase
  | .copyuvm d sz => s.live d = true ∧ sz ≤ kernbase

section Link

variable [Link]

def VmOp.run : VmOp → M Unit
  | .setupkvm => do let _ ← Xv6.setupkvm
  | .inituvm d init sz => Xv6.inituvm d init sz
  | .allocuvm d oldsz newsz => do let _ ← Xv6.allocuvm d oldsz newsz
  | .deallocuvm d oldsz newsz => do let _ ← Xv6.deallocuvm d oldsz newsz
  | .copyuvm d sz => do let _ ← Xv6.copyuvm d sz
  | .clearpteu d uva => Xv6.clearpteu d uva
  | .pagefault d va => do let _ ← Xv6.pagefault d va
  | .freevm d => Xv6.freevm d

def VmCall.exec (l : VmCall) (s : Vm) : EStateM.Result String Vm Unit :=
  l.op.run { s with oom := l.fails }

/-- A call that returns. -/
def vmStep (s : Vm) (l : VmCall) (t : Vm) : Prop := l.op.Pre s ∧ l.exec s = .ok () t

end Link

/-- A copy starts with fewer than 127 directories that map user pages. -/
def CopyFits (s : Vm) (l : VmCall) : Prop :=
  match l.op with
  | .copyuvm _ _ => s.userDirs.ncard < 127
  | _ => True

/-- The frame safety of a state. -/
structure FrameSafe (s : Vm) : Prop where
  /-- A user page is not on the free list. -/
  notFree : ∀ {d v f b}, s.upage d v = some (f, b) → f ∉ s.freelist
  /-- A user page is neither a page table nor a page directory. -/
  notTable : ∀ {d v f b}, s.upage d v = some (f, b) →
    s.live f = false ∧ ∀ d' i, s.tabFrame d' i ≠ some f
  /-- The count of a frame is at least the number of entries that map it. -/
  count : ∀ f, {q : ℕ × ℕ | ∃ b, s.upage q.1 q.2 = some (f, b)}.Finite ∧
    ({q : ℕ × ℕ | ∃ b, s.upage q.1 q.2 = some (f, b)}.ncard : ℤ) ≤ s.refcount f
  /-- A free frame has count zero. -/
  free : ∀ {f}, f ∈ s.freelist → s.refcount f = 0
  /-- No other entry maps the frame of a writable entry. -/
  write : ∀ {d v f d' v' b}, s.upage d v = some (f, true) → s.upage d' v' = some (f, b) →
    d' = d ∧ v' = v
  /-- No frame has been freed twice. -/
  nodup : s.freelist.Nodup

variable {A H L : Set ℕ} {s t : Vm} {d v f : ℕ}

theorem Inv.frameSafe (h : Inv A H L s) : FrameSafe s where
  notFree {d v f b} hu := h.wf.used (u := Use.page d v) hu
  notTable {d v f b} hu := by
    refine ⟨?_, fun d' i ht => ?_⟩
    · by_contra hl
      have := h.wf.alone (u := Use.dir f) (v := Use.page d v)
        (by simpa [Vm.pool, Vm.owner] using hl) hu
      cases this
    · have := h.wf.alone (u := Use.table d' i) (v := Use.page d v)
        (by simp [Vm.pool, Vm.owner, ht]) hu
      cases this
  count f := by
    have hfin : (Pool.holders Use.counted (s.pool H L).own f).Finite :=
      Pool.finite_holders h.wf.finite f
    have himage : (fun q : ℕ × ℕ => Use.page q.1 q.2) ''
        {q | ∃ b, s.upage q.1 q.2 = some (f, b)} ⊆
        Pool.holders Use.counted (s.pool H L).own f := by
      rintro _ ⟨q, ⟨b, hq⟩, rfl⟩
      exact ⟨trivial, b, hq⟩
    have hinj : Function.Injective fun q : ℕ × ℕ => Use.page q.1 q.2 := by
      rintro ⟨d, v⟩ ⟨d', v'⟩ e
      simpa using e
    refine ⟨(hfin.subset himage).of_finite_image hinj.injOn, ?_⟩
    have hcard := Set.ncard_le_ncard himage hfin
    rw [Set.ncard_image_of_injective _ hinj] at hcard
    have hcnt : s.refcount f = _ := h.wf.cnt_eq f
    rw [hcnt]
    exact_mod_cast hcard
  free hf := h.wf.cnt_free hf
  write {d v f d' v' b} hu hu' := by
    have := h.wf.alone (u := Use.page d v) (v := Use.page d' v') hu hu'
    simpa using this
  nodup := h.wf.nodup

section Link

variable [Link]

theorem vmOp_spec {l : VmCall} (h : Inv A H L s) (hpre : l.op.Pre s) (hfit : CopyFits s l) :
    wp l.op.run (fun _ t => ∃ L', Inv A H L' t) OtherPanic { s with oom := l.fails } := by
  obtain ⟨op, fails⟩ := l
  have h' : Inv A H L { s with oom := fails } := h.congr rfl rfl rfl rfl rfl rfl
  cases op with
  | setupkvm =>
    simp only [VmOp.run, wp_bind]
    exact wp_imp (setupkvm_spec h') (fun _ t ht => ⟨L, ht.1⟩)
  | inituvm d init sz =>
    exact wp_imp (inituvm_spec h' hpre) (fun _ t ht => ht.1)
  | allocuvm d oldsz newsz =>
    simp only [VmOp.run, wp_bind]
    exact wp_imp (allocuvm_spec h' hpre) (fun _ t ht => ht.2.1)
  | deallocuvm d oldsz newsz =>
    simp only [VmOp.run, wp_bind]
    exact wp_imp (deallocuvm_spec hpre.2 h') (fun _ t ht => ⟨L, ht.2.1⟩)
  | copyuvm d sz =>
    simp only [VmOp.run, wp_bind]
    exact wp_imp (copyuvm_spec hpre.2 h' hpre.1 hfit) (fun _ t ht => ⟨L, ht.1⟩)
  | clearpteu d uva =>
    exact wp_imp (clearpteu_spec h') (fun _ t ht => ⟨L, ht.1⟩)
  | pagefault d va =>
    simp only [VmOp.run, wp_bind]
    exact wp_imp (pagefault_spec h') (fun _ t ht => ⟨L, ht.1⟩)
  | freevm d =>
    exact wp_imp (freevm_spec h' hpre) (fun _ t ht => ⟨L, ht.1⟩)

theorem vmStep_inv {l : VmCall} (h : ∃ L, Inv A H L s) (hs : given vmStep CopyFits s l t) :
    ∃ L, Inv A H L t := by
  obtain ⟨L, h⟩ := h
  obtain ⟨hfit, hpre, hrun⟩ := hs
  exact wp_ok (vmOp_spec h hpre hfit) hrun

/-! ## Sharing a page among many directories -/

/-- Page 0 of directory `d` is shared by `n` mappings, and there is memory for `m` more copies. -/
structure Shared (A : Set ℕ) (d f n m : ℕ) (s : Vm) : Prop where
  inv : ∃ L, Inv A ∅ L s
  live : s.live d = true
  pte : ∃ w, s.pte d 0 = ⟨f, true, w, true⟩
  count : s.refcount f = n
  dirs : s.userDirs.ncard ≤ n
  room : Roomy (70 * m) s

omit [Link] in
theorem setOom_nil (h : s.oom = []) : { s with oom := [] } = s := by
  rw [← h]

theorem copy_step {n m : ℕ} (h : Shared A d f n (m + 1) s) (hn : n < 127) :
    ∃ l t, vmStep s l t ∧ Shared A d f (n + 1) m t := by
  obtain ⟨L, hI⟩ := h.inv
  obtain ⟨w, hpte⟩ := h.pte
  have hs := setOom_nil h.room.oom
  have hroom : Roomy (70 * m + 70) s := h.room.mono (by omega)
  have hspec := copyuvm_spec (show pgsize ≤ kernbase by decide) hI h.live (lt_of_le_of_lt h.dirs hn)
  obtain ⟨r, t, hrun, ⟨hI', -, hr⟩, ⟨c, rfl⟩, hroom', hpte', hcount⟩ :=
    wp_returns (wp_mono (wp_and hspec (copyuvm_total hI h.live hpte hroom)) (fun _ _ => id)
      (fun _ _ he => he.2))
  obtain ⟨-, hlive, -, -, hud⟩ := hr
  refine ⟨⟨.copyuvm d pgsize, []⟩, t, ⟨⟨h.live, by decide⟩, ?_⟩, ⟨L, hI'⟩, ?_, ⟨false, hpte'⟩,
    ?_, ?_, hroom'⟩
  · simp only [VmCall.exec, VmOp.run, hs, bind, EStateM.bind, hrun]
    rfl
  · rw [hlive, Function.update_apply]
    split_ifs
    · rfl
    · exact h.live
  · rw [hcount, h.count, toChar_of_mem (by omega) (by omega)]
    push_cast
    rfl
  · have hfin := hI.finite_dirs.subset (userDirs_subset_dirs s)
    have h1 := Set.ncard_le_ncard hud (hfin.insert c)
    have h2 := Set.ncard_insert_le c s.userDirs
    have h3 := h.dirs
    omega

theorem copies {m : ℕ} (j : ℕ) : ∀ {n : ℕ} {s : Vm}, Shared A d f n (m + j) s →
    n + j ≤ 127 → ∃ ls t, Run vmStep s ls t ∧ Shared A d f (n + j) m t := by
  induction j with
  | zero =>
    intro n s h _
    exact ⟨[], s, .nil s, h⟩
  | succ j ih =>
    intro n s h hn
    obtain ⟨l, t, hstep, ht⟩ := copy_step (m := m + j) h (by omega)
    obtain ⟨ls, u, hrun, hu⟩ := ih ht (by omega)
    refine ⟨l :: ls, u, .cons hstep hrun, ?_⟩
    have : n + 1 + j = n + (j + 1) := by omega
    rwa [this] at hu

theorem first_page {k : Option ℕ} {m : ℕ} (hI : Inv A ∅ ∅ s) (hb : Booted k s)
    (hroom : Roomy (70 * m + 71) s) :
    ∃ ls t d f, Run (given vmStep CopyFits) s ls t ∧ Shared A d f 1 m t := by
  have hs := setOom_nil hroom.oom
  obtain ⟨r, s1, hrun1, ⟨hI1, hm⟩, ⟨d, rfl⟩, hroom1, -, -⟩ :=
    wp_returns (wp_mono (wp_and (setupkvm_spec hI) (setupkvm_total (m := 70 * m + 2) hroom))
      (fun _ _ => id) (fun _ _ he => he.2))
  have hmade : Made d s s1 := hm
  have hlive : s1.live d = true := by simp [hmade.live]
  have hnone : ∀ d v, s1.upage d v = none := fun d v => by rw [hmade.upage, hb.upage]
  have hs1 := setOom_nil hroom1.oom
  have htotal := inituvm_total (m := 70 * m) (fun _ => 0) (show 0 < pgsize by decide) hI1
    hlive (hnone d 0) hroom1
  obtain ⟨_, s2, hrun2, ⟨⟨L, hI2⟩, hlive2, -⟩, hroom2, hother, f, hpte, hcount, -⟩ :=
    wp_returns (wp_mono (wp_and (inituvm_spec hI1 hlive) htotal) (fun _ _ => id)
      (fun _ _ he => he.2))
  refine ⟨[⟨.setupkvm, []⟩, ⟨.inituvm d (fun _ => 0) 0, []⟩], s2, d, f, ?_, ⟨L, hI2⟩, ?_,
    ⟨true, hpte⟩, ?_, ?_, hroom2⟩
  · refine .cons ⟨trivial, trivial, ?_⟩ (.one ⟨trivial, hlive, ?_⟩)
    · simp only [VmCall.exec, VmOp.run, hs, bind, EStateM.bind, hrun1]
      rfl
    · simp only [VmCall.exec, VmOp.run, hs1]
      exact hrun2
  · rw [hlive2, hlive]
  · rw [hcount]
    rfl
  · have hsub : s2.userDirs ⊆ {d} := by
      rintro d' ⟨v', x, hx⟩
      by_contra hne
      have hsame : s2.upage d' v' = s1.upage d' v' := by
        simp only [Vm.upage, hother d' v' (fun hc => hne hc.1)]
      rw [hsame, hnone] at hx
      cases hx
    have := Set.ncard_le_ncard hsub (Set.finite_singleton d)
    rwa [Set.ncard_singleton] at this

end Link

/-! ## The result -/

/-- With at most 127 directories that map user pages, every reachable state is frame safe and the
page-fault handler does not panic for a wrong reference count. -/
theorem frame_safety [Image] {k : Option ℕ} {s0 s : Vm} {ls : List VmCall}
    (hboot : mainInit Vm.start = .ok k s0) (hrun : Run (given vmStep CopyFits) s0 ls s) :
    FrameSafe s ∧ ∀ (l : VmCall) (e : String) (t : Vm), l.op.Pre s → CopyFits s l →
      l.exec s = .error e t → e ≠ wrongRefCount := by
  have h0 : ∃ L, Inv frames ∅ L s0 := ⟨∅, (wp_ok mainInit_spec hboot).1⟩
  obtain ⟨L, h⟩ := hrun.invariant (I := fun s => ∃ L, Inv frames ∅ L s) h0
    fun s l t hs hstep => vmStep_inv hs hstep
  exact ⟨h.frameSafe, fun l e t hpre hfit herr => wp_error (vmOp_spec h hpre hfit) herr⟩

theorem frame_safety_first_page : ∃ k s0 ls s, mainInit Vm.start = .ok k s0 ∧
    Run (given vmStep CopyFits) s0 ls s ∧ FrameSafe s ∧ s.userDirs.Nonempty := by
  obtain ⟨k, s0, hboot, hI, hb, hroom⟩ := boot_room
  obtain ⟨ls, s, d, f, hrun, hs⟩ := first_page (m := 0) hI hb (hroom.mono (by omega))
  obtain ⟨w, hpte⟩ := hs.pte
  exact ⟨k, s0, ls, s, hboot, hrun, (frame_safety hboot hrun).1, d, 0, (f, w),
    by simp [Vm.upage, hpte, kernpage]⟩

/-- The handler panics on a read-only user page whose count is not positive. -/
theorem pagefault_wrong {s : Vm} {d f : ℕ} (hpte : s.pte d 0 = ⟨f, true, false, true⟩)
    (hf : s.refcount f < 1) : pagefault d 0 s = .error wrongRefCount s := by
  have ht : s.tab d (0 / nptentries) ≠ none := Vm.tab_of_pte (by rw [hpte])
  have hwp : wp (pagefault d 0) (fun _ _ => False) (fun e t => e = wrongRefCount ∧ t = s) s := by
    have h1 : ¬ kernbase ≤ 0 := by decide
    have h2 : ¬ s.refcount f = 1 := by omega
    have h3 : ¬ 1 < s.refcount f := by omega
    have h4 : 0 / pgsize = 0 := by decide
    simp only [pagefault, h1, h2, h3, h4, wp_run, wp_walkpgdir_false, Option.isSome_iff_ne_none,
      ne_eq, ht, not_false_eq_true, hpte, Bool.not_true, wrongRefCount, and_self]
  cases hr : pagefault d 0 s with
  | ok a t => exact (wp_ok hwp hr).elim
  | error e t =>
    obtain ⟨rfl, rfl⟩ := wp_error hwp hr
    rfl

/-- With 128 directories that map one page, its count is -128 and the next fault panics. -/
theorem refcount_wraps : ∃ k s0 ls s, mainInit Vm.start = .ok k s0 ∧ Run vmStep s0 ls s ∧
    (∃ f, s.refcount f < ({q : ℕ × ℕ | ∃ b, s.upage q.1 q.2 = some (f, b)}.ncard : ℤ)) ∧
    ∃ (l : VmCall) (t : Vm), l.op.Pre s ∧ l.exec s = .error wrongRefCount t := by
  obtain ⟨k, s0, hboot, hI, hb, hroom⟩ := boot_room
  obtain ⟨ls1, s1, d, f, hrun1, hs1⟩ := first_page (m := 1 + 126) hI hb (hroom.mono (by omega))
  obtain ⟨ls2, s2, hrun2, hs2⟩ := copies (m := 1) 126 hs1 (by omega)
  obtain ⟨L, hI2⟩ := hs2.inv
  obtain ⟨w, hpte2⟩ := hs2.pte
  obtain ⟨r, s3, hrun3, -, -, hpte3, hcount3⟩ :=
    wp_returns (copyuvm_total (m := 0) hI2 hs2.live hpte2 hs2.room)
  have hcount : s3.refcount f = -128 := by
    rw [hcount3, hs2.count]
    rfl
  have hlive3 : s3.live d = true := Vm.live_of_tab (Vm.tab_of_pte (v := 0) (by rw [hpte3]))
  have hstep : vmStep s2 ⟨.copyuvm d pgsize, []⟩ s3 := by
    refine ⟨⟨hs2.live, by decide⟩, ?_⟩
    simp only [VmCall.exec, VmOp.run, setOom_nil hs2.room.oom, bind, EStateM.bind, hrun3]
    rfl
  refine ⟨k, s0, ls1 ++ (ls2 ++ [⟨.copyuvm d pgsize, []⟩]), s3, hboot, ?_, ⟨f, ?_⟩,
    ⟨.pagefault d 0, []⟩, { s3 with oom := [] }, hlive3, ?_⟩
  · exact (hrun1.mono fun _ _ _ h => h.2).append (hrun2.append (.one hstep))
  · rw [hcount]
    omega
  · have hfault := pagefault_wrong (s := { s3 with oom := [] }) hpte3 (by
      show s3.refcount f < 1
      omega)
    simp only [VmCall.exec, VmOp.run, bind, EStateM.bind, hfault]

end Xv6

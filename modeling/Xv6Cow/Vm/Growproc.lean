import Xv6Cow.Vm.Alloc
import Xv6Cow.Vm.Refine

/-!
# When `growproc` is atomic and exact

`Exact` is what `growproc(n)` is to do to a process whose pages are exactly those below its size.
It does this unless a page table is refused while it grows, or it shrinks to zero or below.
-/

namespace Xv6

open Lts Prog

section Inv

variable {A H L : Set ℕ} {s : Vm} {d v : ℕ}

theorem Inv.fresh (h : Inv A H L s) : Fresh s := ⟨h.wf.nodup, fun _ hf => h.wf.cnt_free hf⟩

theorem Inv.chars (h : Inv A H L s) : s.Chars := fun f => by
  have hcnt : s.refcount f = _ := h.wf.cnt_eq f
  exact toChar_of_mem (by omega) (h.small f)

theorem upage_of_present (hv : v < kernpage) (hp : (s.pte d v).p = true) :
    s.upage d v = some ((s.pte d v).frame, (s.pte d v).w) := by
  simp [Vm.upage, hv, hp]

theorem Inv.frame_mem (h : Inv A H L s) (hv : v < kernpage) (hp : (s.pte d v).p = true) :
  (s.pte d v).frame ∈ A := h.wf.own_mem (u := Use.page d v) (upage_of_present hv hp)

theorem Inv.frame_not_free (h : Inv A H L s) (hv : v < kernpage) (hp : (s.pte d v).p = true) :
    (s.pte d v).frame ∉ s.freelist :=
  h.wf.used (u := Use.page d v) (upage_of_present hv hp)

end Inv

/-! ## The property -/

/-- The pages of the process are exactly those below its size. -/
def Proc.Intact (q : Proc) (s : Vm) : Prop := ∀ v, v < kernpage →
    ((s.pte q.pgdir v).p = true ↔ v * pgsize < q.sz)

/-- The process has grown or shrunk by `n`. -/
structure Moved (p : Fin nproc) (q : Proc) (n : ℤ) (s t : Sys) : Prop where
  size : ∃ sz : ℕ, (sz : ℤ) = q.sz + n ∧ t.proc = Function.update s.proc p (some { q with sz })
  pages : ∀ v, v < kernpage → ((t.vm.pte q.pgdir v).p = true ↔ (v * pgsize : ℤ) < q.sz + n)
  old : ∀ v : ℕ, v * pgsize < q.sz → (v * pgsize : ℤ) < q.sz + n → t.vm.pte q.pgdir v =
    s.vm.pte q.pgdir v ∧ t.vm.mem (s.vm.pte q.pgdir v).frame = s.vm.mem (s.vm.pte q.pgdir v).frame
  new : ∀ v : ℕ, q.sz ≤ v * pgsize → (v * pgsize : ℤ) < q.sz + n →
    t.vm.mem (t.vm.pte q.pgdir v).frame = fun _ => 0

/-- Nothing has happened to any process. -/
structure Unmoved (s t : Sys) : Prop where
  proc : t.proc = s.proc
  present : ∀ d v, v < kernpage → (t.vm.pte d v).p = (s.vm.pte d v).p
  page : ∀ d v, v < kernpage → (s.vm.pte d v).p = true → t.vm.pte d v = s.vm.pte d v ∧
    t.vm.mem (s.vm.pte d v).frame = s.vm.mem (s.vm.pte d v).frame

/-- Atomic and exact. -/
def Exact (p : Fin nproc) (q : Proc) (n : ℤ) (s : Sys) (r : Bool) (t : Sys) : Prop :=
  r = true ∧ Moved p q n s t ∨ r = false ∧ Unmoved s t

/-- The condition for it, on the state before the call. -/
def GrowsExactly (q : Proc) (n : ℤ) (s : Vm) : Prop :=
  (0 < n → q.sz + n < kernbase →
    let F := s.fillOf q.pgdir q.sz (addSize q.sz n)
    if F.complete then F.refused = [] else ∀ v ∈ F.mapped, ¬ Skipped F.tab (pgroundup q.sz) v) ∧
  (n < 0 → q.sz = 0 ∨ 0 < q.sz + n)

section Link

variable [Link] {k : Option ℕ} {s : Sys} {p : Fin nproc} {q : Proc} {n : ℤ}

omit [Link] in
theorem Unmoved.refl (s : Sys) : Unmoved s s := ⟨rfl, fun _ _ _ => rfl, fun _ _ _ _ => ⟨rfl, rfl⟩⟩

omit [Link] in
theorem exact_true {t : Sys} : Exact p q n s true t ↔ Moved p q n s t := by
  simp [Exact]

omit [Link] in
theorem exact_false {t : Sys} : Exact p q n s false t ↔ Unmoved s t := by
  simp [Exact]

omit [Link] in
theorem lt_pgroundup {sz v : ℕ} (hsz : sz < kernbase) : v < pgroundup sz ↔ v * pgsize < sz := by
  simp only [pgroundup, pgsize, kernbase, word] at *
  omega

omit [Link] in
theorem Proc.Intact.above (hq : q.Intact s.vm) (hsz : q.sz < kernbase) {v : ℕ}
    (hv : pgroundup q.sz ≤ v) (hk : v < kernpage) : (s.vm.pte q.pgdir v).p = false := by
  have hlt := (lt_pgroundup (v := v) hsz).2
  rw [← Bool.not_eq_true, hq v hk]
  omega

omit [Link] in
/-- All pages got a frame: the process has grown exactly if no page table was refused. -/
theorem Filled.moved_iff {A H L : Set ℕ} {t : Vm} {newsz : ℕ} {g : ℕ → ℕ} {lost : List ℕ}
    (hI : Inv A H L s.vm)
    (hq : q.Intact s.vm) (hsz : q.sz < kernbase) (hnew : (newsz : ℤ) = q.sz + n)
      (hlt : newsz < kernbase) (hn : 0 < n)
    (hcomplete : (s.vm.fillOf q.pgdir q.sz newsz).complete = true)
    (hF : Filled q.pgdir (s.vm.fillOf q.pgdir q.sz newsz) g lost s.vm t) :
    Moved p q n s ⟨Function.update s.proc p (some { q with sz := newsz }), t⟩ ↔
      (s.vm.fillOf q.pgdir q.sz newsz).refused = [] := by
  have hkern : ∀ v, v * pgsize < newsz → v < kernpage := fun v hv => by
    simp only [kernbase, kernpage, pgsize] at *
    omega
  constructor
  · intro hM
    by_contra hrefused
    obtain ⟨v, hv⟩ := List.exists_mem_of_ne_nil _ hrefused
    obtain ⟨hvle, hvlt⟩ := mem_fillOf (.inr hv)
    have hpres := (hM.pages v (hkern v hvlt)).2 (by push_cast [← hnew]; exact_mod_cast hvlt)
    have hout : v ∉ (s.vm.fillOf q.pgdir q.sz newsz).mapped := fun hmem => (disjoint_fill _).1 v hmem hv
    rw [hF.pte, if_neg (fun hc => hout hc.2), hq.above hsz hvle (hkern v hvlt)] at hpres
    cases hpres
  · intro hnone
    have hmapped : (s.vm.fillOf q.pgdir q.sz newsz).mapped = pagesOf q.sz newsz :=
      mapped_of_complete _ hcomplete hnone
    have hmem : ∀ v, v ∈ (s.vm.fillOf q.pgdir q.sz newsz).mapped ↔ q.sz ≤ v * pgsize ∧
      v * pgsize < newsz := fun v => by
      have hle := lt_pgroundup (v := v) hsz
      rw [hmapped, mem_pagesOf]
      omega
    refine ⟨⟨newsz, hnew, rfl⟩, fun v hv => ?_, fun v hv _ => ⟨?_, ?_⟩, fun v hv hv' => ?_⟩
    · have hpres := hq v hv
      rw [hF.pte, ← hnew]
      split_ifs with hc
      · have := (hmem v).1 hc.2
        simp only [true_iff]
        exact_mod_cast this.2
      have hnot : ¬ (q.sz ≤ v * pgsize ∧ v * pgsize < newsz) := fun h => hc ⟨rfl, (hmem v).2 h⟩
      rw [hpres]
      norm_cast
      omega
    · have hout : v ∉ (s.vm.fillOf q.pgdir q.sz newsz).mapped := fun h => by
        have := (hmem v).1 h
        omega
      rw [hF.pte, if_neg (fun hc => hout hc.2)]
    · have hk : v < kernpage := by
        simp only [kernbase, kernpage, pgsize] at *
        omega
      exact hF.mem _ (hI.frame_not_free hk ((hq v hk).2 hv))
    · have hin : v ∈ (s.vm.fillOf q.pgdir q.sz newsz).mapped :=
        (hmem v).2 ⟨hv, by rw [← hnew] at hv'; exact_mod_cast hv'⟩
      show t.mem (t.pte q.pgdir v).frame = _
      rw [hF.pte, if_pos ⟨rfl, hin⟩]
      exact hF.zeroed _ (List.mem_map_of_mem hin)

omit [Link] in
/-- A page was refused: nothing is left of the others unless they are skipped. -/
theorem Undone.unmoved_iff {A H L : Set ℕ} {t : Vm} {newsz : ℕ} {g : ℕ → ℕ} {lost : List ℕ}
    (hI : Inv A H L s.vm) (hq : q.Intact s.vm) (hsz : q.sz < kernbase) (hlt : newsz < kernbase)
    (hU : Undone q.pgdir (pgroundup q.sz) (s.vm.fillOf q.pgdir q.sz newsz) g lost s.vm t) :
    Unmoved s { s with vm := t } ↔ ∀ v ∈ (s.vm.fillOf q.pgdir q.sz newsz).mapped,
      ¬ Skipped (s.vm.fillOf q.pgdir q.sz newsz).tab (pgroundup q.sz) v := by
  have habove : ∀ v ∈ (s.vm.fillOf q.pgdir q.sz newsz).mapped, v < kernpage ∧
    (s.vm.pte q.pgdir v).p = false := fun v hv => by
      obtain ⟨hvle, hvlt⟩ := mem_fillOf (.inl hv)
      have hk : v < kernpage := by
        simp only [kernbase, kernpage, pgsize] at *
        omega
      exact ⟨hk, hq.above hsz hvle hk⟩
  constructor
  · intro hM v hv hsk
    have hpres := hM.present q.pgdir v (habove v hv).1
    have hentry : t.pte q.pgdir v = _ := hU.kept v hv hsk
    rw [(habove v hv).2, show (Sys.mk s.proc t).vm = t from rfl, hentry] at hpres
    cases hpres
  intro hall
  refine ⟨rfl, fun d v hv => ?_, fun d v hv hpres => ⟨?_, hU.mem _ (hI.frame_not_free hv hpres)⟩⟩
  · show (t.pte d v).p = _
    by_cases hmem : d = q.pgdir ∧ v ∈ (s.vm.fillOf q.pgdir q.sz newsz).mapped
    · obtain ⟨rfl, hmem⟩ := hmem
      rw [hU.gone v hmem (hall v hmem), (habove v hmem).2]
      rfl
    · rw [hU.other d v hmem]
  · refine hU.other d v ?_
    rintro ⟨rfl, hmem⟩
    rw [(habove v hmem).2] at hpres
    cases hpres

section

variable (h : SysInv k s) (hp : s.proc p = some q) (hq : q.Intact s.vm)

include h hp hq

theorem growproc_grows (hn : 0 < n) (hn' : n < 2 ^ 31) :
    wp (growproc p q n) (fun r t => Exact p q n s r t ↔ GrowsExactly q n s.vm)
      (fun _ _ => False) s := by
  obtain ⟨L, hI⟩ := h.inv
  have hsz := h.size hp
  have hadd : (addSize q.sz n : ℤ) = q.sz + n := by
    simp only [addSize, word, kernbase] at *
    omega
  have hcond : GrowsExactly q n s.vm ↔ (q.sz + n < kernbase →
      if (s.vm.fillOf q.pgdir q.sz (addSize q.sz n)).complete then
        (s.vm.fillOf q.pgdir q.sz (addSize q.sz n)).refused = []
      else ∀ v ∈ (s.vm.fillOf q.pgdir q.sz (addSize q.sz n)).mapped,
        ¬ Skipped (s.vm.fillOf q.pgdir q.sz (addSize q.sz n)).tab (pgroundup q.sz) v) :=
    ⟨fun hc => hc.1 hn, fun hc => ⟨fun _ => hc, fun hneg => absurd hn (by omega)⟩⟩
  rw [growproc, if_pos hn, wp_bind, wp_onVm]
  by_cases hbig : kernbase ≤ addSize q.sz n
  · rw [allocuvm, if_pos hbig, wp_pure, wp_ite, if_pos ⟨by omega, rfl⟩, wp_pure]
    refine ⟨fun _ => hcond.2 fun hlt => ?_, fun _ => .inr ⟨rfl, .refl s⟩⟩
    omega
  have hsmall : q.sz + n < kernbase := by omega
  refine wp_imp (allocuvm_fills q.pgdir q.sz (addSize q.sz n) hI.fresh hI.chars
    (fun f hf => hI.wf.free_mem hf)
    (h.live hp) (by omega) (by omega) fun v hv hk => hq.above hsz hv hk) ?_
  rintro sz t ⟨g, lost, -, -, hres⟩
  rw [hcond, wp_ite]
  split_ifs at hres with hcomplete
  · obtain ⟨rfl, hF⟩ := hres
    rw [if_neg (by omega), wp_bind, setProc, wp_modify, wp_pure, exact_true]
    simp only [hsmall, hcomplete, if_true, true_implies]
    exact hF.moved_iff hI hq hsz hadd (by omega) hn hcomplete
  · obtain ⟨rfl, -, hU⟩ := hres
    rw [if_pos ⟨by omega, rfl⟩, wp_pure, exact_false]
    simp only [hsmall, hcomplete, true_implies]
    exact hU.unmoved_iff hI hq hsz (by omega)

/-- The page tables of a process exist, so no page is skipped. -/
theorem deallocuvm_shrinks {newsz : ℕ} (hlt : newsz < q.sz) :
    wp (deallocuvm q.pgdir q.sz newsz) (fun r t => r = newsz ∧
      (∀ v, v < kernpage → ((t.pte q.pgdir v).p = true ↔ v * pgsize < newsz)) ∧
      ∀ v, v * pgsize < newsz → t.pte q.pgdir v = s.vm.pte q.pgdir v ∧
        t.mem (s.vm.pte q.pgdir v).frame = s.vm.mem (s.vm.pte q.pgdir v).frame)
          (fun _ _ => False) s.vm := by
  obtain ⟨L, hI⟩ := h.inv
  have hsz := h.size hp
  have hkern : ∀ v, v * pgsize < q.sz → v < kernpage := fun v hv => by
    simp only [kernbase, kernpage, pgsize] at *
    omega
  have hround : ∀ v, v < pgroundup newsz ↔ v * pgsize < newsz := fun v => lt_pgroundup (hlt.trans hsz)
  rw [deallocuvm, if_neg (by omega), wp_bind]
  refine wp_imp (deallocuvmLoop_visits (B := False) fun v _ hv hpres hout => ?_) ?_
  · exact hout (hI.frame_mem (hkern v hv) hpres)
  rintro _ t rfl
  obtain ⟨F, hF⟩ := dropped_foldl (d := q.pgdir) (s := s.vm)
    (visited (s.vm.hasTab q.pgdir) q.sz (pgroundup newsz)) (nodup_visited ..) hI.chars
  have hvis : ∀ v, v ∈ visited (s.vm.hasTab q.pgdir) q.sz (pgroundup newsz) ↔ newsz ≤ v * pgsize ∧
    v * pgsize < q.sz := fun v => by
      have hv := hround v
      rw [mem_visited]
      constructor
      · rintro ⟨hle, hlt', -⟩
        omega
      rintro ⟨hle, hlt'⟩
      have htab : ∀ v, v * pgsize < q.sz → s.vm.hasTab q.pgdir (v / nptentries) = true := fun v hv =>
        (hasTab_iff ..).2 (Vm.tab_of_pte ((hq v (hkern v hv)).2 hv))
      refine ⟨by omega, hlt', htab v hlt', fun hsk => ?_⟩
      -- the first page is below the size, so its page table exists
      have hle' : pgroundup newsz * pgsize ≤ v * pgsize := Nat.mul_le_mul_right _ (by omega)
      have hfirst := htab (pgroundup newsz) (by omega)
      rw [hsk.2.1 _ le_rfl hsk.1] at hfirst
      cases hfirst
  refine ⟨rfl, fun v hv => ?_, fun v hv => ⟨?_, ?_⟩⟩
  · have hpres := hq v hv
    have hv' := hvis v
    rw [hF.pte]
    by_cases hmem : v ∈ visited (s.vm.hasTab q.pgdir) q.sz (pgroundup newsz)
    · have hin := hv'.1 hmem
      rw [if_pos ⟨rfl, hmem, hpres.2 hin.2⟩]
      simp only [Pte.zero, Bool.false_eq_true, false_iff]
      omega
    · rw [if_neg (fun hc => hmem hc.2.1), hpres]
      have hout := mt hv'.2 hmem
      omega
  · rw [hF.pte, if_neg]
    rintro ⟨-, hmem, -⟩
    have := (hvis v).1 hmem
    omega
  · -- a frame that is freed was mapped by another page, and no frame is mapped twice
    refine hF.mem _ fun hmem => ?_
    have hpos := List.count_pos_iff.2 hmem
    rw [hF.count] at hpos
    have hhit : 0 < hits s.vm q.pgdir (visited (s.vm.hasTab q.pgdir) q.sz (pgroundup newsz))
      (s.vm.pte q.pgdir v).frame := by
      rcases Nat.eq_zero_or_pos
        (hits s.vm q.pgdir (visited (s.vm.hasTab q.pgdir) q.sz (pgroundup newsz))
        (s.vm.pte q.pgdir v).frame) with hzero | hhit
      · rw [hzero] at hpos
        exact absurd hpos (Nat.lt_irrefl 0)
      · exact hhit
    obtain ⟨v', hv', hpage⟩ := List.countP_pos_iff.1 hhit
    simp only [Bool.and_eq_true, beq_iff_eq] at hpage
    have hin := (hvis v').1 hv'
    have hv'' := hpage.2 ▸ upage_of_present (hkern v' hin.2) hpage.1
    have heq := hI.inj hv'' (upage_of_present (hkern v (by omega))
      ((hq v (hkern v (by omega))).2 (by omega)))
    subst heq
    omega

theorem growproc_shrinks (hn : n < 0) (hn' : -2 ^ 31 ≤ n) :
    wp (growproc p q n) (fun r t => Exact p q n s r t ↔ GrowsExactly q n s.vm)
      (fun _ _ => False) s := by
  have hsz := h.size hp
  have hcond : GrowsExactly q n s.vm ↔ q.sz = 0 ∨ 0 < q.sz + n :=
    ⟨fun hc => hc.2 hn, fun hc => ⟨fun hpos => absurd hpos (by omega), fun _ => hc⟩⟩
  rw [growproc, if_neg (by omega), if_pos hn, wp_bind, wp_onVm, hcond]
  by_cases hwrap : q.sz + n < 0
  · -- the sum wraps, and `deallocuvm` does nothing
    have hbig : q.sz ≤ addSize q.sz n := by
      simp only [addSize, word, kernbase] at *
      omega
    rw [deallocuvm, if_pos hbig, wp_pure, wp_ite]
    split_ifs with hzero
    · rw [wp_pure, exact_false]
      exact ⟨fun _ => .inl hzero.2, fun _ => .refl s⟩
    rw [wp_bind, setProc, wp_modify, wp_pure, exact_true]
    refine ⟨fun hM => ?_, fun hc => ?_⟩
    · obtain ⟨sz, hnew, -⟩ := hM.size
      omega
    · omega
  · have hadd : (addSize q.sz n : ℤ) = q.sz + n := by
      simp only [addSize, word, kernbase] at *
      omega
    refine wp_imp (deallocuvm_shrinks h hp hq (by omega)) ?_
    rintro sz t ⟨rfl, hpages, hold⟩
    rw [wp_ite]
    split_ifs with hzero
    · rw [wp_pure, exact_false]
      refine ⟨fun hM => ?_, fun hc => ?_⟩
      · -- page 0 was present and is not
        have hpos : 0 * pgsize < q.sz := by omega
        have hpres := hM.present q.pgdir 0 (by decide)
        rw [(hq 0 (by decide)).2 hpos] at hpres
        have := (hpages 0 (by decide)).1 hpres
        omega
      · omega
    · rw [wp_bind, setProc, wp_modify, wp_pure, exact_true]
      refine ⟨fun _ => by omega, fun _ => ⟨⟨_, hadd, rfl⟩, fun v hv => ?_, fun v _ hv => hold v ?_, fun v hv hv' => ?_⟩⟩
      · rw [← hadd]
        exact_mod_cast hpages v hv
      · rw [← hadd] at hv
        exact_mod_cast hv
      · rw [← hadd] at hv'
        norm_cast at hv'
        omega

end

/-- `growproc` always returns; where it is exact is a condition on the state before the call. -/
theorem growproc_exact (n : ℤ) (h : SysInv k s) (hp : s.proc p = some q) (hq : q.Intact s.vm)
    (hn : -2 ^ 31 ≤ n) (hn' : n < 2 ^ 31) :
    ∃ r t, growproc p q n s = .ok r t ∧ (Exact p q n s r t ↔ GrowsExactly q n s.vm) := by
  refine wp_returns ?_
  rcases lt_trichotomy n 0 with hneg | rfl | hpos
  · exact growproc_shrinks h hp hq hneg hn
  · rw [growproc, if_neg (lt_irrefl 0), if_neg (lt_irrefl 0), wp_bind, wp_pure, wp_ite,
      if_neg (by simp), wp_bind, setProc, wp_modify, wp_pure, exact_true]
    refine ⟨fun _ => ⟨fun hpos => absurd hpos (lt_irrefl 0), fun hneg => absurd hneg (lt_irrefl 0)⟩,
      fun _ => ⟨⟨q.sz, (add_zero _).symm, rfl⟩, fun v hv => ?_, fun v _ _ => ⟨rfl, rfl⟩,
        fun v hv hv' => ?_⟩⟩
    · rw [add_zero]
      exact_mod_cast hq v hv
    · rw [add_zero] at hv'
      norm_cast at hv'
      omega
  · exact growproc_grows h hp hq hpos hn'

end Link

theorem boot_process : ∃ k s0 q f, BootsTo k s0 ∧ KernInv k s0 ∧ s0.proc ⟨0, by decide⟩ = some q ∧
    q.sz = pgsize ∧ q.Intact s0.vm ∧ s0.vm.pte q.pgdir 0 = ⟨f, true, true, true⟩ ∧
      s0.proc ⟨1, by decide⟩ = none ∧
    Roomy 1000 s0.vm ∧ s0.vm.refcount f = 1 ∧ s0.vm.mem f = fun _ => 0 := by
  obtain ⟨k, v0, hmain, hI0, hb0, hroom0⟩ := boot_room
  obtain ⟨_, s0, hinit, h0, q, f, hp, hsz, hpte, hroom, hfree, hnone, hone, hzero⟩ :=
    wp_returns (wp_mono (wp_and (userinit_spec hI0 hb0 (fun _ => 0) 0)
      (userinit_total (m := 1000) hI0 hb0 (hroom0.mono (by omega)) _)) (fun _ _ => id)
      (fun _ _ he => he.2))
  refine ⟨k, s0, q, f, ⟨v0, _, 0, hmain, by decide, hinit⟩, h0, hp, hsz, fun v hv => ?_, hpte,
    hfree, hroom, hone, hzero⟩
  rw [hsz]
  by_cases hv0 : v = 0
  · subst hv0
    simp [hpte, pgsize]
  have hnot : ¬ v * pgsize < pgsize := by
    simp only [pgsize]
    omega
  have hp : (s0.vm.pte q.pgdir v).p = false := by
    by_contra hpres
    have := hnone v hv0
    rw [upage_of_present hv (by simpa using hpres)] at this
    cases this
  simp [hp, hnot]

/-- The first process gives back one byte. -/
theorem growproc_exact_boot : ∃ k s0 q r t, BootsTo k s0 ∧ SysInv k s0 ∧
    s0.proc ⟨0, by decide⟩ = some q ∧
    q.Intact s0.vm ∧ growproc ⟨0, by decide⟩ q (-1) s0 = .ok r t ∧
      Exact ⟨0, by decide⟩ q (-1) s0 r t := by
  obtain ⟨k, s0, q, f, hboot, h0, hp, hsz, hq, -⟩ := boot_process
  obtain ⟨r, t, hok, hiff⟩ := growproc_exact (-1) h0.toSysInv hp hq (by decide) (by decide)
  have hcond : GrowsExactly q (-1) s0.vm := ⟨fun hpos => absurd hpos (by decide), fun _ =>
    .inr (by rw [hsz]; decide)⟩
  exact ⟨k, s0, q, r, t, hboot, h0.toSysInv, hp, hq, hok, hiff.2 hcond⟩

/-- `sbrk` by the negated size returns -1, and the pages are gone. -/
theorem growproc_to_zero : ∃ k s0 q t, BootsTo k s0 ∧ s0.proc ⟨0, by decide⟩ = some q ∧
    q.Intact s0.vm ∧ q.sz = pgsize ∧
    growproc ⟨0, by decide⟩ q (-pgsize) s0 = .ok false t ∧ (s0.vm.pte q.pgdir 0).p = true ∧
    (t.vm.pte q.pgdir 0).p = false := by
  obtain ⟨k, s0, q, f, hboot, h0, hp, hsz, hq, hpte, -⟩ := boot_process
  have hadd : addSize q.sz (-pgsize) = 0 := by
    rw [hsz]
    decide
  have hrun : wp (growproc ⟨0, by decide⟩ q (-pgsize))
      (fun r t => r = false ∧ (t.vm.pte q.pgdir 0).p = false) (fun _ _ => False) s0 := by
    rw [growproc, if_neg (by decide), if_pos (by decide), wp_bind, wp_onVm, hadd]
    refine wp_imp (deallocuvm_shrinks h0.toSysInv hp hq (by rw [hsz]; decide)) ?_
    rintro sz t ⟨rfl, hpages, -⟩
    rw [wp_ite, if_pos ⟨by decide, rfl⟩, wp_pure]
    refine ⟨rfl, ?_⟩
    rw [← Bool.not_eq_true, hpages 0 (by decide)]
    decide
  obtain ⟨_, t, hok, rfl, hgone⟩ := wp_returns hrun
  exact ⟨k, s0, q, t, hboot, hp, hq, hsz, hok, by rw [hpte], hgone⟩

end Xv6

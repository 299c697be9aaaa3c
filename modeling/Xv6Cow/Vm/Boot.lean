import Xv6Cow.Vm.UserSpec

/-!
# Boot, and operations with enough memory

The frame invariant holds when `main` has set up the allocator and the kernel's own page directory.
The `_total` lemmas say that, with enough free frames and no injected failure, functions return: the
states the other results speak about exist.
-/

namespace Xv6

open Lts Prog

variable {A H L : Set ℕ} {s t : Vm} {d c v f : ℕ} {b : Bool}

/-! ## The frame invariant at boot -/

theorem Inv.mono {B : Set ℕ} (h : Inv A H L s) (hAB : A ⊆ B) : Inv B H L s :=
  ⟨h.wf.mono hAB, h.inj, h.small, h.bound, h.exact⟩

theorem Inv.start : Inv ∅ ∅ ∅ Vm.start := by
  have hown : ∀ u, Vm.start.owner ∅ ∅ u = none := by
    intro u
    cases u <;> simp [Vm.owner, Vm.start, Vm.live, Vm.tabFrame, Vm.tab, Vm.upage, Vm.pte, Pte.zero]
  refine ⟨⟨?_, ?_, ?_, ?_, ?_, ?_, ?_, ?_⟩, ?_, ?_, ?_, rfl⟩
  · intro f hf
    cases hf
  · intro u f b hu
    simp [Vm.pool, hown] at hu
  · simp [Vm.pool, hown]
  · exact List.nodup_nil
  · intro u f b hu
    simp [Vm.pool, hown] at hu
  · intro u u' f b hu
    simp [Vm.pool, hown] at hu
  · intro u f b hu
    simp [Vm.pool, hown] at hu
  · intro f
    simp only [Vm.pool, Pool.holders, hown]
    simp [Vm.start]
  · intro d v v' f b b' hu
    simp [Vm.upage, Vm.pte, Vm.tab, Vm.start, Pte.zero] at hu
  · intro f
    simp [Vm.start]
  · intro d i _
    simp [Vm.tabFrame, Vm.tab, Vm.start]

theorem Inv.freeNew {lo : ℕ} (h : Inv (Set.Ico lo f) H L s) (hlo : lo ≤ f) :
    Inv (Set.Ico lo (f + 1)) H L (s.freed f) ∧ Quiet s (s.freed f) := by
  have hsub : Set.Ico lo f ⊆ Set.Ico lo (f + 1) := Set.Ico_subset_Ico_right (by omega)
  have hown : ∀ u b, s.owner H L u ≠ some (f, b) := by
    intro u b hu
    have := h.wf.own_mem (u := u) hu
    simp at this
  have hloose : (s.pool H L).Loose (Set.Ico lo (f + 1)) f := by
    refine ⟨by simp [hlo], fun hf => ?_, hown⟩
    have := h.wf.free_mem hf
    simp at this
  refine ⟨⟨?_, h.inj, h.small, h.bound, h.exact⟩, rfl, rfl, ?_⟩
  · have := (h.wf.mono hsub).push hloose
    simp only [Vm.pool] at this ⊢
    rwa [owner_congr (t := s.freed f) (s := s) rfl rfl rfl]
  · exact view_freed fun d v b hu => hown (.page d v) b hu

section Link

variable [Link]

theorem freerange_spec {lo vend : ℕ} {s : Vm} {f : ℕ} (h : Inv (Set.Ico lo f) H L s)
    (hlo : lo ≤ f) :
    wp (freerange f vend) (fun _ t => Quiet s t ∧
      ∃ g, f ≤ g ∧ (g = f ∨ g * pgsize ≤ vend) ∧ Inv (Set.Ico lo g) H L t) OtherPanic s := by
  rw [freerange]
  split_ifs with hlt
  · rw [wp_bind]
    refine kfree_spec ?_
    obtain ⟨h1, hq1⟩ := h.freeNew hlo
    refine wp_imp (freerange_spec h1 (by omega)) ?_
    rintro _ t ⟨hq, g, hfg, hg, hI⟩
    refine ⟨hq1.trans hq, g, by omega, .inr ?_, hI⟩
    rcases hg with rfl | hg
    · exact hlt
    · exact hg
  · exact ⟨.refl s, f, le_rfl, .inl rfl, h⟩
termination_by vend - f * pgsize
decreasing_by
  simp only [pgsize] at hlt ⊢
  omega

/-- The first frame after the kernel. -/
def firstFrame : ℕ := (v2p Link.kend + pgsize - 1) / pgsize

/-- The frames the allocator may hand out. -/
def frames : Set ℕ := Set.Ico firstFrame (phystop / pgsize)

end Link

/-- The directories and user pages after `main` has run up to `userinit`. -/
structure Booted (kpgdir : Option ℕ) (s : Vm) : Prop where
  live : ∀ d, s.live d = true ↔ kpgdir = some d
  upage : ∀ d v, s.upage d v = none

theorem mainInit_spec [Image] :
    wp mainInit (fun r t => Inv frames ∅ ∅ t ∧ Booted r t) OtherPanic Vm.start := by
  have hk := Image.kend_le
  have hfirst : firstFrame ≤ 1024 := by
    simp only [firstFrame, v2p, pgsize, kernbase] at *
    omega
  have hempty : Set.Ico firstFrame firstFrame = (∅ : Set ℕ) := by simp
  simp only [mainInit, kinit1, kinit2, wp_run]
  have hstart : Inv (Set.Ico firstFrame firstFrame) ∅ ∅ Vm.start := by
    rw [hempty]
    exact Inv.start
  refine wp_imp (freerange_spec hstart le_rfl) ?_
  rintro _ t1 ⟨hq1, g, -, hg, h1⟩
  have hg' : g ≤ 1024 := by
    rcases hg with rfl | hg
    · exact hfirst
    · simp only [pgsize] at hg
      omega
  have h1' : Inv (Set.Ico firstFrame 1024) ∅ ∅ { t1 with numFreePages := 0 } :=
    (h1.mono (Set.Ico_subset_Ico_right hg')).congr rfl rfl rfl rfl rfl rfl
  refine wp_imp (setupkvm_spec h1') ?_
  rintro r t2 ⟨h2, hr⟩
  have hdiv : 0x400000 / pgsize = 1024 := by decide
  rw [hdiv]
  refine wp_imp (freerange_spec h2 hfirst) ?_
  rintro _ t3 ⟨hq3, g', -, hg'', h3⟩
  have hbooted : Booted r t2 := by
    have hl1 : ∀ d, t1.live d = false := fun d => by rw [hq1.live]; rfl
    have hu1 : ∀ d v, t1.upage d v = none := fun d v => by
      rw [hq1.upage]
      simp [Vm.upage, Vm.pte, Vm.tab, Vm.start, Pte.zero]
    rcases r with _ | k
    · have hq : Quiet { t1 with numFreePages := 0 } t2 := hr
      refine ⟨fun d => ?_, fun d v => ?_⟩
      · rw [hq.live]
        show t1.live d = true ↔ _
        simp [hl1 d]
      · rw [hq.upage]
        exact hu1 d v
    have hm : Made k { t1 with numFreePages := 0 } t2 := hr
    refine ⟨fun d => ?_, fun d v => ?_⟩
    · rw [hm.live]
      by_cases hd : d = k
      · simp [hd]
      · rw [Function.update_of_ne hd]
        show t1.live d = true ↔ _
        simp [hl1 d, Ne.symm hd]
    · rw [hm.upage]
      exact hu1 d v
  refine ⟨h3.mono ?_, ⟨fun d => by rw [hq3.live, hbooted.live d], fun d v => ?_⟩⟩
  · refine Set.Ico_subset_Ico_right ?_
    rcases hg'' with rfl | hg''
    · decide
    · simp only [pgsize, phystop] at *
      omega
  · rw [hq3.upage]
    exact hbooted.upage d v

/-! ## Enough memory -/

/-- At least `n` frames are free and no failure is injected. -/
structure Roomy (n : ℕ) (s : Vm) : Prop where
  oom : s.oom = []
  free : n ≤ s.freelist.length

theorem Roomy.mono {m n : ℕ} (h : Roomy n s) (hmn : m ≤ n) : Roomy m s := ⟨h.oom, hmn.trans h.free⟩

def NoPanic (_ : String) (_ : Vm) : Prop := False

theorem kalloc_total {n : ℕ} (h : Roomy (n + 1) s) :
    wp kalloc (fun r t => (∃ f, r = some f ∧ f ∈ s.freelist) ∧ Roomy n t ∧ Grown s t ∧
      t.tab = s.tab) NoPanic s := by
  have hlen := h.free
  simp only [kalloc, wp_run, h.oom, List.head?_nil, reduceCtorEq]
  cases hf : s.freelist with
  | nil => simp [hf] at hlen
  | cons f fs =>
    rw [hf, List.length_cons] at hlen
    exact ⟨⟨f, rfl, by simp⟩, ⟨rfl, by simpa using hlen⟩, ⟨rfl, rfl, rfl, rfl⟩, rfl⟩

/-- The page-table pages that a mapping of page `v` takes. -/
def tabCost (s : Vm) (d v : ℕ) : ℕ := if s.tab d (v / nptentries) = none then 1 else 0

theorem walkpgdir_total {n : ℕ} (hd : s.live d = true) (h : Roomy (n + tabCost s d v) s) :
    wp (walkpgdir d v true) (fun r t => r = true ∧ Roomy n t ∧ Grown s t ∧
      t.tab d (v / nptentries) ≠ none) NoPanic s := by
  simp only [walkpgdir, wp_run]
  cases ht : s.tab d (v / nptentries) with
  | some tb => exact ⟨rfl, h.mono (by omega), ⟨rfl, rfl, rfl, rfl⟩, by simp [ht]⟩
  | none =>
    have hcost : tabCost s d v = 1 := by simp [tabCost, ht]
    rw [hcost] at h
    simp only [wp_bind]
    refine wp_imp (kalloc_total h) ?_
    rintro r t ⟨⟨f, rfl, -⟩, hr, hg, htab⟩
    have hn : t.tab d (v / nptentries) = none := by rw [htab, ht]
    have hl : t.live d = true := by rw [hg.live, hd]
    refine ⟨rfl, ⟨hr.oom, hr.free⟩, hg.trans ⟨by simp, ?_, rfl, rfl⟩, ?_⟩
    · funext d' v'
      exact Vm.pte_newTab hn ..
    · simp [Vm.tab_setTab, hl]

/-- What mapping the pages `v`, …, `v + n` of directory `d` leaves alone. -/
structure Mapped (d v n : ℕ) (s t : Vm) : Prop where
  live : t.live = s.live
  mem : t.mem = s.mem
  refcount : t.refcount = s.refcount
  pte : ∀ d' v', ¬ (d' = d ∧ v ≤ v' ∧ v' ≤ v + n) → t.pte d' v' = s.pte d' v'

theorem mapOne_total {n : ℕ} (hd : s.live d = true) (hp : (s.pte d v).p = false)
    (h : Roomy (n + tabCost s d v) s) (w u : Bool) :
    wp (mappagesLoop d w u 0 v f) (fun r t => r = true ∧ Roomy n t ∧ Mapped d v 0 s t ∧
      t.tab d (v / nptentries) ≠ none ∧ t.pte d v = ⟨f, true, w, u⟩) NoPanic s := by
  simp only [mappagesLoop, wp_bind]
  refine wp_imp (walkpgdir_total hd h) ?_
  rintro r t ⟨rfl, hr, hg, htab⟩
  have hp' : ¬ (t.pte d v).p = true := by rw [hg.pte, hp]; simp
  simp only [if_true, wp_bind, wp_get, hp']
  have hpte := Vm.pte_setPte htab ⟨f, true, w, u⟩
  refine ⟨rfl, ⟨by simpa using hr.oom, by simpa using hr.free⟩, ⟨by simp [hg.live],
    by simp [hg.mem], by simp [hg.refcount], fun d' v' hc => ?_⟩, ?_, ?_⟩
  · rw [hpte, if_neg (fun hc' => hc ⟨hc'.1, by omega, by omega⟩), hg.pte]
  · have htf := congrFun (congrFun (Vm.tabFrame_setPte t d v ⟨f, true, w, u⟩) d) (v / nptentries)
    intro hnone
    simp only [Vm.tabFrame, hnone, Option.map_none] at htf
    exact htab (Option.map_eq_none_iff.1 htf.symm)
  · rw [hpte]
    simp

theorem mapRange_total (w u : Bool) (n : ℕ) : ∀ {s : Vm} {v f m : ℕ}, s.live d = true →
    (∀ v', v ≤ v' → (s.pte d v').p = false) →
    Roomy (m + ((v + n) / nptentries - v / nptentries) + tabCost s d v) s →
    wp (mappagesLoop d w u n v f) (fun r t => r = true ∧ Roomy m t ∧ Mapped d v n s t)
      NoPanic s := by
  induction n with
  | zero =>
    intro s v f m hd hp h
    refine wp_imp (mapOne_total hd (hp v le_rfl) (n := m) (h.mono (by omega)) w u) ?_
    rintro r t ⟨hr, hroom, hm, -⟩
    exact ⟨hr, hroom, hm⟩
  | succ n ih =>
    intro s v f m hd hp h
    rw [wp_mappagesLoop_succ]
    refine wp_imp (mapOne_total hd (hp v le_rfl) h w u) ?_
    rintro r t ⟨rfl, hroom, hm, htab, -⟩
    simp only [if_true]
    have hcost : m + ((v + 1 + n) / nptentries - (v + 1) / nptentries) + tabCost t d (v + 1) ≤
        m + ((v + (n + 1)) / nptentries - v / nptentries) := by
      by_cases hsame : (v + 1) / nptentries = v / nptentries
      · have : tabCost t d (v + 1) = 0 := by simp [tabCost, hsame, htab]
        rw [this, hsame]
        simp only [nptentries]
        omega
      · have : tabCost t d (v + 1) ≤ 1 := by
          unfold tabCost
          split_ifs <;> omega
        simp only [nptentries] at *
        omega
    refine wp_imp (ih (by rw [hm.live, hd]) (fun v' hv' => ?_) (hroom.mono hcost)) ?_
    · rw [hm.pte _ _ (by omega)]
      exact hp v' (by omega)
    rintro r t2 ⟨hr, hroom2, hm2⟩
    refine ⟨hr, hroom2, hm2.live.trans hm.live, hm2.mem.trans hm.mem,
      hm2.refcount.trans hm.refcount, fun d' v' hc => ?_⟩
    rw [hm2.pte _ _ (by omega), hm.pte _ _ (by omega)]

/-- The rows lie above page `v`, one after the other. -/
def Rows : ℕ → List Kmap → Prop
  | _, [] => True
  | v, k :: ks => v ≤ k.first ∧ k.first ≤ k.last ∧ Rows (k.last + 1) ks

/-- A bound on the page-table pages that the rows take. -/
def rowsCost : List Kmap → ℕ
  | [] => 0
  | k :: ks => k.last / nptentries - k.first / nptentries + 1 + rowsCost ks

section Link

variable [Link]

theorem rows_kmap : Rows kernpage kmap := by
  have h1 := Link.kernlink_lt_data
  have h2 := Link.data_lt
  have h3 := Link.data_aligned
  simp only [kmap, Rows, Kmap.first, Kmap.last, and_true]
  simp only [kernlink, kernbase, extmem, phystop, devspace, v2p, pgsize, word, kernpage] at *
  omega

theorem rowsCost_kmap : rowsCost kmap ≤ 68 := by
  have h1 := Link.kernlink_lt_data
  have h2 := Link.data_lt
  have h3 := Link.data_aligned
  simp only [kmap, rowsCost, Kmap.first, Kmap.last]
  simp only [kernlink, kernbase, extmem, phystop, devspace, v2p, pgsize, word, nptentries] at *
  omega

theorem setupkvmLoop_total {m : ℕ} (ks : List Kmap) : ∀ {s : Vm} {v : ℕ}, Rows v ks →
    s.live d = true → (∀ v', v ≤ v' → (s.pte d v').p = false) → Roomy (m + rowsCost ks) s →
    wp (setupkvmLoop d ks) (fun r t => r = some d ∧ Roomy m t ∧ t.refcount = s.refcount ∧
      t.mem = s.mem) NoPanic s := by
  induction ks with
  | nil =>
    intro s v _ _ _ h
    exact ⟨rfl, h, rfl, rfl⟩
  | cons k ks ih =>
    intro s v hrows hd hp h
    obtain ⟨hv, hkl, hks⟩ := hrows
    have hcost : tabCost s d k.first ≤ 1 := by
      unfold tabCost
      split_ifs <;> omega
    have hsum : k.first + (k.last - k.first) = k.last := by omega
    simp only [setupkvmLoop, wp_bind, mappages_row]
    refine wp_imp (mapRange_total (m := m + rowsCost ks) k.w false (k.last - k.first) hd
      (fun v' hv' => hp v' (by omega)) (h.mono ?_)) ?_
    · rw [hsum]
      simp only [rowsCost]
      omega
    rintro r t ⟨rfl, hroom, hm⟩
    simp only [if_true]
    refine wp_imp (ih hks (by rw [hm.live, hd]) (fun v' hv' => ?_) hroom) ?_
    · rw [hm.pte _ _ (by omega)]
      exact hp v' (by omega)
    · rintro r t2 ⟨hr, hroom2, hrc, hmem⟩
      exact ⟨hr, hroom2, hrc.trans hm.refcount, hmem.trans hm.mem⟩

theorem setupkvm_total {m : ℕ} (h : Roomy (m + 69) s) :
    wp setupkvm (fun r t => (∃ d, r = some d) ∧ Roomy m t ∧ t.refcount = s.refcount ∧
      t.mem = s.mem) NoPanic s := by
  have hdev : ¬ devspace < kernbase + phystop := by decide
  have hcost := rowsCost_kmap
  simp only [setupkvm, wp_bind]
  refine wp_imp (kalloc_total (n := m + 68) h) ?_
  rintro r t ⟨⟨d, rfl, -⟩, hroom, hg, -⟩
  simp only [wp_run, hdev]
  refine wp_imp (setupkvmLoop_total (d := d) (m := m) kmap rows_kmap ?_ ?_ ?_) ?_
  · simp [Vm.live_setDir]
  · intro v' _
    simp [Vm.pte, Vm.tab, Vm.setDir, Pte.zero]
  · exact ⟨hroom.oom, le_trans (by omega) hroom.free⟩
  · rintro r t2 ⟨rfl, hroom2, hrc, hmem⟩
    exact ⟨⟨d, rfl⟩, hroom2, hrc.trans hg.refcount, hmem.trans hg.mem⟩

omit [Link] in
theorem inituvm_total {m sz : ℕ} (init : ℕ → UInt8) (hsz : sz < pgsize) (h : Inv A H L s)
    (hd : s.live d = true) (hv : s.upage d 0 = none) (hr : Roomy (m + 2) s) :
    wp (inituvm d init sz) (fun _ t => Roomy m t ∧
      (∀ d' v', ¬ (d' = d ∧ v' = 0) → t.pte d' v' = s.pte d' v') ∧
      ∃ f, t.pte d 0 = ⟨f, true, true, true⟩ ∧ t.refcount f = 1 ∧
        t.mem f = fun o => if o < sz then init o else 0) NoPanic s := by
  simp only [inituvm, wp_bind]
  refine wp_imp (kalloc_total (n := m + 1) hr) ?_
  rintro r t ⟨⟨f, rfl, hf⟩, hroom, hg, htab⟩
  have h0 : s.refcount f = 0 := h.wf.cnt_free hf
  have hsz' : ¬ pgsize ≤ sz := by omega
  have hpage : mappages d 0 pgsize (f * pgsize) true true = mappagesLoop d true true 0 0 f := by
    simpa using mappages_page (d := d) (v := 0) (f := f) (by decide) true true
  simp only [wp_run, wp_addRef, hsz', hpage]
  have hcost : tabCost ((t.addRef f 1).setMem f fun _ => 0) d 0 ≤ 1 := by
    unfold tabCost
    split_ifs <;> omega
  refine wp_imp (mapOne_total (s := (t.addRef f 1).setMem f fun _ => 0) (d := d) (v := 0) (n := m)
    ?_ ?_ ⟨hroom.oom, le_trans (by omega) hroom.free⟩ true true) ?_
  · rw [Vm.live_setMem, Vm.live_addRef, hg.live, hd]
  · rw [Vm.pte_setMem, Vm.pte_addRef, hg.pte]
    simpa [Vm.upage, kernpage] using hv
  rintro r t2 ⟨rfl, hroom2, hm, -, hpte⟩
  refine ⟨⟨hroom2.oom, hroom2.free⟩, fun d' v' hc => ?_, f, hpte, ?_, ?_⟩
  · rw [Vm.pte_setMem, hm.pte d' v' (fun hc' => hc ⟨hc'.1, by omega⟩), Vm.pte_setMem,
      Vm.pte_addRef, hg.pte]
  · rw [Vm.setMem_refcount, hm.refcount]
    simp [Vm.addRef, hg.refcount, h0, toChar]
  · simp [Vm.setMem, hm.mem]

theorem copyuvm_total {m : ℕ} (h : Inv A H L s) (hd : s.live d = true)
    (hs : s.pte d 0 = ⟨f, true, b, true⟩) (hr : Roomy (m + 70) s) :
    wp (copyuvm d pgsize) (fun r t => (∃ c, r = some c) ∧ Roomy m t ∧
      t.pte d 0 = ⟨f, true, false, true⟩ ∧ t.refcount f = toChar (s.refcount f + 1)) NoPanic s := by
  simp only [copyuvm, wp_bind]
  refine wp_mono (wp_and (setupkvm_spec h) (setupkvm_total (m := m + 1) hr)) ?_
    (fun _ _ => And.right)
  rintro r t ⟨⟨hI, hmade⟩, ⟨c, rfl⟩, hroom, hrc, -⟩
  have hm : Made c s t := hmade
  have hcd : c ≠ d := by
    rintro rfl
    rw [hm.fresh] at hd
    cases hd
  have hut : t.upage d 0 = some (f, b) := by
    rw [hm.upage]
    simp [Vm.upage, hs, kernpage]
  obtain ⟨-, hp, hf, -⟩ := upage_eq_some hut
  have hu : (t.pte d 0).u = true := by
    have hview : t.view d 0 = some (s.mem f) := by
      rw [hm.view]
      simp [Vm.view, hs, kernpage]
    unfold Vm.view at hview
    split_ifs at hview with hc
    exact hc.2.2
  have htab := tab_of_upage hut
  have hpc : (t.pte c 0).p = false := by
    have := not_upage_of_not_live hm.fresh 0
    rw [← hm.upage] at this
    simpa [Vm.upage, kernpage] using this
  show wp (copyuvmLoop d c pgsize 0) _ _ _
  rw [copyuvmLoop]
  have hlt : 0 * pgsize < pgsize := by decide
  have hge : ¬ (0 + 1) * pgsize < pgsize := by decide
  have hpage : ∀ g w u, mappages c (0 * pgsize) pgsize (g * pgsize) w u =
      mappagesLoop c w u 0 0 g := fun g w u => mappages_page (by decide) w u
  simp only [hlt, wp_run, wp_walkpgdir_false, Option.isSome_iff_ne_none, htab, ne_eq,
    not_false_eq_true, hp, hf, hu, hpage]
  have hpte := Vm.pte_setPte htab ⟨f, true, false, true⟩
  have hpte0 : (t.setPte d 0 ⟨f, true, false, true⟩).pte d 0 =
      ⟨f, true, false, true⟩ := by simp [hpte]
  rw [hpte0]
  have hcost : tabCost (t.setPte d 0 ⟨f, true, false, true⟩) c 0 ≤ 1 := by
    unfold tabCost
    split_ifs <;> omega
  have hroom1 : Roomy (m + 1) (t.setPte d 0 ⟨f, true, false, true⟩) :=
    ⟨by simpa using hroom.oom, by simpa using hroom.free⟩
  refine wp_imp (mapOne_total (n := m) ?_ ?_ (hroom1.mono (by omega)) _ _) ?_
  · rw [Vm.live_setPte, hm.live]
    simp
  · rw [hpte, if_neg (by simp [hcd]), hpc]
  rintro r t2 ⟨rfl, hroom2, hm2, -, -⟩
  simp only [if_true, wp_addRef]
  rw [copyuvmLoop, if_neg hge]
  refine ⟨⟨c, rfl⟩, ⟨hroom2.oom, hroom2.free⟩, ?_, ?_⟩
  · rw [Vm.pte_addRef, hm2.pte d 0 (by simp [hcd.symm]), hpte0]
  · simp [Vm.addRef, hm2.refcount, hrc]

theorem freerange_total {m vend : ℕ} {s : Vm} {f : ℕ} (hf : firstFrame ≤ f)
    (hvend : vend ≤ phystop) (h : Roomy m s) :
    wp (freerange f vend) (fun _ t => Roomy (m + (vend / pgsize - f)) t) NoPanic s := by
  rw [freerange]
  split_ifs with hlt
  · have hvalid : ¬ (kernbase + f * pgsize < Link.kend ∨ phystop ≤ f * pgsize) := by
      simp only [firstFrame, v2p, pgsize, phystop, kernbase] at *
      omega
    rw [wp_bind, kfree, if_neg hvalid, wp_modify]
    have hroom : Roomy (m + 1) (s.freed f) := ⟨h.oom, by simpa using h.free⟩
    refine wp_imp (freerange_total (by omega) hvend hroom) ?_
    intro _ t ht
    refine ht.mono ?_
    simp only [pgsize] at *
    omega
  · refine h.mono ?_
    simp only [pgsize] at *
    omega
termination_by vend - f * pgsize
decreasing_by
  simp only [pgsize] at hlt ⊢
  omega

theorem mainInit_total (hk : Link.kend ≤ kernbase + 0x300000) :
    wp mainInit (fun r t => (∃ k, r = some k) ∧ Roomy 50000 t) NoPanic Vm.start := by
  have hfirst : firstFrame ≤ 768 := by
    simp only [firstFrame, v2p, pgsize, kernbase] at *
    omega
  have hstart : Roomy 0 Vm.start := ⟨rfl, Nat.zero_le _⟩
  simp only [mainInit, kinit1, kinit2, wp_run]
  refine wp_imp (freerange_total le_rfl (by decide) hstart) ?_
  intro _ t1 h1
  have h1' : Roomy (0 + 69) { t1 with numFreePages := 0 } := by
    refine ⟨h1.oom, le_trans ?_ h1.free⟩
    show 0 + 69 ≤ 0 + (0x400000 / pgsize - firstFrame)
    simp only [pgsize]
    omega
  refine wp_imp (setupkvm_total h1') ?_
  rintro r t2 ⟨hr, h2, -, -⟩
  have hdiv : 0x400000 / pgsize = 1024 := by decide
  rw [hdiv]
  refine wp_imp (freerange_total (by omega) le_rfl h2) ?_
  intro _ t3 h3
  refine ⟨hr, h3.mono ?_⟩
  simp only [phystop, pgsize]
  omega

end Link

theorem boot_room : ∃ k s0, mainInit Vm.start = .ok k s0 ∧ Inv frames ∅ ∅ s0 ∧ Booted k s0 ∧
    Roomy 50000 s0 := by
  obtain ⟨k, s0, hboot, ⟨hI, hb⟩, -, hroom⟩ :=
    wp_returns (wp_mono (wp_and mainInit_spec (mainInit_total (by decide))) (fun _ _ => id)
      (fun _ _ he => he.2))
  exact ⟨k, s0, hboot, hI, hb, hroom⟩

end Xv6

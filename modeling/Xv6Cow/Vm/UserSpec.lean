import Xv6Cow.Vm.Spec

/-!
# What the functions of `vm.c` do to user pages

Growing, copying and the page-fault handler, on top of `Vm.Spec`.  `copyuvm` leaves every user page
as it was and gives the new directory the same pages; `pagefault` leaves every user page as it was.
-/

namespace Xv6

open Function Lts Prog

variable {A H L : Set ℕ} {s t : Vm} {d c v f : ℕ} {b : Bool}

/-- The other directories map the same user pages. -/
def Others (d : ℕ) (s t : Vm) : Prop := ∀ y, y ≠ d → t.upage y = s.upage y

theorem Others.trans {u : Vm} (h : Others d s t) (h' : Others d t u) : Others d s u :=
  fun y hy => (h' y hy).trans (h y hy)

theorem Others.of_upage (h : t.upage = s.upage) : Others d s t := fun y _ => congrFun h y

theorem Others.setPte (h : Others d s t) (ht : t.tab d (v / nptentries) ≠ none) (e : Pte) :
    Others d s (t.setPte d v e) := by
  intro y hy
  funext v'
  rw [upage_setPte ht, if_neg fun hc => hy hc.1, h y hy]

theorem Shrunk.others {v sz : ℕ} (h : Shrunk d v sz s t) : Others d s t := by
  intro y hy
  funext v'
  rcases h.page y v' with hv | hv
  · exact hv.1
  · exact absurd hv.1 hy

theorem Freed.others (h : Freed d s t) : Others d s t := fun y hy => funext fun v => (h.page y v hy).1

/-! ## Growing -/

/-- Map a fresh page that the caller holds; if there is no page table for it, it leaks. -/
theorem mapFresh_spec (h : Inv A (insert f H) L s) (hf : f ∉ H) (hd : s.live d = true)
    (hv : v < kernpage) :
    wp (mappagesLoop d true true 0 v f) (fun r t => t.live = s.live ∧
      (∀ d' v', ¬ (r = true ∧ d' = d ∧ v' = v) → t.view d' v' = s.view d' v') ∧
      (r = true → t.view d v = some (s.mem f)) ∧ t.mem = s.mem ∧ t.refcount = s.refcount ∧
      Others d s t ∧ ∃ L', Inv A H L' (t.addRef f 1)) OtherPanic s := by
  have hv' : v < 2 ^ 20 := by
    simp only [kernpage] at hv
    omega
  refine wp_imp (mapOne_spec h hd hv' true true) ?_
  rintro (_ | _) t' ⟨t, hI, hg, ht⟩
  · obtain rfl := ht
    exact ⟨hg.live, fun d' v' _ => by rw [hg.quiet.view], fun hr => (by cases hr), hg.mem,
      hg.refcount, .of_upage hg.quiet.upage, _, hI.leak hf⟩
  obtain ⟨htab, hp, rfl⟩ := ht
  have hview := view_setPte htab ⟨f, true, true, true⟩
  refine ⟨by simp [hg.live], fun d' v' hc => ?_, fun _ => ?_, by simp [hg.mem],
    by simp [hg.refcount], (Others.of_upage hg.quiet.upage).setPte htab _, L, hI.mapFresh hf htab (upage_eq_none hp) hv true true⟩
  · rw [hview, if_neg (fun hc' => hc ⟨rfl, hc'⟩), hg.quiet.view]
  · rw [hview]
    simp [hv, hg.mem]

/-- The effect of `allocuvm` on the pages of `d` between `v` and address `sz`. -/
structure Grew (d v sz : ℕ) (s t : Vm) : Prop where
  live : t.live = s.live
  page : ∀ d' v', t.view d' v' = s.view d' v' ∨
    (d' = d ∧ v ≤ v' ∧ v' * pgsize < sz ∧ (t.view d' v' = none ∨ t.view d' v' = some fun _ => 0))
  others : Others d s t

theorem Grew.trans {v' sz : ℕ} {u : Vm} (h : Grew d v sz s t) (h' : Grew d v' sz t u)
    (hv : v ≤ v') : Grew d v sz s u := by
  refine ⟨h'.live.trans h.live, fun d1 v1 => ?_, h.others.trans h'.others⟩
  rcases h'.page d1 v1 with hu | ⟨hd, hle, hlt, hu⟩
  · rw [hu]
    exact h.page d1 v1
  · exact .inr ⟨hd, hv.trans hle, hlt, hu⟩

variable {sz : ℕ}

theorem Shrunk.grew (h : Shrunk d v sz s t) : Grew d v sz s t := by
  refine ⟨h.live, fun d' v' => ?_, h.others⟩
  rcases h.page d' v' with ⟨-, hv⟩ | ⟨hd, hle, hlt, -, hv⟩
  · exact .inl hv
  · exact .inr ⟨hd, hle, hlt, .inl hv⟩

theorem Quiet.grew (h : Quiet s t) : Grew d v sz s t :=
  ⟨h.live, fun d' v' => .inl (by rw [h.view]), .of_upage h.upage⟩

variable [Link]

theorem allocuvmLoop_spec {oldsz newsz : ℕ} (hsz : newsz < kernbase) (hle : oldsz ≤ newsz)
    {s : Vm} {v : ℕ} {L : Set ℕ} (h : Inv A H L s) (hd : s.live d = true) (hv : pgroundup oldsz ≤ v) :
    wp (allocuvmLoop d oldsz newsz v) (fun r t => (r = 0 ∨ r = newsz) ∧ (∃ L', Inv A H L' t) ∧
      Grew d (pgroundup oldsz) newsz s t) OtherPanic s := by
  rw [allocuvmLoop]
  split_ifs with hlt
  · have hk : v < kernpage := by
      simp only [pgsize, kernbase, kernpage] at *
      omega
    have hv20 : v < 2 ^ 20 := by
      simp only [kernpage] at hk
      omega
    simp only [wp_bind]
    refine wp_imp (kalloc_spec h) ?_
    rintro (_ | f) t ⟨hg, -, hI⟩
    · -- out of memory: what was mapped is unmapped again
      simp only [wp_run]
      refine wp_imp (deallocuvm_spec hsz.le hI) ?_
      rintro _ t2 ⟨-, hI2, hS⟩
      rw [Nat.min_eq_right hle] at hS
      exact ⟨.inl trivial, ⟨L, hI2⟩, (hg.quiet.grew).trans hS.grew le_rfl⟩
    obtain ⟨hf, hI⟩ := hI
    have hI' := hI.setMem f (fun _ => 0)
    have hview := view_setMem hI.upage_insert_ne (fun _ => 0)
    simp only [wp_run, mappages_page hv20, wp_addRef]
    refine wp_imp (mapFresh_spec (d := d) hI' hf (by rw [Vm.live_setMem, hg.live, hd]) hk) ?_
    rintro r t1 ⟨hl, hother, hnew, -, -, ho, L', hI1⟩
    have hgrew : Grew d (pgroundup oldsz) newsz s (t1.addRef f 1) := by
      refine ⟨by rw [Vm.live_addRef, hl, Vm.live_setMem, hg.live], fun d' v' => ?_,
        (Others.of_upage hg.quiet.upage).trans ho⟩
      rw [view_addRef]
      by_cases hc : r = true ∧ d' = d ∧ v' = v
      · obtain ⟨hr, rfl, rfl⟩ := hc
        refine .inr ⟨rfl, hv, hlt, .inr ?_⟩
        rw [hnew hr]
        simp [Vm.setMem]
      · left
        rw [hother d' v' hc, hview, hg.quiet.view]
    refine wp_imp (allocuvmLoop_spec hsz hle hI1 (by rw [hgrew.live, hd]) (by omega)) ?_
    rintro _ t2 ⟨hr, hI2, hG⟩
    exact ⟨hr, hI2, hgrew.trans hG le_rfl⟩
  · exact ⟨.inr rfl, ⟨L, h⟩, (Quiet.refl s).grew⟩
termination_by newsz - v * pgsize
decreasing_by
  simp only [pgsize] at hlt ⊢
  omega

theorem allocuvm_spec {oldsz newsz : ℕ} (h : Inv A H L s) (hd : s.live d = true) :
    wp (allocuvm d oldsz newsz) (fun r t => (r = 0 ∨ (newsz < kernbase ∧ r = max oldsz newsz)) ∧
      (∃ L', Inv A H L' t) ∧ Grew d (pgroundup oldsz) newsz s t) OtherPanic s := by
  unfold allocuvm
  rw [wp_ite, wp_ite]
  split_ifs with h1 h2
  · exact ⟨.inl rfl, ⟨L, h⟩, (Quiet.refl s).grew⟩
  · exact ⟨.inr ⟨by omega, by omega⟩, ⟨L, h⟩, (Quiet.refl s).grew⟩
  refine wp_imp (allocuvmLoop_spec (by omega) (by omega) h hd le_rfl) ?_
  rintro r t ⟨hr, hI, hG⟩
  refine ⟨?_, hI, hG⟩
  rcases hr with rfl | rfl
  · exact .inl rfl
  · exact .inr ⟨by omega, by omega⟩

omit [Link] in
theorem inituvm_spec {init : ℕ → UInt8} (h : Inv A H L s) (hd : s.live d = true) :
    wp (inituvm d init sz) (fun _ t => (∃ L', Inv A H L' t) ∧ t.live = s.live ∧ Others d s t)
      OtherPanic s := by
  simp only [inituvm, wp_bind]
  refine wp_imp (kalloc_spec h) ?_
  rintro (_ | f) t ⟨hg, -, hI⟩
  · simp [OtherPanic, wrongRefCount]
  obtain ⟨hf, hI⟩ := hI
  simp only [wp_run, wp_addRef]
  split_ifs
  · simp [OtherPanic, wrongRefCount]
  -- the count is raised before the page is mapped
  have hL := hI.not_leaked_of_held (Set.mem_insert f H)
  have hI' := (hI.leak hf).setMem f (fun _ => 0)
  have h0 : mappages d 0 pgsize (f * pgsize) true true = mappagesLoop d true true 0 0 f := by
    simpa using mappages_page (d := d) (v := 0) (f := f) (by decide) true true
  rw [h0]
  refine wp_imp (mapOne_spec hI' (by rw [Vm.live_setMem, Vm.live_addRef, hg.live, hd])
    (by decide) true true) ?_
  rintro (_ | _) t' ⟨t1, hI1, hg1, ht⟩ <;>
    have ho : Others d s t1 := .of_upage (hg1.quiet.upage.trans hg.quiet.upage)
  · obtain rfl := ht
    exact ⟨⟨_, hI1.setMem _ _⟩, hg1.live.trans hg.live, ho⟩
  obtain ⟨htab, hp, rfl⟩ := ht
  refine ⟨⟨L, (hI1.adopt hL htab (upage_eq_none hp) (by decide) true true).setMem _ _⟩, ?_,
    ho.setPte htab _⟩
  rw [Vm.live_setMem, Vm.live_setPte, hg1.live]
  exact hg.live

omit [Link] in
theorem clearpteu_spec {uva : ℕ} (h : Inv A H L s) :
    wp (clearpteu d uva) (fun _ t => Inv A H L t ∧ t.live = s.live ∧ Others d s t) OtherPanic s := by
  simp only [clearpteu, wp_run, wp_walkpgdir_false]
  split_ifs with ht
  · have ht' : s.tab d (uva / pgsize / nptentries) ≠ none := Option.isSome_iff_ne_none.1 ht
    refine ⟨h.congr (by simp) (by simp) ?_ (by simp) (by simp) (by simp), by simp,
      (Others.of_upage rfl).setPte ht' _⟩
    funext d' v'
    rw [upage_setPte ht']
    split_ifs with hc hp
    · obtain ⟨rfl, rfl⟩ := hc
      exact (if_pos hp).symm
    · obtain ⟨rfl, rfl⟩ := hc
      exact (if_neg hp).symm
    · rfl
  · simp [OtherPanic, wrongRefCount]

/-! ## Copying -/

/-- Directory `c` maps only frames that `d` maps at the same pages, and reads the same there. -/
structure Sub (c d : ℕ) (s : Vm) : Prop where
  upage : ∀ {v f b}, s.upage c v = some (f, b) → ∃ b', s.upage d v = some (f, b')
  view : ∀ v, s.view c v = none ∨ s.view c v = s.view d v

omit [Link] in
theorem lowered (hu : s.upage d v = some (f, b)) :
    { s.pte d v with w := false } = ⟨f, true, false, (s.pte d v).u⟩ := by
  obtain ⟨-, hp, hf, -⟩ := upage_eq_some hu
  simp [hp, hf]

omit [Link] in
theorem view_lower (hu : s.upage d v = some (f, b)) :
    (s.setPte d v ⟨f, true, false, (s.pte d v).u⟩).view = s.view := by
  have ht := tab_of_upage hu
  obtain ⟨hk, hp, hf, -⟩ := upage_eq_some hu
  funext d' v'
  rw [view_setPte ht]
  by_cases hc : d' = d ∧ v' = v
  · obtain ⟨rfl, rfl⟩ := hc
    simp [Vm.view, hk, hp, hf]
  · rw [if_neg hc]

omit [Link] in
theorem Sub.congr (h : Sub c d s) (hv : t.view = s.view)
    (hc : ∀ {v f b}, t.upage c v = some (f, b) → s.upage c v = some (f, b))
    (hd : ∀ {v f b}, s.upage d v = some (f, b) → ∃ b', t.upage d v = some (f, b')) :
    Sub c d t := by
  refine ⟨fun hu => ?_, fun v => ?_⟩
  · obtain ⟨b', hb'⟩ := h.upage (hc hu)
    exact hd hb'
  · rw [hv]
    exact h.view v

omit [Link] in
theorem copyPage (h : Inv A H L s) (hcd : c ≠ d) (hsub : Sub c d s)
    (hn : (insert c s.userDirs).ncard ≤ 127) (hu : s.upage d v = some (f, false))
    (ht : s.tab c (v / nptentries) ≠ none) (hp : (s.pte c v).p = false) :
    let t := (s.setPte c v ⟨f, true, false, (s.pte d v).u⟩).addRef f 1
    Inv A H L t ∧ Sub c d t ∧ (∀ d' v', d' ≠ c → t.view d' v' = s.view d' v') ∧
      t.userDirs ⊆ insert c s.userDirs := by
  intro t
  obtain ⟨hk, hpd, hfd, -⟩ := upage_eq_some hu
  have hnone := upage_eq_none hp
  have hcf : ∀ v' b', s.upage c v' ≠ some (f, b') := by
    intro v' b' hv'
    obtain ⟨b'', hb''⟩ := hsub.upage hv'
    obtain rfl := h.inj hb'' hu
    rw [hnone] at hv'
    cases hv'
  have htu : ∀ d' v', t.upage d' v' = if d' = c ∧ v' = v then some (f, false) else
      s.upage d' v' := by
    intro d' v'
    rw [upage_addRef, upage_setPte ht]
    simp [hk]
  have htv : ∀ d' v', t.view d' v' = if d' = c ∧ v' = v then s.view d v else s.view d' v' := by
    intro d' v'
    rw [view_addRef, view_setPte ht]
    simp [Vm.view, hk, hpd, hfd]
  refine ⟨h.share hu ht hnone hcf (h.refcount_lt hu hcf hn) _, ⟨fun {v' g b'} hv' => ?_,
    fun v' => ?_⟩, fun d' v' hd' => ?_, ?_⟩
  · rw [htu] at hv' ⊢
    simp only [hcd.symm, false_and, if_false]
    split_ifs at hv' with hvv
    · obtain ⟨rfl, rfl⟩ : f = g ∧ false = b' := by simpa using hv'
      exact ⟨false, by rw [hvv.2, hu]⟩
    · exact hsub.upage hv'
  · rw [htv, htv]
    simp only [hcd.symm, false_and, if_false, true_and]
    split_ifs with hvv
    · rw [hvv]
      exact .inr rfl
    · exact hsub.view v'
  · rw [htv, if_neg (fun hc' => hd' hc'.1)]
  · rintro d' ⟨v', x, hx⟩
    rw [htu] at hx
    split_ifs at hx with hc'
    · exact .inl hc'.1
    · exact .inr ⟨v', x, hx⟩

/-- The loop shares the pages of `d`, or gives the new directory up; nobody's view changes. -/
theorem copyuvmLoop_spec (hsz : sz ≤ kernbase) {s : Vm} {v : ℕ} (h : Inv A H L s)
    (hc : s.live c = true) (hcd : c ≠ d) (hsub : Sub c d s)
    (hn : (insert c s.userDirs).ncard ≤ 127) :
    wp (copyuvmLoop d c sz v) (fun r t => Inv A H L t ∧
      (∀ y, y ≠ d → y ≠ c → t.upage y = s.upage y) ∧
      match r with
      | none => t.live = update s.live c false ∧
          ∀ d' v', d' ≠ c → t.view d' v' = s.view d' v'
      | some c' => c' = c ∧ t.live = s.live ∧ Sub c d t ∧
          (∀ d' v', d' ≠ c → t.view d' v' = s.view d' v') ∧
          t.userDirs ⊆ insert c s.userDirs) OtherPanic s := by
  rw [copyuvmLoop]
  split_ifs with hlt
  · have hk : v < kernpage := by
      simp only [pgsize, kernbase, kernpage] at *
      omega
    have hv20 : v < 2 ^ 20 := by
      simp only [kernpage] at hk
      omega
    simp only [wp_run, wp_walkpgdir_false, wp_addRef, mappages_page hv20]
    split_ifs with ht hp
    · have hu : s.upage d v = some ((s.pte d v).frame, (s.pte d v).w) := by
        simp [Vm.upage, hk, hp]
      rw [lowered hu]
      have ht' := tab_of_upage hu
      have h1 := h.reflag hu false (s.pte d v).u (fun hw => by cases hw)
      have hview1 := view_lower hu
      have hpte1 : (s.setPte d v ⟨(s.pte d v).frame, true, false, (s.pte d v).u⟩).pte d v =
          ⟨(s.pte d v).frame, true, false, (s.pte d v).u⟩ := by
        rw [Vm.pte_setPte ht']
        simp
      have hu1 := upage_setPte ht' ⟨(s.pte d v).frame, true, false, (s.pte d v).u⟩
      have hsub1 : Sub c d (s.setPte d v ⟨(s.pte d v).frame, true, false, (s.pte d v).u⟩) := by
        refine hsub.congr hview1 (fun {v' g b'} hv' => ?_) (fun {v' g b'} hv' => ?_)
        · rwa [hu1, if_neg (fun hc' => hcd hc'.1)] at hv'
        rw [hu1]
        split_ifs with hvv
        · rw [hvv.2, hu] at hv'
          simp only [Option.some.injEq, Prod.mk.injEq] at hv'
          exact ⟨false, by rw [hv'.1]⟩
        · simp [hk] at *
        · exact ⟨b', hv'⟩
      rw [hpte1]
      refine wp_imp (mapOne_spec h1 (by simpa using hc) hv20 _ _) ?_
      rintro r t' ⟨t, hI, hg, hr⟩
      have hlive : t.live = s.live := by rw [hg.live, Vm.live_setPte]
      have hview : t.view = s.view := by rw [hg.quiet.view, hview1]
      have hlower := (Others.of_upage (d := d) (s := s) rfl).setPte ht'
        ⟨(s.pte d v).frame, true, false, (s.pte d v).u⟩
      cases r with
      | false =>
        obtain rfl := hr
        simp only [Bool.false_eq_true, if_false]
        refine wp_imp (freevm_spec hI (by rw [hlive, hc])) ?_
        rintro _ t2 ⟨hI2, hf⟩
        refine ⟨hI2, fun y hy hyc => ?_, by rw [hf.live, hlive], fun d' v' hd' => ?_⟩
        · rw [hf.others y hyc, hg.quiet.upage, hlower y hy]
        · rw [(hf.page d' v' hd').2, hview]
      | true =>
        obtain ⟨htab, hp', rfl⟩ := hr
        simp only [if_true]
        have hut : t.upage d v = some ((s.pte d v).frame, false) := by
          rw [hg.quiet.upage, hu1]
          simp [hk]
        have hsubt : Sub c d t := hsub1.congr hg.quiet.view (by rw [hg.quiet.upage]; exact id)
          (fun hv' => by rw [hg.quiet.upage]; exact ⟨_, hv'⟩)
        have hut' : (t.pte d v).u = (s.pte d v).u := by rw [hg.pte, hpte1]
        have hfin := (h.finite_dirs.subset (userDirs_subset_dirs s)).insert c
        have hut0 : t.userDirs ⊆ s.userDirs := by
          rintro d' ⟨v', x, hx⟩
          rw [hg.quiet.upage, hu1] at hx
          split_ifs at hx with hc'
          · obtain ⟨rfl, rfl⟩ := hc'
            exact ⟨v', _, hu⟩
          · exact ⟨v', x, hx⟩
        have hnt : (insert c t.userDirs).ncard ≤ 127 :=
          (Set.ncard_le_ncard (Set.insert_subset_insert hut0) hfin).trans hn
        obtain ⟨hI2, hsub2, hview2, hud2⟩ := copyPage hI hcd hsubt hnt hut htab hp'
        rw [hut'] at hI2 hsub2 hview2 hud2
        have hlive2 : ∀ e, ((t.setPte c v e).addRef (s.pte d v).frame 1).live = s.live := by
          intro e
          rw [Vm.live_addRef, Vm.live_setPte, hlive]
        refine wp_imp (copyuvmLoop_spec hsz hI2 (by rw [hlive2, hc]) hcd hsub2 ?_) ?_
        · refine (Set.ncard_le_ncard (Set.insert_subset (Set.mem_insert ..) ?_) hfin).trans hn
          exact hud2.trans (Set.insert_subset_insert hut0)
        have hcopied := (Others.of_upage (d := c) (s := t) rfl).setPte htab
          ⟨(s.pte d v).frame, true, false, (s.pte d v).u⟩
        rintro (_ | c') t3 ⟨hI3, ho3, hr3⟩ <;>
          have ho : ∀ y, y ≠ d → y ≠ c → t3.upage y = s.upage y := fun y hy hyc => by
            rw [ho3 y hy hyc, upage_addRef, hcopied y hyc, hg.quiet.upage, hlower y hy]
        · refine ⟨hI3, ho, by rw [hr3.1, hlive2], fun d' v' hd' => ?_⟩
          rw [hr3.2 d' v' hd', hview2 d' v' hd', hview]
        obtain ⟨rfl, hl3, hsub3, hview3, hud3⟩ := hr3
        refine ⟨hI3, ho, rfl, by rw [hl3, hlive2], hsub3, fun d' v' hd' => ?_, ?_⟩
        · rw [hview3 d' v' hd', hview2 d' v' hd', hview]
        · exact hud3.trans (Set.insert_subset (Set.mem_insert ..)
            (hud2.trans (Set.insert_subset_insert hut0)))
    · simp [OtherPanic, wrongRefCount]
    · simp [OtherPanic, wrongRefCount]
  · exact ⟨h, fun _ _ _ => rfl, rfl, rfl, hsub, fun _ _ _ => rfl, Set.subset_insert ..⟩
termination_by sz - v * pgsize
decreasing_by
  simp only [pgsize] at hlt ⊢
  omega

omit [Link] in
theorem view_of_not_live (h : s.live d = false) (v : ℕ) : s.view d v = none :=
  view_eq_none_of_upage (not_upage_of_not_live h v)

/-- `copyuvm` gives a new directory the pages of `d`, or changes nothing that user code can see. -/
theorem copyuvm_spec (hsz : sz ≤ kernbase) (h : Inv A H L s) (hd : s.live d = true)
    (hn : s.userDirs.ncard < 127) :
    wp (copyuvm d sz) (fun r t => Inv A H L t ∧
      (∀ y, y ≠ d → s.live y = true → t.upage y = s.upage y) ∧
      match r with
      | none => t.live = s.live ∧ t.view = s.view
      | some c => s.live c = false ∧ t.live = update s.live c true ∧
          (∀ v, t.view c v = none ∨ t.view c v = s.view d v) ∧
          (∀ d' v', d' ≠ c → t.view d' v' = s.view d' v') ∧
          t.userDirs ⊆ insert c s.userDirs) OtherPanic s := by
  simp only [copyuvm, wp_bind]
  refine wp_imp (setupkvm_spec h) ?_
  rintro (_ | c) t ⟨hI, hr⟩
  · exact ⟨hI, fun y _ _ => congrFun hr.upage y, hr.live, hr.view⟩
  have hm : Made c s t := hr
  have hcd : c ≠ d := by
    rintro rfl
    rw [hm.fresh] at hd
    cases hd
  have hempty : ∀ v, t.upage c v = none := by
    intro v
    rw [hm.upage]
    exact not_upage_of_not_live hm.fresh v
  have hsub : Sub c d t :=
    ⟨fun {v f b} hu => by simp [hempty] at hu, fun v => .inl (view_eq_none_of_upage (hempty v))⟩
  have hud : t.userDirs = s.userDirs := by
    unfold Vm.userDirs
    rw [hm.upage]
  have hn' : (insert c t.userDirs).ncard ≤ 127 := by
    have := Set.ncard_insert_le c s.userDirs
    rw [hud]
    omega
  refine wp_imp (copyuvmLoop_spec hsz hI (by simp [hm.live]) hcd hsub hn') ?_
  rintro (_ | c') t2 ⟨hI2, ho2, hr2⟩ <;>
    have ho : ∀ y, y ≠ d → s.live y = true → t2.upage y = s.upage y := fun y hy hlive => by
      rw [ho2 y hy (by rintro rfl; rw [hm.fresh] at hlive; cases hlive), hm.upage]
  · have hl : t2.live = s.live := by
      rw [hr2.1, hm.live, update_idem, ← hm.fresh, update_eq_self]
    refine ⟨hI2, ho, hl, ?_⟩
    funext d' v'
    by_cases hd' : d' = c
    · rw [hd', view_of_not_live (by rw [hl, hm.fresh]), view_of_not_live hm.fresh]
    · rw [hr2.2 d' v' hd', hm.view]
  · obtain ⟨rfl, hl, hsub2, hv, hud2⟩ := hr2
    refine ⟨hI2, ho, hm.fresh, by rw [hl, hm.live], fun v => ?_, fun d' v' hd' => ?_, hud ▸ hud2⟩
    · have := hsub2.view v
      rwa [hv d v hcd.symm, hm.view] at this
    · rw [hv d' v' hd', hm.view]

/-! ## Page faults -/

/-- The handler leaves every user page as it was, and a fault that did not kill the process can be
retried. -/
structure Faulted (d va : ℕ) (r : Fault) (s t : Vm) : Prop where
  live : t.live = s.live
  view : t.view = s.view
  retry : r = .handled → va < kernbase ∧ (t.pte d (va / pgsize)).p = true ∧
    (t.pte d (va / pgsize)).w = true ∧ (t.pte d (va / pgsize)).u = true
  others : Others d s t

omit [Link] in
theorem Quiet.killed {va : ℕ} (h : Quiet s t) : Faulted d va .killed s t :=
  ⟨h.live, h.view, nofun, .of_upage h.upage⟩

omit [Link] in
theorem view_remap {g : ℕ} (hu : s.upage d v = some (f, b)) (hg : t.mem g = s.mem f)
    (huu : (s.pte d v).u = true) (ht : t.tab d (v / nptentries) ≠ none) (hv : t.view = s.view) :
    (t.setPte d v ⟨g, true, true, true⟩).view = s.view := by
  obtain ⟨hk, hp, hf, -⟩ := upage_eq_some hu
  funext d' v'
  rw [view_setPte ht]
  by_cases hc : d' = d ∧ v' = v
  · obtain ⟨rfl, rfl⟩ := hc
    simp [Vm.view, hk, hp, huu, hg, hf]
  · rw [if_neg hc, hv]

omit [Link] in
theorem pagefault_spec {va : ℕ} (h : Inv A H L s) :
    wp (pagefault d va) (fun r t => Inv A H L t ∧ Faulted d va r s t) OtherPanic s := by
  have hmapped (hva : ¬ kernbase ≤ va) (hp : ¬ (!(s.pte d (va / pgsize)).p) = true) :
      s.upage d (va / pgsize) =
        some ((s.pte d (va / pgsize)).frame, (s.pte d (va / pgsize)).w) := by
    have hk : va / pgsize < kernpage := by
      simp only [pgsize, kernbase, kernpage] at *
      omega
    have hpp : (s.pte d (va / pgsize)).p = true := by simpa using hp
    simp [Vm.upage, hk, hpp]
  simp only [pagefault, wp_run, wp_walkpgdir_false]
  split_ifs with hva ht hu hp hw h1 h2
  · exact ⟨h, (Quiet.refl s).killed⟩
  · exact ⟨h, (Quiet.refl s).killed⟩
  · exact ⟨h, (Quiet.refl s).killed⟩
  · simp [OtherPanic, wrongRefCount]
  · -- the count is one: the entry gets `PTE_W` back
    have hup := hmapped hva hp
    have hte := tab_of_upage hup
    have huu : (s.pte d (va / pgsize)).u = true := by simpa using hu
    have he : { s.pte d (va / pgsize) with w := true } =
        ⟨(s.pte d (va / pgsize)).frame, true, true, true⟩ := by
      have hpp : (s.pte d (va / pgsize)).p = true := by simpa using hp
      simp [hpp, huu]
    rw [he]
    refine ⟨h.reflag hup true true (fun _ => .inr h1), by simp, ?_, fun _ => ⟨by omega, ?_⟩,
      (Others.of_upage rfl).setPte hte _⟩
    · exact view_remap hup rfl huu hte rfl
    · rw [Vm.pte_setPte hte]
      simp
  · -- the page is shared: the process gets a copy
    have hup := hmapped hva hp
    refine wp_imp (kalloc_spec h) ?_
    rintro (_ | m) t ⟨hg, htab, hI⟩
    · exact ⟨hI, hg.quiet.killed⟩
    obtain ⟨hm, hI⟩ := hI
    have huu : (s.pte d (va / pgsize)).u = true := by simpa using hu
    simp only [wp_run, wp_addRef]
    have hcow := (hI.setMem m (t.mem (s.pte d (va / pgsize)).frame)).cow hm
      (show Vm.upage (t.setMem m _) d (va / pgsize) = some _ by
        rw [← hup, upage_congr (Vm.pte_setMem ..), hg.quiet.upage]) true true
    have hte : (((t.setMem m (t.mem (s.pte d (va / pgsize)).frame)).addRef
        (s.pte d (va / pgsize)).frame (-1)).addRef m 1).tab d (va / pgsize / nptentries) ≠ none := by
      rw [Vm.tab_addRef, Vm.tab_addRef, Vm.tab_setMem, htab]
      exact tab_of_upage hup
    refine ⟨hcow, ⟨?_, view_remap hup ?_ huu hte ?_, fun _ => ⟨by omega, ?_⟩,
      Others.setPte ?_ hte _⟩⟩
    · rw [Vm.live_setPte]
      exact hg.live
    · simp [Vm.setMem, hg.mem]
    · rw [view_addRef, view_addRef, view_setMem hI.upage_insert_ne, hg.quiet.view]
    · rw [Vm.pte_setPte hte]
      simp
    · exact .of_upage hg.quiet.upage
  · -- a mapped frame has a positive count
    have := h.refcount_pos (hmapped hva hp)
    omega
  · exact ⟨h, (Quiet.refl s).killed⟩

end Xv6

import Xv6Cow.Vm.Frames

/-!
# What the functions of `vm.c` do

For each function: it keeps `Inv`, it ends in no panic for a wrong reference count, and the user
memory (`Vm.view`) it leaves behind.  Callers use these lemmas and never unfold the functions.
-/

namespace Xv6

open Function Lts Prog

variable {A H L : Set ℕ} {s t : Vm} {d c i v f : ℕ} {b : Bool}

/-- The panic of `pagefault` that is to be excluded. -/
def wrongRefCount : String := "Pagefault due to wrong ref count"

/-- A panic other than the one for a wrong reference count. -/
def OtherPanic (e : String) (_ : Vm) : Prop := e ≠ wrongRefCount

variable {E : String → Vm → Prop}

@[simp] theorem wp_addRef {Q : Unit → Vm → Prop} (f : ℕ) (k : ℤ) :
    wp (addRef f k) Q E s = Q () (s.addRef f k) := rfl

/-! ## User memory -/

theorem view_congr (hp : t.pte = s.pte) (hm : t.mem = s.mem) : t.view = s.view := by
  funext d v
  simp only [Vm.view, hp, hm]

theorem view_eq_none_of_upage (h : s.upage d v = none) : s.view d v = none := by
  unfold Vm.upage at h
  unfold Vm.view
  split_ifs at h with hc
  rw [if_neg]
  exact fun h' => hc ⟨h'.1, h'.2.1⟩

theorem view_eq_of (hu : t.upage d v = s.upage d v)
    (h : ∀ f b, s.upage d v = some (f, b) → (t.pte d v).u = (s.pte d v).u ∧ t.mem f = s.mem f) :
    t.view d v = s.view d v := by
  rcases hs : s.upage d v with _ | fb
  · rw [view_eq_none_of_upage hs, view_eq_none_of_upage (hu.trans hs)]
  obtain ⟨hk, hp, hf, -⟩ := upage_eq_some hs
  obtain ⟨-, hp', hf', -⟩ := upage_eq_some (hu.trans hs)
  obtain ⟨h1, h2⟩ := h _ _ hs
  simp only [Vm.view, hk, hp, hp', hf, hf', h1, h2]

theorem view_setMem_apply (h : ∀ b, s.upage d v ≠ some (f, b)) (pg : Page) :
    (s.setMem f pg).view d v = s.view d v := by
  refine view_eq_of rfl fun g b hg => ⟨rfl, ?_⟩
  have hne : g ≠ f := fun e => h b (e ▸ hg)
  simp [Vm.setMem, update_of_ne hne]

theorem view_setMem_self (h : s.upage d v = some (f, b)) (pg : Page) :
    (s.setMem f pg).view d v = (s.view d v).map fun _ => pg := by
  obtain ⟨hk, hp, hf, -⟩ := upage_eq_some h
  show (if v < kernpage ∧ (s.pte d v).p = true ∧ (s.pte d v).u = true
    then some ((s.setMem f pg).mem (s.pte d v).frame) else none) = _
  by_cases hu : (s.pte d v).u = true
  · simp [Vm.view, hk, hp, hu, Vm.setMem, hf]
  · simp [Vm.view, hu]

theorem view_setMem (h : ∀ d v b, s.upage d v ≠ some (f, b)) (pg : Page) :
    (s.setMem f pg).view = s.view := by
  funext d v
  exact view_setMem_apply (h d v) pg

theorem view_freed (h : ∀ d v b, s.upage d v ≠ some (f, b)) : (s.freed f).view = s.view :=
  view_setMem h _

theorem view_setPte (h : s.tab d (v / nptentries) ≠ none) (e : Pte) (d' v' : ℕ) :
    (s.setPte d v e).view d' v' =
      if d' = d ∧ v' = v then
        if v < kernpage ∧ e.p = true ∧ e.u = true then some (s.mem e.frame) else none
      else s.view d' v' := by
  simp only [Vm.view, Vm.pte_setPte h, Vm.setPte_mem]
  split_ifs <;> simp_all

@[simp] theorem view_addRef (k : ℤ) : (s.addRef f k).view = s.view := rfl

/-- Only the free list and the page tables changed. -/
structure Grown (s t : Vm) : Prop where
  live : t.live = s.live
  pte : t.pte = s.pte
  mem : t.mem = s.mem
  refcount : t.refcount = s.refcount

/-- Directories, user mappings and user memory are what they were. -/
structure Quiet (s t : Vm) : Prop where
  live : t.live = s.live
  upage : t.upage = s.upage
  view : t.view = s.view

theorem Grown.trans {u : Vm} (h : Grown s t) (h' : Grown t u) : Grown s u :=
  ⟨h'.live.trans h.live, h'.pte.trans h.pte, h'.mem.trans h.mem, h'.refcount.trans h.refcount⟩

theorem Quiet.refl (s : Vm) : Quiet s s := ⟨rfl, rfl, rfl⟩

theorem Quiet.trans {u : Vm} (h : Quiet s t) (h' : Quiet t u) : Quiet s u :=
  ⟨h'.live.trans h.live, h'.upage.trans h.upage, h'.view.trans h.view⟩

theorem Grown.quiet (h : Grown s t) : Quiet s t :=
  ⟨h.live, upage_congr h.pte, view_congr h.pte h.mem⟩

theorem quiet_setKernPte (h : s.tab d (v / nptentries) ≠ none) (hv : kernpage ≤ v) (e : Pte) :
    Quiet s (s.setPte d v e) := by
  have hlt : ¬ v < kernpage := by omega
  refine ⟨by simp, ?_, ?_⟩
  · funext d' v'
    rw [upage_setPte h]
    split_ifs with hc
    · omega
    · obtain ⟨rfl, rfl⟩ := hc
      simp [Vm.upage, hlt]
    · rfl
  · funext d' v'
    rw [view_setPte h]
    split_ifs with hc
    · omega
    · obtain ⟨rfl, rfl⟩ := hc
      simp [Vm.view, hlt]
    · rfl

theorem Inv.only_mapping {d' v' : ℕ} {b' : Bool} (h : Inv A H L s)
    (hu : s.upage d v = some (f, b)) (h1 : s.refcount f = 1) (hu' : s.upage d' v' = some (f, b')) :
    d' = d ∧ v' = v := by
  have := h.wf.alone_of_cnt_one (u := Use.page d v) (v := Use.page d' v') counted_page hu h1 hu'
  simpa using this

/-! ## Counting directories -/

/-- The live page directories. -/
def Vm.dirs (s : Vm) : Set ℕ := {d | s.live d = true}

theorem Inv.finite_dirs (h : Inv A H L s) : s.dirs.Finite := by
  refine Set.Finite.of_finite_image (f := Use.dir) (h.wf.finite.subset ?_) ?_
  · rintro _ ⟨d, hd, rfl⟩
    have : s.live d = true := hd
    simp [Vm.pool, Vm.owner, this]
  · intro d _ d' _ e
    exact Use.dir.inj e

/-- The page directories that map user pages. -/
def Vm.userDirs (s : Vm) : Set ℕ := {d | ∃ v x, s.upage d v = some x}

/-- The directory of a mapping. -/
def Use.dirOf : Use → ℕ
  | .page d _ => d
  | _ => 0

theorem live_of_upage (h : s.upage d v = some (f, b)) : s.live d = true :=
  Vm.live_of_tab (tab_of_upage h)

/-- The count of a mapped frame is the number of directories that map it. -/
theorem Inv.refcount_eq (h : Inv A H L s) (hu : s.upage d v = some (f, b)) :
    s.refcount f = ({d | ∃ v b, s.upage d v = some (f, b)} : Set ℕ).ncard := by
  have hcnt : s.refcount f = ((Pool.holders Use.counted (s.owner H L) f).ncard : ℤ) := h.wf.cnt_eq f
  have hpage : ∀ u ∈ Pool.holders Use.counted (s.owner H L) f, ∃ d v b, u = .page d v ∧
      s.upage d v = some (f, b) := by
    rintro u ⟨hc, b', hb'⟩
    cases u with
    | page d' v' => exact ⟨d', v', b', rfl, hb'⟩
    | leaked g =>
      -- a leaked page is nobody else's
      obtain ⟨-, rfl⟩ := owner_leaked hb'
      have := h.wf.alone (u := Use.leaked g) (v := Use.page d v) hb' hu
      cases this
    | dir _ => exact hc.elim
    | table _ _ => exact hc.elim
    | held _ => exact hc.elim
  have himage : ({d | ∃ v b, s.upage d v = some (f, b)} : Set ℕ) =
      Use.dirOf '' Pool.holders Use.counted (s.owner H L) f := by
    ext d'
    constructor
    · rintro ⟨v', b', hd'⟩
      exact ⟨.page d' v', ⟨trivial, b', hd'⟩, rfl⟩
    · rintro ⟨u, hu, rfl⟩
      obtain ⟨d', v', b', rfl, hd'⟩ := hpage u hu
      exact ⟨v', b', hd'⟩
  rw [hcnt, himage, Set.InjOn.ncard_image]
  intro u hu u' hu' e
  obtain ⟨d1, v1, b1, rfl, h1⟩ := hpage u hu
  obtain ⟨d2, v2, b2, rfl, h2⟩ := hpage u' hu'
  obtain rfl : d1 = d2 := e
  rw [h.inj h1 h2]

theorem userDirs_subset_dirs (s : Vm) : s.userDirs ⊆ s.dirs := fun _ ⟨_, _, hu⟩ => live_of_upage hu

/-- A frame has room for a mapping by one more directory if not more than 127 map user pages
then. -/
theorem Inv.refcount_lt (h : Inv A H L s) (hu : s.upage d v = some (f, b))
    (hcf : ∀ v b, s.upage c v ≠ some (f, b)) (hn : (insert c s.userDirs).ncard ≤ 127) :
    s.refcount f < 127 := by
  have hle := (h.refcount_eq hu).le
  have hfin : (insert c s.userDirs).Finite :=
    (h.finite_dirs.subset (userDirs_subset_dirs s)).insert c
  have hsub : ({d | ∃ v b, s.upage d v = some (f, b)} : Set ℕ) ⊆ insert c s.userDirs \ {c} := by
    rintro d' ⟨v', b', hd'⟩
    refine ⟨.inr ⟨v', _, hd'⟩, ?_⟩
    rintro rfl
    exact hcf v' b' hd'
  have hcard := Set.ncard_le_ncard hsub (hfin.subset Set.sdiff_subset)
  rw [Set.ncard_sdiff_singleton_of_mem (Set.mem_insert ..)] at hcard
  have : 0 < (insert c s.userDirs).ncard := (Set.ncard_pos hfin).2 ⟨c, Set.mem_insert ..⟩
  omega

/-! ## Allocation and page tables -/

theorem Inv.hold (h : Inv A H L s) {fs : List ℕ} (hf : s.freelist = f :: fs) :
    f ∉ H ∧ Inv A (insert f H) L { s with freelist := fs } := by
  have hH : f ∉ H := fun hH =>
    h.wf.used (u := Use.held f) (f := f) (b := true) (by simp [Vm.pool, Vm.owner, hH])
      (by simp [Vm.pool, hf])
  refine ⟨hH, ?_, h.inj, h.small, h.bound, h.exact⟩
  obtain ⟨hwf, hloose⟩ := h.wf.pop (show (s.pool H L).free = f :: fs from hf)
  have := hwf.assign (u := Use.held f) hloose not_counted_held
  simp only [Vm.pool] at this ⊢
  rw [owner_hold, owner_congr (t := { s with freelist := fs }) (s := s) rfl rfl rfl]
  exact this

theorem kalloc_spec (h : Inv A H L s) : wp kalloc (fun r t => Grown s t ∧ t.tab = s.tab ∧
      match r with
      | none => Inv A H L t
      | some f => f ∉ H ∧ Inv A (insert f H) L t) OtherPanic s := by
  simp only [kalloc, wp_run]
  split_ifs
  · exact ⟨⟨rfl, rfl, rfl, rfl⟩, rfl, h.congr rfl rfl rfl rfl rfl rfl⟩
  cases hf : s.freelist with
  | nil => exact ⟨⟨rfl, rfl, rfl, rfl⟩, rfl, h.congr rfl rfl rfl (by simp [hf]) rfl rfl⟩
  | cons f fs =>
    obtain ⟨hH, hI⟩ := h.hold hf
    exact ⟨⟨rfl, rfl, rfl, rfl⟩, rfl, hH, hI.congr rfl rfl rfl rfl rfl rfl⟩

theorem walkpgdir_spec (h : Inv A H L s) (hd : s.live d = true) (hv : v < 2 ^ 20) (alloc : Bool) :
    wp (walkpgdir d v alloc) (fun r t => Inv A H L t ∧ Grown s t ∧
      (r = true → t.tab d (v / nptentries) ≠ none)) OtherPanic s := by
  simp only [walkpgdir, wp_run]
  cases ht : s.tab d (v / nptentries) with
  | some _ => exact ⟨h, ⟨rfl, rfl, rfl, rfl⟩, fun _ => by simp [ht]⟩
  | none =>
    cases alloc with
    | false => exact ⟨h, ⟨rfl, rfl, rfl, rfl⟩, fun hr => by cases hr⟩
    | true =>
      simp only [if_true, wp_bind]
      refine wp_imp (kalloc_spec h) ?_
      rintro (_ | f) t ⟨hg, htab, hI⟩
      · exact ⟨hI, hg, fun hr => by cases hr⟩
      obtain ⟨hf, hI⟩ := hI
      have hl : t.live d = true := by rw [hg.live, hd]
      have hn : t.tab d (v / nptentries) = none := by rw [htab, ht]
      have hi : v / nptentries < nptentries := by
        simp only [nptentries]
        omega
      refine ⟨hI.newTable hf hl hn hi, hg.trans ⟨by simp, ?_, rfl, rfl⟩, fun _ => ?_⟩
      · funext d' v'
        exact Vm.pte_newTab hn ..
      · simp [Vm.tab_setTab, hl]

theorem walkpgdir_false (s : Vm) (d v : ℕ) : walkpgdir d v false s =
    .ok (s.tab d (v / nptentries)).isSome s := by
  simp only [walkpgdir, bind, EStateM.bind, get, getThe, MonadStateOf.get, EStateM.get]
  cases s.tab d (v / nptentries) <;> rfl

@[simp] theorem wp_walkpgdir_false {Q : Bool → Vm → Prop} :
    wp (walkpgdir d v false) Q E s = Q (s.tab d (v / nptentries)).isSome s := by
  simp only [wp, walkpgdir_false]

theorem mapOne_spec (h : Inv A H L s) (hd : s.live d = true) (hv : v < 2 ^ 20) (w u : Bool) :
    wp (mappagesLoop d w u 0 v f) (fun r t' => ∃ t, Inv A H L t ∧ Grown s t ∧
      if r then t.tab d (v / nptentries) ≠ none ∧ (t.pte d v).p = false ∧
        t' = t.setPte d v ⟨f, true, w, u⟩
      else t' = t) OtherPanic s := by
  simp only [mappagesLoop, wp_bind]
  refine wp_imp (walkpgdir_spec h hd hv true) ?_
  rintro (_ | _) t ⟨hI, hg, htab⟩
  · exact ⟨t, hI, hg, rfl⟩
  simp only [wp_run]
  split_ifs with hp
  · simp [OtherPanic, wrongRefCount]
  · exact ⟨t, hI, hg, htab rfl, by simpa using hp, rfl⟩

theorem mappages_page (hv : v < 2 ^ 20) (w u : Bool) :
    mappages d (v * pgsize) pgsize (f * pgsize) w u = mappagesLoop d w u 0 v f := by
  have h1 : v * pgsize / pgsize = v := by simp [pgsize]
  have h2 : f * pgsize / pgsize = f := by simp [pgsize]
  have h3 : (v * pgsize + pgsize - 1) % word / pgsize = v := by
    simp only [pgsize, word]
    omega
  simp only [mappages, h1, h2, h3, Nat.sub_self]

theorem wp_mappagesLoop_succ {Q : Bool → Vm → Prop} (w u : Bool)
    (n : ℕ) : wp (mappagesLoop d w u (n + 1) v f) Q E s = wp (mappagesLoop d w u 0 v f) (fun r t =>
        if r then wp (mappagesLoop d w u n (v + 1) (f + 1)) Q E t else Q false t) E s := by
  rw [mappagesLoop, mappagesLoop]
  simp only [wp_run]

theorem mapKern_spec (w u : Bool) (n : ℕ) : ∀ {s : Vm} {v f : ℕ}, Inv A H L s → s.live d = true →
    kernpage ≤ v → v + n < 2 ^ 20 →
    wp (mappagesLoop d w u n v f) (fun _ t => Inv A H L t ∧ Quiet s t) OtherPanic s := by
  induction n with
  | zero =>
    intro s v f h hd hk hv
    refine wp_imp (mapOne_spec h hd (by omega) w u) ?_
    rintro (_ | _) t' ⟨t, hI, hg, ht⟩
    · obtain rfl := ht
      exact ⟨hI, hg.quiet⟩
    · obtain ⟨htab, -, rfl⟩ := ht
      exact ⟨hI.setKernPte hk _, hg.quiet.trans (quiet_setKernPte htab hk _)⟩
  | succ n ih =>
    intro s v f h hd hk hv
    rw [wp_mappagesLoop_succ]
    refine wp_imp (mapOne_spec h hd (by omega) w u) ?_
    rintro (_ | _) t' ⟨t, hI, hg, ht⟩
    · obtain rfl := ht
      exact ⟨hI, hg.quiet⟩
    obtain ⟨htab, -, rfl⟩ := ht
    have hq := hg.quiet.trans (quiet_setKernPte htab hk ⟨f, true, w, u⟩)
    refine wp_imp (ih (hI.setKernPte hk _) (by rw [hq.live, hd]) (by omega) (by omega)) ?_
    rintro r t2 ⟨hI2, hq2⟩
    exact ⟨hI2, hq.trans hq2⟩

/-! ## Freeing -/

/-- The effect of `deallocuvm` on the pages of `d` from `v` on, below address `sz`. -/
structure Shrunk (d v sz : ℕ) (s t : Vm) : Prop where
  live : t.live = s.live
  tabFrame : t.tabFrame = s.tabFrame
  page : ∀ d' v', (t.upage d' v' = s.upage d' v' ∧ t.view d' v' = s.view d' v') ∨
    (d' = d ∧ v ≤ v' ∧ v' * pgsize < sz ∧ t.upage d' v' = none ∧ t.view d' v' = none)

theorem Shrunk.refl (d v sz : ℕ) (s : Vm) : Shrunk d v sz s s :=
  ⟨rfl, rfl, fun _ _ => .inl ⟨rfl, rfl⟩⟩

theorem Shrunk.trans {v' sz : ℕ} {u : Vm} (h : Shrunk d v sz s t) (h' : Shrunk d v' sz t u)
    (hv : v ≤ v') : Shrunk d v sz s u := by
  refine ⟨h'.live.trans h.live, h'.tabFrame.trans h.tabFrame, fun d1 v1 => ?_⟩
  rcases h'.page d1 v1 with ⟨hu', hv'⟩ | ⟨hd, hle, hlt, hu', hv'⟩
  · rcases h.page d1 v1 with ⟨hu, hv⟩ | ⟨hd, hle, hlt, hu, hv⟩
    · exact .inl ⟨hu'.trans hu, hv'.trans hv⟩
    · exact .inr ⟨hd, hle, hlt, hu'.trans hu, hv'.trans hv⟩
  · exact .inr ⟨hd, hv.trans hle, hlt, hu', hv'⟩

/-- One page is unmapped: the states before and after the critical section and `*pte = 0`. -/
theorem shrunk_unmap {sz : ℕ} {s' : Vm} (ht : s.tab d (v / nptentries) ≠ none)
    (hlt : v * pgsize < sz) (htab : s'.tab = s.tab) (hlive : s'.live = s.live)
    (hview : ∀ d' v', ¬ (d' = d ∧ v' = v) → s'.view d' v' = s.view d' v') :
    Shrunk d v sz s (s'.setPte d v .zero) := by
  have ht' : s'.tab d (v / nptentries) ≠ none := by rwa [htab]
  refine ⟨by simp [hlive], by rw [Vm.tabFrame_setPte, Vm.tabFrame_congr htab], fun d' v' => ?_⟩
  rw [upage_clear ht', view_setPte ht', upage_congr (Vm.pte_congr htab)]
  by_cases hc : d' = d ∧ v' = v
  · obtain ⟨rfl, rfl⟩ := hc
    exact .inr ⟨rfl, le_rfl, hlt, by simp, by simp [Pte.zero]⟩
  · exact .inl ⟨by rw [if_neg hc], by rw [if_neg hc, hview _ _ hc]⟩

theorem upage_eq_none (h : (s.pte d v).p = false) : s.upage d v = none := by
  simp [Vm.upage, h]

theorem upage_of_tabFrame (h : s.tabFrame d (v / nptentries) = none) : s.upage d v = none := by
  have : s.tab d (v / nptentries) = none := by simpa [Vm.tabFrame] using h
  simp [Vm.upage, Vm.pte, this, Pte.zero]

theorem not_upage_of_not_live (h : s.live d = false) (v : ℕ) : s.upage d v = none := by
  refine upage_of_tabFrame ?_
  by_contra hc
  have := Vm.live_of_tab (s := s) (d := d) (i := v / nptentries) (by simpa [Vm.tabFrame] using hc)
  simp [h] at this

section Link

variable [Link]

theorem kfree_spec {Q : Unit → Vm → Prop} (h : Q () (s.freed f)) : wp (kfree f) Q OtherPanic s := by
  unfold kfree
  rw [wp_ite]
  split_ifs
  · simp [OtherPanic, wrongRefCount]
  · exact h

theorem deallocuvmLoop_spec {sz : ℕ} (hsz : sz ≤ kernbase) {s : Vm} {v : ℕ} (h : Inv A H L s) :
    wp (deallocuvmLoop d sz v) (fun _ t => Inv A H L t ∧ Shrunk d v sz s t ∧
      -- from the start of a page table, or within one that exists, no page is skipped
      ((v % nptentries = 0 ∨ s.tabFrame d (v / nptentries) ≠ none) →
        ∀ v', v ≤ v' → v' * pgsize < sz → t.upage d v' = none)) OtherPanic s := by
  rw [deallocuvmLoop]
  split_ifs with hlt
  · have hk : v < kernpage := by
      simp only [pgsize, kernbase, kernpage] at *
      omega
    simp only [wp_bind, wp_walkpgdir_false, wp_ite, wp_get, Option.isSome_iff_ne_none]
    by_cases ht : s.tab d (v / nptentries) = none
    · rw [if_neg (by simpa using ht)]
      refine wp_imp (deallocuvmLoop_spec hsz h) ?_
      rintro _ t ⟨hI, hS, hall⟩
      refine ⟨hI, (Shrunk.refl ..).trans hS (by omega), fun ha v' hle hlt' => ?_⟩
      have htf : s.tabFrame d (v / nptentries) = none := by simp [Vm.tabFrame, ht]
      have ha : v % nptentries = 0 := ha.resolve_right (by simp [htf])
      by_cases hv' : v' < v + nptentries
      · have hsame : v' / nptentries = v / nptentries := by
          simp only [nptentries] at *
          omega
        refine upage_of_tabFrame ?_
        rw [hS.tabFrame, hsame, htf]
      · refine hall (.inl ?_) v' ?_ hlt' <;> simp only [nptentries] at * <;> omega
    · have htf : s.tabFrame d (v / nptentries) ≠ none := by simpa [Vm.tabFrame] using ht
      -- once page `v` is gone, the rest of the loop does what is claimed from `v + 1` on
      have hrest : ∀ s1, Inv A H L s1 → Shrunk d v sz s s1 → s1.upage d v = none →
          wp (deallocuvmLoop d sz (v + 1)) (fun _ t => Inv A H L t ∧ Shrunk d v sz s t ∧
            ((v % nptentries = 0 ∨ s.tabFrame d (v / nptentries) ≠ none) →
              ∀ v', v ≤ v' → v' * pgsize < sz → t.upage d v' = none)) OtherPanic s1 := by
        intro s1 h₁ hS1 hn
        refine wp_imp (deallocuvmLoop_spec hsz h₁) ?_
        rintro _ t ⟨hI, hS, hall⟩
        refine ⟨hI, hS1.trans hS (by omega), fun _ v' hle hlt' => ?_⟩
        by_cases hv' : v' = v
        · subst hv'
          rcases hS.page d v' with ⟨hu, -⟩ | ⟨-, hle', -⟩
          · rw [hu, hn]
          · omega
        refine hall ?_ v' (by omega) hlt'
        by_cases ha : (v + 1) % nptentries = 0
        · exact .inl ha
        right
        have hsame : (v + 1) / nptentries = v / nptentries := by
          simp only [nptentries] at *
          omega
        rwa [hS1.tabFrame, hsame]
      rw [if_pos ht]
      by_cases hp : (s.pte d v).p = true
      · rw [if_pos hp]
        split_ifs with h0
        · simp [OtherPanic, wrongRefCount]
        have hu : s.upage d v = some ((s.pte d v).frame, (s.pte d v).w) := by
          simp [Vm.upage, hk, hp]
        have hpos := h.refcount_pos hu
        have hsmall := h.small (s.pte d v).frame
        have hdec : (s.addRef (s.pte d v).frame (-1)).refcount (s.pte d v).frame =
            s.refcount (s.pte d v).frame - 1 := by
          simp only [Vm.addRef, update_self]
          exact toChar_of_mem (by omega) (by omega)
        rw [wp_addRef]
        split_ifs with hz
        · refine kfree_spec ?_
          rw [wp_modify]
          have h1 : s.refcount (s.pte d v).frame = 1 := by omega
          refine hrest _ (h.unmapLast hu h1) (shrunk_unmap ht hlt rfl rfl fun d' v' hc => ?_) ?_
          · refine view_setMem_apply (s := s.addRef _ (-1)) (fun b' hb' => hc ?_) _
            exact h.only_mapping hu h1 hb'
          · rw [upage_clear (by exact ht)]
            simp
        · rw [wp_modify]
          refine hrest _ (h.unmap hu) (shrunk_unmap ht hlt rfl rfl fun _ _ _ => rfl) ?_
          rw [upage_clear (by exact ht)]
          simp
      · rw [if_neg hp]
        exact hrest s h (.refl ..) (upage_eq_none (by simpa using hp))
  · refine ⟨h, .refl .., fun _ v' hle hlt' => ?_⟩
    simp only [pgsize] at hlt hlt'
    omega
termination_by sz - v * pgsize
decreasing_by all_goals
  simp only [pgsize, nptentries] at hlt ⊢
  omega

theorem deallocuvm_spec {oldsz newsz : ℕ} (hsz : oldsz ≤ kernbase) (h : Inv A H L s) :
    wp (deallocuvm d oldsz newsz) (fun r t => r = min oldsz newsz ∧ Inv A H L t ∧
      Shrunk d (pgroundup (min oldsz newsz)) oldsz s t) OtherPanic s := by
  unfold deallocuvm
  rw [wp_ite]
  split_ifs with hle
  · exact ⟨by omega, h, .refl ..⟩
  rw [wp_bind]
  refine wp_imp (deallocuvmLoop_spec hsz h) ?_
  rintro _ t ⟨hI, hS, -⟩
  rw [Nat.min_eq_right (by omega)]
  exact ⟨rfl, hI, hS⟩

theorem freeTables_spec (n : ℕ) : ∀ {s : Vm} {i : ℕ}, Inv A H L s → (∀ v, s.upage d v = none) →
    wp (freeTables d n i) (fun _ t => Inv A H L t ∧ Quiet s t ∧
      ∀ j, t.tab d j = if i ≤ j ∧ j < i + n then none else s.tab d j) OtherPanic s := by
  induction n with
  | zero =>
    intro s i h _
    exact ⟨h, .refl s, fun j => by rw [if_neg (by omega)]⟩
  | succ n ih =>
    intro s i h hu
    simp only [freeTables, wp_run]
    cases ht : s.tab d i with
    | none =>
      refine wp_imp (ih h hu) ?_
      rintro _ t ⟨hI, hq, htab⟩
      refine ⟨hI, hq, fun j => ?_⟩
      rw [htab]
      by_cases hj : j = i
      · subst hj
        simp [ht]
      · have : (i + 1 ≤ j ∧ j < i + 1 + n) ↔ (i ≤ j ∧ j < i + (n + 1)) := by omega
        simp only [this]
    | some tb =>
      simp only [wp_bind]
      refine kfree_spec ?_
      rw [wp_modify]
      have hI := h.freeTable ht (fun v _ => hu v)
      have hl : s.live d = true := Vm.live_of_tab (i := i) (by simp [ht])
      have hup := upage_dropTab tb.frame (s := s) (i := i) (fun v _ => hu v)
      have hq : Quiet s ((s.freed tb.frame).setTab d i none) := by
        refine ⟨by simp, hup, ?_⟩
        funext d' v'
        refine view_eq_of (congrFun (congrFun hup d') v') fun g b hg => ?_
        have hd' : d' ≠ d := fun e => by simp [e, hu] at hg
        have hne : g ≠ tb.frame := by
          rintro rfl
          have := h.wf.alone (u := Use.table d i) (v := Use.page d' v')
            (by simp [Vm.pool, Vm.owner, Vm.tabFrame, ht]) hg
          cases this
        exact ⟨by simp [Vm.pte_dropTab, hd'], by simp [Vm.freed, Vm.setMem, hne]⟩
      refine wp_imp (ih hI (by simpa only [hq.upage] using hu)) ?_
      rintro _ t ⟨hI2, hq2, htab⟩
      refine ⟨hI2, hq.trans hq2, fun j => ?_⟩
      rw [htab, Vm.tab_setTab]
      by_cases hj : j = i
      · subst hj
        simp [hl]
      · have : (i + 1 ≤ j ∧ j < i + 1 + n) ↔ (i ≤ j ∧ j < i + (n + 1)) := by omega
        simp only [this, hj, false_and, and_false, if_false]
        rfl

/-- Directory `d` is gone; the pages of the others are what they were. -/
structure Freed (d : ℕ) (s t : Vm) : Prop where
  live : t.live = update s.live d false
  page : ∀ d' v', d' ≠ d → t.upage d' v' = s.upage d' v' ∧ t.view d' v' = s.view d' v'

theorem freevm_spec (h : Inv A H L s) (hd : s.live d = true) :
    wp (freevm d) (fun _ t => Inv A H L t ∧ Freed d s t) OtherPanic s := by
  have hround : pgroundup 0 = 0 := by decide
  have hkern : ¬ kernbase ≤ 0 := by decide
  simp only [freevm, deallocuvm, hround, hkern, wp_bind, if_false, wp_pure]
  refine wp_imp (deallocuvmLoop_spec le_rfl h) ?_
  rintro _ t1 ⟨h1, hS, hall⟩
  have hnone : ∀ v, t1.upage d v = none := by
    intro v
    by_cases hv : v < kernpage
    · refine hall (.inl (by decide)) v (Nat.zero_le v) ?_
      simp only [pgsize, kernbase, kernpage] at *
      omega
    · simp [Vm.upage, hv]
  refine wp_imp (freeTables_spec nptentries h1 hnone) ?_
  rintro _ t2 ⟨h2, hq, htab⟩
  have htab2 : ∀ i, t2.tab d i = none := by
    intro i
    rw [htab]
    split_ifs with hi
    · rfl
    · have := h1.bound d i (by omega)
      simpa [Vm.tabFrame] using this
  have hl2 : t2.live d = true := by rw [hq.live, hS.live, hd]
  refine kfree_spec ?_
  rw [wp_modify]
  have htab3 : ((t2.freed d).setDir d none).tab = t2.tab :=
    Vm.tab_setDir (s := t2.freed d) htab2 (fun E hE => by cases hE)
  have hup := upage_congr (Vm.pte_congr htab3)
  have hmap : ∀ d' v' b, t2.upage d' v' ≠ some (d, b) := by
    intro d' v' b hu
    have := h2.wf.alone (u := Use.dir d) (v := Use.page d' v') (by simp [Vm.pool, Vm.owner, hl2]) hu
    cases this
  have hview : ((t2.freed d).setDir d none).view = t2.view := by
    rw [← view_freed hmap]
    exact view_congr (Vm.pte_congr htab3) rfl
  refine ⟨h2.freeDir hl2 htab2, ⟨?_, fun d' v' hd' => ?_⟩⟩
  · funext d'
    rw [Vm.live_setDir, Vm.live_freed, hq.live, hS.live, update_apply]
    rfl
  rw [hup, hview, hq.upage, hq.view]
  rcases hS.page d' v' with hp | ⟨e, -⟩
  · exact hp
  · exact absurd e hd'

/-! ## The kernel half -/

/-- The first and the last page of a row of `kmap`. -/
def Kmap.first (k : Kmap) : ℕ := k.virt / pgsize

def Kmap.last (k : Kmap) : ℕ :=
  (k.virt + (k.physEnd + word - k.physStart) % word - 1) % word / pgsize

omit [Link] in
theorem mappages_row (k : Kmap) :
    mappages d k.virt ((k.physEnd + word - k.physStart) % word) k.physStart k.w false =
      mappagesLoop d k.w false (k.last - k.first) k.first (k.physStart / pgsize) := rfl

/-- The row lies in the kernel half. -/
def Kmap.High (k : Kmap) : Prop := kernpage ≤ k.first ∧ k.first ≤ k.last

theorem kmap_high : ∀ k ∈ kmap, k.High := by
  have h1 := Link.kernlink_lt_data
  have h2 := Link.data_lt
  simp only [kmap, List.mem_cons, List.not_mem_nil, or_false, forall_eq_or_imp, forall_eq]
  simp only [Kmap.High, Kmap.first, Kmap.last, kernlink, kernbase, extmem, phystop, devspace, v2p,
    pgsize, word, kernpage] at *
  omega

omit [Link] in
theorem mapRow_spec {k : Kmap} (hk : k.High) (h : Inv A H L s) (hd : s.live d = true) :
    wp (mappagesLoop d k.w false (k.last - k.first) k.first (k.physStart / pgsize))
      (fun _ t => Inv A H L t ∧ Quiet s t) OtherPanic s := by
  refine mapKern_spec _ _ _ h hd hk.1 ?_
  have h1 := hk.2
  have h2 : k.last < 2 ^ 20 := by
    simp only [Kmap.last, pgsize, word]
    omega
  omega

/-- A new directory: its frame was not a directory before, and nothing else changed. -/
structure Made (d : ℕ) (s t : Vm) : Prop where
  fresh : s.live d = false
  live : t.live = update s.live d true
  upage : t.upage = s.upage
  view : t.view = s.view

theorem setupkvmLoop_spec (ks : List Kmap) (hks : ∀ k ∈ ks, k.High) : ∀ {s1 : Vm},
    Inv A H L s1 → Made d s s1 →
    wp (setupkvmLoop d ks) (fun r t => Inv A H L t ∧
      match r with
      | none => Quiet s t
      | some c => c = d ∧ Made d s t) OtherPanic s1 := by
  induction ks with
  | nil =>
    intro s1 h hm
    exact ⟨h, rfl, hm⟩
  | cons k ks ih =>
    intro s1 h hm
    have hl : s1.live d = true := by simp [hm.live]
    simp only [setupkvmLoop, wp_bind, mappages_row]
    refine wp_imp (mapRow_spec (hks k (by simp)) h hl) ?_
    rintro r t ⟨hI, hq⟩
    have hm' : Made d s t := ⟨hm.fresh, hq.live.trans hm.live, hq.upage.trans hm.upage,
      hq.view.trans hm.view⟩
    cases r with
    | true =>
      simp only [if_true]
      exact ih (fun k' hk' => hks k' (by simp [hk'])) hI hm'
    | false =>
      simp only [wp_run]
      refine wp_imp (freevm_spec hI (by simp [hm'.live])) ?_
      rintro _ t2 ⟨hI2, hf⟩
      have hl2 : t2.live = s.live := by
        rw [hf.live, hm'.live, update_idem, ← hm.fresh, update_eq_self]
      have hnone : ∀ v, t2.upage d v = none := not_upage_of_not_live (by rw [hl2, hm.fresh])
      have hnone' : ∀ v, s.upage d v = none := not_upage_of_not_live hm.fresh
      refine ⟨hI2, hl2, ?_, ?_⟩ <;> funext d' v'
      · by_cases hd : d' = d
        · rw [hd, hnone, hnone']
        · rw [(hf.page d' v' hd).1, hm'.upage]
      · by_cases hd : d' = d
        · rw [hd, view_eq_none_of_upage (hnone v'), view_eq_none_of_upage (hnone' v')]
        · rw [(hf.page d' v' hd).2, hm'.view]

theorem setupkvm_spec (h : Inv A H L s) : wp setupkvm (fun r t => Inv A H L t ∧
      match r with
      | none => Quiet s t
      | some d => Made d s t) OtherPanic s := by
  have hdev : ¬ devspace < kernbase + phystop := by decide
  simp only [setupkvm, wp_bind]
  refine wp_imp (kalloc_spec h) ?_
  rintro (_ | d) t ⟨hg, htab, hI⟩
  · exact ⟨hI, hg.quiet⟩
  obtain ⟨hd, hI⟩ := hI
  have hfresh : t.live d = false := hI.not_live_of_held (Set.mem_insert d H)
  have htab' : (t.setDir d (some fun _ => none)).tab = t.tab := by
    refine Vm.tab_setDir (fun i => ?_) (fun E hE i => ?_)
    · by_contra hc
      simp [Vm.live_of_tab hc] at hfresh
    · obtain rfl := Option.some.inj hE
      rfl
  have hp := Vm.pte_congr htab'
  have hm : Made d s (t.setDir d (some fun _ => none)) := by
    refine ⟨by rw [← hg.live, hfresh], ?_, ?_, ?_⟩
    · funext d'
      rw [Vm.live_setDir, hg.live, update_apply]
      rfl
    · rw [upage_congr hp, upage_congr hg.pte]
    · exact (view_congr hp rfl).trans (view_congr hg.pte hg.mem)
  simp only [wp_run, hdev]
  refine wp_imp (setupkvmLoop_spec kmap kmap_high (hI.newDir hd) hm) ?_
  rintro (_ | c) t2 ⟨hI2, hr⟩
  · exact ⟨hI2, hr⟩
  · obtain ⟨rfl, hr⟩ := hr
    exact ⟨hI2, hr⟩

end Link

end Xv6

import Xv6Cow.Vm.Dealloc

/-!
# What `allocuvm` does, from any state

Which pages `allocuvm` maps is decided by the page tables that exist, by the number of free pages
and by which calls of `kalloc` fail: `fill` computes it from these alone.  A page whose page table
is refused is not mapped, and its frame is counted and lost.
-/

namespace Xv6

open Function Lts Prog

variable {s t : Vm} {d v f i : ℕ}

/-! ## What the allocator will give -/

/-- The number of free pages, and which calls fail anyway. -/
structure Supply where
  free : ℕ
  oom : List Bool

/-- The next call of `kalloc` succeeds. -/
def Supply.grants (q : Supply) : Bool := !(q.oom.head? == some true) && decide (0 < q.free)

/-- What is left after the next call. -/
def Supply.next (q : Supply) : Supply := ⟨if q.grants then q.free - 1 else q.free, q.oom.tail⟩

def Vm.supply (s : Vm) : Supply := ⟨s.freelist.length, s.oom⟩

theorem kalloc_supply {E : String → Vm → Prop} :
    wp kalloc (fun r t => t.pgdir = s.pgdir ∧ t.refcount = s.refcount ∧ t.mem = s.mem ∧
      t.supply = s.supply.next ∧
      match r with
      | none => s.supply.grants = false ∧ t.freelist = s.freelist
      | some f => s.supply.grants = true ∧ s.freelist = f :: t.freelist) E s := by
  simp only [kalloc, wp_run]
  split_ifs with hoom
  · have hgrants : s.supply.grants = false := by simp [Supply.grants, Vm.supply, hoom]
    refine ⟨trivial, trivial, trivial, ?_, hgrants, trivial⟩
    rw [Supply.next, hgrants]
    rfl
  cases hfree : s.freelist with
  | nil =>
    have hgrants : s.supply.grants = false := by simp [Supply.grants, Vm.supply, hfree]
    refine ⟨rfl, rfl, rfl, ?_, hgrants, rfl⟩
    rw [Supply.next, hgrants]
    simp [Vm.supply, hfree]
  | cons f fs =>
    have hgrants : s.supply.grants = true := by simp [Supply.grants, Vm.supply, hfree, hoom]
    refine ⟨rfl, rfl, rfl, ?_, hgrants, rfl⟩
    rw [Supply.next, hgrants]
    simp [Vm.supply, hfree]

/-- The pages that are mapped, those whose page table is refused, whether all pages got a frame, and
the page tables there are in the end. -/
structure Fill where
  mapped : List ℕ
  refused : List ℕ
  complete : Bool
  tab : ℕ → Bool

/-- Fill the `n` pages from `v` on. -/
def fill (tab : ℕ → Bool) (q : Supply) : (n v : ℕ) → Fill
  | 0, _ => ⟨[], [], true, tab⟩
  | n + 1, v =>
    if q.grants then
      if tab (v / nptentries) then
        let F := fill tab q.next n (v + 1)
        { F with mapped := v :: F.mapped }
      else if q.next.grants then
        let F := fill (update tab (v / nptentries) true) q.next.next n (v + 1)
        { F with mapped := v :: F.mapped }
      else
        let F := fill tab q.next.next n (v + 1)
        { F with refused := v :: F.refused }
    else ⟨[], [], false, tab⟩

/-- Every page that got a frame is mapped or refused, and they are the first ones. -/
theorem mem_fill (n : ℕ) : ∀ {tab : ℕ → Bool} {q : Supply} {v v' : ℕ},
    (v' ∈ (fill tab q n v).mapped ∨ v' ∈ (fill tab q n v).refused) → v ≤ v' ∧ v' < v + n := by
  induction n with
  | zero => simp [fill]
  | succ n ih =>
    intro tab q v v' hmem
    rw [fill] at hmem
    split_ifs at hmem
    · rw [List.mem_cons, or_assoc] at hmem
      rcases hmem with rfl | hmem
      · omega
      · have := ih hmem
        omega
    · rw [List.mem_cons, or_assoc] at hmem
      rcases hmem with rfl | hmem
      · omega
      · have := ih hmem
        omega
    · rw [List.mem_cons, or_left_comm] at hmem
      rcases hmem with rfl | hmem
      · omega
      · have := ih hmem
        omega
    · simp at hmem

theorem disjoint_fill (n : ℕ) : ∀ {tab : ℕ → Bool} {q : Supply} {v : ℕ},
    (∀ v' ∈ (fill tab q n v).mapped, v' ∉ (fill tab q n v).refused) ∧
    (v ∈ (fill tab q n v).mapped ∨ v ∈ (fill tab q n v).refused ∨
      (fill tab q n v).mapped = [] ∧ (fill tab q n v).refused = []) := by
  induction n with
  | zero => simp [fill]
  | succ n ih =>
    intro tab q v
    have hfirst : ∀ {tab : ℕ → Bool} {q : Supply}, v ∉ (fill tab q n (v + 1)).mapped ∧
        v ∉ (fill tab q n (v + 1)).refused := fun {tab q} =>
      ⟨fun hmem => by have := mem_fill n (.inl hmem); omega, fun hmem => by have := mem_fill n (.inr hmem); omega⟩
    rw [fill]
    split_ifs
    · refine ⟨fun v' hv' => ?_, .inl List.mem_cons_self⟩
      rcases List.mem_cons.1 hv' with rfl | hmem
      · exact hfirst.2
      · exact ih.1 v' hmem
    · refine ⟨fun v' hv' => ?_, .inl List.mem_cons_self⟩
      rcases List.mem_cons.1 hv' with rfl | hmem
      · exact hfirst.2
      · exact ih.1 v' hmem
    · refine ⟨fun v' hv' hmem => ?_, .inr (.inl List.mem_cons_self)⟩
      rcases List.mem_cons.1 hmem with rfl | hmem
      · exact hfirst.1 hv'
      · exact ih.1 v' hv' hmem
    · exact ⟨nofun, .inr (.inr ⟨rfl, rfl⟩)⟩

/-- If all pages got a frame and no page table was refused, all pages are mapped. -/
theorem mapped_of_complete (n : ℕ) : ∀ {tab : ℕ → Bool} {q : Supply} {v : ℕ},
    (fill tab q n v).complete = true → (fill tab q n v).refused = [] →
    (fill tab q n v).mapped = List.range' v n := by
  induction n with
  | zero => simp [fill]
  | succ n ih =>
    intro tab q v hcomplete hrefused
    rw [fill] at hcomplete hrefused ⊢
    split_ifs at hcomplete hrefused ⊢
    · rw [List.range'_succ, ← ih hcomplete hrefused]
    · rw [List.range'_succ, ← ih hcomplete hrefused]

theorem tab_fill (n : ℕ) : ∀ {tab : ℕ → Bool} {q : Supply} {v : ℕ},
    (∀ i, tab i = true → (fill tab q n v).tab i = true) ∧
    ∀ v' ∈ (fill tab q n v).mapped, (fill tab q n v).tab (v' / nptentries) = true := by
  induction n with
  | zero => simp [fill]
  | succ n ih =>
    intro tab q v
    rw [fill]
    split_ifs with hq htab hq'
    · refine ⟨ih.1, fun v' hv' => ?_⟩
      rcases List.mem_cons.1 hv' with rfl | hmem
      · exact ih.1 _ htab
      · exact ih.2 v' hmem
    · have hnew : ∀ i, tab i = true → update tab (v / nptentries) true i = true := fun i hi => by
        rw [update_apply]
        split_ifs
        · rfl
        · exact hi
      refine ⟨fun i hi => ih.1 i (hnew i hi), fun v' hv' => ?_⟩
      rcases List.mem_cons.1 hv' with rfl | hmem
      · exact ih.1 _ (update_self ..)
      · exact ih.2 v' hmem
    · exact ih
    · simp

/-- With two free pages for each page nothing is refused. -/
theorem fill_granted (n : ℕ) : ∀ {tab : ℕ → Bool} {q : Supply} {v : ℕ}, q.oom = [] → 2 * n ≤ q.free →
    (fill tab q n v).complete = true ∧ (fill tab q n v).refused = [] := by
  induction n with
  | zero => exact fun _ _ => ⟨rfl, rfl⟩
  | succ n ih =>
    intro tab q v hoom hfree
    have hgrants : ∀ {q : Supply}, q.oom = [] → 0 < q.free → q.grants = true := by
      intro q hoom hpos
      simp [Supply.grants, hoom, hpos]
    have hg := hgrants hoom (by omega)
    have hnext : q.next = ⟨q.free - 1, []⟩ := by
      rw [Supply.next, if_pos hg, hoom]
      rfl
    have hg' : q.next.grants = true := hgrants (by rw [hnext]) (by rw [hnext]; simp only; omega)
    have hnext' : q.next.next = ⟨q.free - 1 - 1, []⟩ := by
      rw [Supply.next, if_pos hg', hnext]
      rfl
    rw [fill, if_pos hg, if_pos hg']
    split_ifs
    · exact ih (by rw [hnext]) (by rw [hnext]; simp only; omega)
    · exact ih (by rw [hnext']) (by rw [hnext']; simp only; omega)

/-! ## The loop -/

/-- The loop of `allocuvm` up to the first page that `kalloc` refuses. -/
def fillLoop (d newsz v : ℕ) : M Bool :=
  if v * pgsize < newsz then do
    match ← kalloc with
    | none => pure false
    | some f => do
      modify fun s => s.setMem f fun _ => 0
      let _ ← mappages d (v * pgsize) pgsize (f * pgsize) true true
      addRef f 1
      fillLoop d newsz (v + 1)
  else pure true
termination_by newsz - v * pgsize
decreasing_by
  simp only [pgsize] at *
  omega

variable {oldsz newsz : ℕ}

theorem wp_allocuvmLoop [Link] {Q : ℕ → Vm → Prop} {E : String → Vm → Prop} {s : Vm} {v : ℕ} :
    wp (allocuvmLoop d oldsz newsz v) Q E s = wp (fillLoop d newsz v) (fun r t =>
      if r then Q newsz t else wp (deallocuvm d newsz oldsz) (fun _ u => Q 0 u) E t) E s := by
  rw [allocuvmLoop, fillLoop]
  split_ifs with hlt
  · simp only [wp_bind]
    congr 1
    funext r t
    rcases r with _ | f
    · simp only [wp_run]
    simp only [wp_run, wp_addRef]
    congr 1
    funext _ t'
    exact wp_allocuvmLoop
  · simp only [wp_pure, if_true]
termination_by newsz - v * pgsize
decreasing_by
  simp only [pgsize] at *
  omega

/-- The free pages are counted zero, and none is twice on the list. -/
structure Fresh (s : Vm) : Prop where
  nodup : s.freelist.Nodup
  zero : ∀ f ∈ s.freelist, s.refcount f = 0

/-- A page that is not mapped gets mapped if its page table exists or is granted. -/
theorem mapOne_supply (hd : s.live d = true) (w u : Bool) (hp : (s.pte d v).p = false) :
    wp (mappagesLoop d w u 0 v f) (fun r t => t.mem = s.mem ∧ t.freelist <:+ s.freelist ∧
      r = (s.hasTab d (v / nptentries) || s.supply.grants) ∧
      t.supply = (if s.hasTab d (v / nptentries) then s.supply else s.supply.next) ∧
      t.hasTab d = if r then update (s.hasTab d) (v / nptentries) true else s.hasTab d) NoPanic s := by
  have hpgdir : ∀ {t : Vm}, t.pgdir = s.pgdir → t.tab = s.tab := fun h =>
    funext fun y => tab_of_pgdir (congrFun h y)
  simp only [mappagesLoop, walkpgdir, wp_run]
  cases htab : s.tab d (v / nptentries) with
  | some tb =>
    have hhas : s.hasTab d (v / nptentries) = true := (hasTab_iff ..).2 (by simp [htab])
    simp only [wp_run, hp]
    refine ⟨Vm.setPte_mem .., ?_, by rw [hhas]; rfl, ?_, ?_⟩
    · rw [Vm.setPte_freelist]
    · rw [hhas, if_pos rfl, Vm.supply, Vm.setPte_freelist, Vm.setPte_oom]
      rfl
    · rw [← hhas, update_eq_self]
      unfold Vm.hasTab
      rw [Vm.tabFrame_setPte]
  | none =>
    have hhas : s.hasTab d (v / nptentries) = false := by
      rw [← Bool.not_eq_true, hasTab_iff, htab]
      simp
    simp only [wp_bind, hhas, Bool.false_or, Bool.false_eq_true, if_false]
    refine wp_imp kalloc_supply ?_
    rintro (_ | g) t ⟨hdir, -, hmem, hsup, hgrants, hfree⟩
    · simp only [wp_pure, Bool.false_eq_true, if_false]
      refine ⟨hmem, by rw [hfree], hgrants.symm, hsup, ?_⟩
      unfold Vm.hasTab
      rw [Vm.tabFrame_congr (hpgdir hdir)]
    have hd' : t.live d = true := by
      rw [Vm.live, hdir]
      exact hd
    have hnone : t.tab d (v / nptentries) = none := by rw [hpgdir hdir, htab]
    have hp' : ((t.setTab d (v / nptentries) (some ⟨g, fun _ => .zero⟩)).pte d v).p = false := by
      rw [Vm.pte_newTab hnone, Vm.pte_congr (hpgdir hdir), hp]
    simp only [wp_run, hp']
    refine ⟨?_, ?_, hgrants.symm, ?_, ?_⟩
    · rw [Vm.setPte_mem]
      exact hmem
    · rw [Vm.setPte_freelist, hfree]
      exact List.suffix_cons ..
    · rw [← hsup, Vm.supply, Vm.setPte_freelist, Vm.setPte_oom]
      rfl
    · funext j
      rw [Vm.hasTab, Vm.tabFrame_setPte, Vm.tabFrame, Vm.tab_setTab, update_apply, hpgdir hdir]
      simp only [hd', true_and, and_true]
      split_ifs <;> rfl

/-- The state after the loop: the mapped pages have the frames `g`, and the frames `lost` are counted
but mapped nowhere. -/
structure Filled (d : ℕ) (F : Fill) (g : ℕ → ℕ) (lost : List ℕ) (s t : Vm) : Prop where
  pte : ∀ d' v', t.pte d' v' = if d' = d ∧ v' ∈ F.mapped then ⟨g v', true, true, true⟩ else s.pte d' v'
  hasTab : t.hasTab d = F.tab
  live : t.live = s.live
  perm : (F.mapped.map g ++ lost ++ (t.tables d ++ t.freelist)).Perm (s.tables d ++ s.freelist)
  taken : ∀ f ∈ F.mapped.map g ++ lost ++ t.freelist, f ∈ s.freelist
  nodup : (F.mapped.map g ++ lost ++ t.freelist).Nodup
  lost_length : lost.length = F.refused.length
  refcount : ∀ f, t.refcount f = if f ∈ F.mapped.map g ++ lost then 1 else s.refcount f
  zeroed : ∀ f ∈ F.mapped.map g, t.mem f = fun _ => 0
  mem : ∀ f, f ∉ s.freelist → t.mem f = s.mem f

/-- One page: it got frame `f`, and it is mapped unless its page table was refused. -/
structure FilledPage (d v f : ℕ) (r : Bool) (s t : Vm) : Prop where
  pte : ∀ d' v', t.pte d' v' = if d' = d ∧ v' = v ∧ r = true then ⟨f, true, true, true⟩ else s.pte d' v'
  live : t.live = s.live
  perm : (f :: (t.tables d ++ t.freelist)).Perm (s.tables d ++ s.freelist)
  taken : ∀ x ∈ f :: t.freelist, x ∈ s.freelist
  nodup : (f :: t.freelist).Nodup
  refcount : ∀ x, t.refcount x = if x = f then 1 else s.refcount x
  zeroed : t.mem f = fun _ => 0
  mem : ∀ x, x ≠ f → t.mem x = s.mem x

theorem FilledPage.fresh {r : Bool} (h : FilledPage d v f r s t) (hs : Fresh s) : Fresh t := by
  obtain ⟨hf, hnodup⟩ := List.nodup_cons.1 h.nodup
  refine ⟨hnodup, fun x hx => ?_⟩
  have hne : x ≠ f := fun heq => hf (heq ▸ hx)
  rw [h.refcount, if_neg hne]
  exact hs.zero x (h.taken x (List.mem_cons_of_mem _ hx))

variable {lost : List ℕ} {g : ℕ → ℕ} {F : Fill}

theorem FilledPage.trans {u : Vm} {r : Bool} (h : FilledPage d v f r s t)
    (h' : Filled d F g lost t u) (taken : List ℕ)
    (htaken : taken.Perm (f :: (F.mapped.map g ++ lost))) :
    (taken ++ (u.tables d ++ u.freelist)).Perm (s.tables d ++ s.freelist) ∧
    (∀ x ∈ taken ++ u.freelist, x ∈ s.freelist) ∧ (taken ++ u.freelist).Nodup ∧
    (∀ x, u.refcount x = if x ∈ taken then 1 else s.refcount x) ∧ u.mem f = (fun _ => 0) ∧
    ∀ x, x ∉ s.freelist → u.mem x = s.mem x := by
  obtain ⟨hf, hnodup⟩ := List.nodup_cons.1 h.nodup
  refine ⟨?_, fun x hx => ?_, ?_, fun x => ?_, ?_, fun x hx => ?_⟩
  · exact ((htaken.append_right _).trans (h'.perm.cons f)).trans h.perm
  · rcases List.mem_cons.1 ((htaken.append_right _).mem_iff.1 hx) with rfl | hx
    · exact h.taken _ List.mem_cons_self
    · exact h.taken x (List.mem_cons_of_mem _ (h'.taken x hx))
  · refine (htaken.append_right _).nodup_iff.2 (List.nodup_cons.2 ⟨fun hx => ?_, h'.nodup⟩)
    exact hf (h'.taken f hx)
  · rw [h'.refcount, h.refcount]
    simp only [htaken.mem_iff, List.mem_cons]
    by_cases hxf : x = f
    · simp [hxf]
    · simp [hxf]
  · rw [h'.mem f hf, h.zeroed]
  · have hxt : x ∉ t.freelist := fun hmem => hx (h.taken x (List.mem_cons_of_mem _ hmem))
    have hxf : x ≠ f := fun heq => hx (h.taken x (heq ▸ List.mem_cons_self))
    rw [h'.mem x hxt, h.mem x hxf]

theorem FilledPage.mapped {u : Vm} (h : FilledPage d v f true s t)
    (h' : Filled d F g lost t u) (hv : v ∉ F.mapped) :
    Filled d { F with mapped := v :: F.mapped } (update g v f) lost s u := by
  have hg : ∀ v' ∈ F.mapped, update g v f v' = g v' := fun v' hv' => by
    have hne : v' ≠ v := fun heq => hv (heq ▸ hv')
    exact update_of_ne hne _ _
  have hmap : (v :: F.mapped).map (update g v f) = f :: F.mapped.map g := by
    rw [List.map_cons, update_self, List.map_congr_left hg]
  obtain ⟨hperm, htaken, hnodup, href, hzero, hmem⟩ :=
    h.trans h' ((v :: F.mapped).map (update g v f) ++ lost) (by rw [hmap]; exact .rfl)
  refine ⟨fun d' v' => ?_, h'.hasTab, h'.live.trans h.live, hperm, htaken, hnodup, h'.lost_length, href,
    fun x hx => ?_, hmem⟩
  · rw [h'.pte, h.pte]
    by_cases hmem' : v' ∈ F.mapped
    · have hne : v' ≠ v := fun heq => hv (heq ▸ hmem')
      simp [hmem', hne]
    by_cases heq : v' = v
    · subst heq
      simp [hmem']
    · simp [hmem', heq]
  · rw [hmap] at hx
    rcases List.mem_cons.1 hx with rfl | hx
    · exact hzero
    · exact h'.zeroed x hx

theorem FilledPage.refused {u : Vm} (h : FilledPage d v f false s t)
    (h' : Filled d F g lost t u) : Filled d { F with refused := v :: F.refused } g (f :: lost) s u := by
  obtain ⟨hperm, htaken, hnodup, href, -, hmem⟩ :=
    h.trans h' (F.mapped.map g ++ f :: lost) List.perm_middle
  refine ⟨fun d' v' => ?_, h'.hasTab, h'.live.trans h.live, hperm, htaken, hnodup, ?_, href,
    h'.zeroed, hmem⟩
  · rw [h'.pte, h.pte]
    simp
  · rw [List.length_cons, List.length_cons, h'.lost_length]

theorem fillPage_spec (hs : Fresh s) (hd : s.live d = true) (hv : v < kernpage)
    (hp : (s.pte d v).p = false)
    {fs : List ℕ} (hfree : s.freelist = f :: fs) (hdir : t.pgdir = s.pgdir)
      (href : t.refcount = s.refcount)
    (hmem : t.mem = s.mem) (hfs : t.freelist = fs) :
    wp (mappages d (v * pgsize) pgsize (f * pgsize) true true) (fun r u =>
      FilledPage d v f r s (u.addRef f 1) ∧ r = (t.hasTab d (v / nptentries) || t.supply.grants) ∧
      u.supply = (if t.hasTab d (v / nptentries) then t.supply else t.supply.next) ∧
      u.hasTab d = if r then update (t.hasTab d) (v / nptentries) true else t.hasTab d) NoPanic
      (t.setMem f fun _ => 0) := by
  have htab : t.tab = s.tab := funext fun y => tab_of_pgdir (congrFun hdir y)
  have hlive : t.live = s.live := by
    funext y
    rw [Vm.live, Vm.live, hdir]
  have hpte : t.pte = s.pte := Vm.pte_congr htab
  have htables : t.tables d = s.tables d := by
    rw [Vm.tables, Vm.tabFrame_congr htab]
    rfl
  have hv' : v < 2 ^ 20 := by
    simp only [kernpage] at hv
    omega
  have hd' : (t.setMem f fun _ => 0).live d = true := by
    rw [Vm.live_setMem, hlive, hd]
  have hp' : ((t.setMem f fun _ => 0).pte d v).p = false := by
    rw [Vm.pte_setMem, hpte, hp]
  obtain ⟨hf, hnodup⟩ : f ∉ fs ∧ fs.Nodup := List.nodup_cons.1 (hfree ▸ hs.nodup)
  rw [mappages_page hv']
  refine wp_mono (wp_and (mapOne_books true true hd' hv' hp') (mapOne_supply hd' true true hp')) ?_
    (fun _ _ h => h.1)
  rintro r u ⟨⟨hb, hpte'⟩, hmem', hsuf, hr, hsup, hhas⟩
  have hsub : ∀ x ∈ u.freelist, x ∈ fs := fun x hx => hfs ▸ hsuf.subset hx
  refine ⟨⟨fun d' v' => ?_, ?_, ?_, fun x hx => ?_, ?_, fun x => ?_, ?_, fun x hx => ?_⟩,
    hr, hsup, hhas⟩
  · rw [Vm.pte_addRef]
    by_cases hdd : d' = d
    · subst hdd
      rw [hpte', Vm.pte_setMem, hpte]
      simp only [true_and, and_comm]
    · rw [pte_of_pgdir (hb.other d' hdd), Vm.pte_setMem, hpte, if_neg (fun h => hdd h.1)]
  · rw [Vm.live_addRef, hb.live, Vm.live_setMem, hlive]
  · have hperm : (u.tables d ++ u.freelist).Perm (s.tables d ++ fs) := by
      have := hb.perm
      rwa [Vm.setMem_freelist, hfs, show (t.setMem f fun _ => 0).tables d = t.tables d from rfl,
        htables] at this
    rw [hfree]
    exact (hperm.cons f).trans List.perm_middle.symm
  · rw [hfree]
    rcases List.mem_cons.1 hx with rfl | hx
    · exact List.mem_cons_self
    · exact List.mem_cons_of_mem _ (hsub x hx)
  · exact List.nodup_cons.2 ⟨fun hx => hf (hsub f hx), hsuf.sublist.nodup
      (by rwa [Vm.setMem_freelist, hfs])⟩
  · have hzero := hs.zero f (by rw [hfree]; exact List.mem_cons_self)
    have hcount : u.refcount = s.refcount := hb.refcount.trans href
    show update u.refcount f (toChar (u.refcount f + 1)) x = _
    rw [update_apply, hcount, hzero]
    rfl
  · rw [Vm.addRef_mem, hmem']
    exact update_self ..
  · rw [Vm.addRef_mem, hmem']
    exact (update_of_ne hx _ _).trans (congrFun hmem x)

theorem Filled.nothing (hs : Fresh s) (hdir : t.pgdir = s.pgdir) (href : t.refcount = s.refcount)
    (hmem : t.mem = s.mem) (hfree : t.freelist = s.freelist) (b : Bool) :
    Filled d ⟨[], [], b, s.hasTab d⟩ id [] s t := by
  have htab : t.tab = s.tab := funext fun y => tab_of_pgdir (congrFun hdir y)
  have htabs : t.tabFrame = s.tabFrame := Vm.tabFrame_congr htab
  refine ⟨fun d' v' => ?_, ?_, ?_, ?_, fun f hf => ?_, ?_, rfl, fun f => ?_, nofun, fun f _ =>
    congrFun hmem f⟩
  · rw [Vm.pte_congr htab, if_neg (by simp)]
  · unfold Vm.hasTab
    rw [htabs]
  · funext y
    rw [Vm.live, Vm.live, hdir]
  · rw [List.map_nil, List.nil_append, List.nil_append, hfree, Vm.tables, Vm.tables, htabs]
  · rw [← hfree]
    exact hf
  · rw [hfree]
    exact hs.nodup
  · rw [href, if_neg (by simp)]

/-- The loop fills the pages from `v` on, as `fill` says. -/
theorem fillLoop_spec {newsz : ℕ} (hsz : newsz < kernbase) (n : ℕ) : ∀ {s : Vm} {v : ℕ}, Fresh s →
    s.live d = true → (∀ v', v ≤ v' → (v' * pgsize < newsz ↔ v' < v + n)) →
    (∀ v', v ≤ v' → v' < kernpage → (s.pte d v').p = false) →
    wp (fillLoop d newsz v) (fun r t => r = (fill (s.hasTab d) s.supply n v).complete ∧
      ∃ g lost, Filled d (fill (s.hasTab d) s.supply n v) g lost s t) NoPanic s := by
  induction n with
  | zero =>
    intro s v hs hd hn hp
    have hend : ¬ v * pgsize < newsz := fun hlt => by
      have := (hn v le_rfl).1 hlt
      omega
    rw [fillLoop, if_neg hend, fill]
    exact ⟨rfl, id, [], .nothing hs rfl rfl rfl rfl true⟩
  | succ n ih =>
    intro s v hs hd hn hp
    have hlt : v * pgsize < newsz := (hn v le_rfl).2 (by omega)
    have hv : v < kernpage := by
      simp only [kernbase, kernpage, pgsize] at *
      omega
    rw [fillLoop, if_pos hlt]
    simp only [wp_bind]
    refine wp_imp kalloc_supply ?_
    rintro (_ | f) t ⟨hdir, href, hmem, hsup, hgrants, hfree⟩
    · rw [fill, if_neg (by rw [hgrants]; exact Bool.false_ne_true)]
      exact ⟨rfl, id, [], .nothing hs hdir href hmem hfree false⟩
    simp only [wp_run, wp_addRef]
    refine wp_imp (fillPage_spec hs hd hv (hp v le_rfl hv) hfree hdir href hmem rfl) ?_
    rintro r u ⟨hpage, hr, husup, huhas⟩
    have htabs : t.hasTab d = s.hasTab d := by
      unfold Vm.hasTab
      rw [Vm.tabFrame_congr (funext fun y => tab_of_pgdir (congrFun hdir y))]
    rw [htabs] at hr husup huhas
    rw [hsup] at hr husup
    have hd' : (u.addRef f 1).live d = true := by rw [hpage.live, hd]
    have hp' : ∀ v', v + 1 ≤ v' → v' < kernpage → ((u.addRef f 1).pte d v').p = false :=
      fun v' hle hk => by
      rw [hpage.pte, if_neg (by omega)]
      exact hp v' (by omega) hk
    refine wp_imp (ih (hpage.fresh hs) hd' (fun v' hle => ?_) hp') ?_
    · rw [hn v' (by omega)]
      omega
    rintro b t' ⟨hb, g, lost, hF⟩
    rw [show (u.addRef f 1).hasTab = u.hasTab from rfl, show (u.addRef f 1).supply = u.supply from rfl,
      husup, huhas] at hb hF
    have hout : v ∉ (fill (u.hasTab d) u.supply n (v + 1)).mapped := fun hmem => by
      have := mem_fill n (.inl hmem)
      omega
    rw [husup, huhas] at hout
    rw [fill, if_pos hgrants]
    -- the page table of `v` exists, is granted, or is refused
    cases htab : s.hasTab d (v / nptentries) with
    | true =>
      simp only [htab, Bool.true_or] at hr
      subst hr
      simp only [htab, if_true] at hb hF hout
      rw [← htab, update_eq_self] at hb hF hout
      exact ⟨hb, _, _, hpage.mapped hF hout⟩
    | false =>
      simp only [htab, Bool.false_or] at hr
      simp only [htab, Bool.false_eq_true, if_false] at hb hF hout ⊢
      cases hnext : s.supply.next.grants with
      | true =>
        obtain rfl := hr.trans hnext
        simp only [if_true] at hb hF hout ⊢
        exact ⟨hb, _, _, hpage.mapped hF hout⟩
      | false =>
        obtain rfl := hr.trans hnext
        simp only [Bool.false_eq_true, if_false] at hb hF hout ⊢
        exact ⟨hb, _, _, hpage.refused hF⟩

/-! ## Taking the pages back -/

theorem Filled.injOn (h : Filled d F g lost s t) {v v' : ℕ}
    (hv : v ∈ F.mapped) (hv' : v' ∈ F.mapped) (heq : g v = g v') : v = v' :=
  List.inj_on_of_nodup_map (List.nodup_append'.1 (List.nodup_append'.1 h.nodup).1).1 hv hv' heq

theorem Filled.chars (h : Filled d F g lost s t) (hs : s.Chars) :
    t.Chars := fun f => by
  rw [h.refcount]
  split_ifs
  · rfl
  · exact hs f

theorem Filled.mapped_once (h : Filled d F g lost s t) {l : List ℕ} (hl : l.Nodup)
    (hp : ∀ v ∈ l, (s.pte d v).p = false) (f : ℕ) :
    hits t d l f = if ∃ v ∈ l, v ∈ F.mapped ∧ g v = f then 1 else 0 := by
  have hpage : ∀ v ∈ l, ((t.pte d v).p && (t.pte d v).frame == f) = true ↔ v ∈ F.mapped ∧ g v = f :=
    fun v hv => by
    rw [h.pte]
    by_cases hmem : v ∈ F.mapped
    · simp [hmem]
    · simp [hmem, hp v hv]
  split_ifs with hex
  · obtain ⟨v, hv, hmem, hg⟩ := hex
    have hcount : hits t d l f = l.count v := by
      refine List.countP_congr fun v' hv' => ?_
      rw [hpage v' hv', beq_iff_eq]
      constructor
      · rintro ⟨hmem', hg'⟩
        exact h.injOn hmem' hmem (hg'.trans hg.symm)
      · rintro rfl
        exact ⟨hmem, hg⟩
    rw [hcount, List.count_eq_one_of_mem hl hv]
  · refine List.countP_eq_zero.2 fun v hv hc => hex ?_
    exact ⟨v, hv, (hpage v hv).1 hc⟩

/-- What is left when `deallocuvm` has taken the pages back, from page `v` on. -/
structure Undone (d v : ℕ) (F : Fill) (g : ℕ → ℕ) (lost : List ℕ) (s t : Vm) : Prop where
  kept : ∀ v' ∈ F.mapped, Skipped F.tab v v' → t.pte d v' = ⟨g v', true, true, true⟩
  gone : ∀ v' ∈ F.mapped, ¬ Skipped F.tab v v' → t.pte d v' = .zero
  other : ∀ d' v', ¬ (d' = d ∧ v' ∈ F.mapped) → t.pte d' v' = s.pte d' v'
  counted : ∀ f ∈ lost, t.refcount f = 1
  mem : ∀ f, f ∉ s.freelist → t.mem f = s.mem f
  back : (∀ v' ∈ F.mapped, ¬ Skipped F.tab v v') → (∀ f, f ∉ lost → t.refcount f = s.refcount f) ∧
    (lost ++ (t.tables d ++ t.freelist)).Perm (s.tables d ++ s.freelist)

/-- `deallocuvm` takes back what a failed `allocuvm` has mapped. -/
theorem Filled.undo [Link] {s t : Vm}
    (h : Filled d F g lost s t) (hs : Fresh s) (hchars : s.Chars) (hframes : ∀ f ∈ s.freelist, f ∈ frames)
    (hlt : oldsz < newsz) (hsz : newsz ≤ kernbase)
    (hp : ∀ v, pgroundup oldsz ≤ v → v < kernpage → (s.pte d v).p = false)
    (hrange : ∀ v ∈ F.mapped, pgroundup oldsz ≤ v ∧ v * pgsize < newsz)
    (htab : ∀ v ∈ F.mapped, F.tab (v / nptentries) = true) :
    wp (deallocuvm d newsz oldsz) (fun _ u => Undone d (pgroundup oldsz) F g lost s u) NoPanic t := by
  have hkern : ∀ v, v * pgsize < newsz → v < kernpage := fun v hv => by
    simp only [kernbase, kernpage, pgsize] at *
    omega
  have hmapped : ∀ v ∈ F.mapped, t.pte d v = ⟨g v, true, true, true⟩ := fun v hv => by
    rw [h.pte, if_pos ⟨rfl, hv⟩]
  have hg : ∀ v ∈ F.mapped, g v ∈ s.freelist := fun v hv =>
    h.taken _ (List.mem_append_left _ (List.mem_append_left _ (List.mem_map_of_mem hv)))
  rw [deallocuvm, if_neg (by omega), wp_bind]
  refine wp_imp (deallocuvmLoop_visits (B := False) fun v hle hlt' hpres hout => ?_) ?_
  · rw [h.pte] at hpres hout
    split_ifs at hpres hout with hmem
    · exact hout (hframes _ (hg v hmem.2))
    · rw [hp v hle (hkern v hlt')] at hpres
      cases hpres
  · rintro _ u rfl
    rw [wp_pure, h.hasTab]
    obtain ⟨L, hL⟩ := dropped_foldl (d := d) (s := t) (visited F.tab newsz (pgroundup oldsz)) (nodup_visited ..)
      (h.chars hchars)
    have hvis : ∀ v ∈ F.mapped, v ∈ visited F.tab newsz (pgroundup oldsz) ↔ ¬ Skipped F.tab (pgroundup oldsz) v :=
      fun v hv => by
        rw [mem_visited]
        exact ⟨fun hmem => hmem.2.2.2, fun hno => ⟨(hrange v hv).1, (hrange v hv).2, htab v hv, hno⟩⟩
    have hpv : ∀ v ∈ visited F.tab newsz (pgroundup oldsz), (s.pte d v).p = false := fun v hv => by
      obtain ⟨hle, hlt', -⟩ := (mem_visited ..).1 hv
      exact hp v hle (hkern v hlt')
    have hhits := h.mapped_once (nodup_visited F.tab newsz (pgroundup oldsz)) hpv
    obtain ⟨hnd, -, hdis⟩ := List.nodup_append'.1 (List.nodup_append'.1 h.nodup).1
    refine ⟨fun v hv hsk => ?_, fun v hv hno => ?_, fun d' v' hout => ?_, fun f hf => ?_, fun f hf => ?_, fun hall => ?_⟩
    · rw [hL.pte, if_neg (fun hc => (hvis v hv).1 hc.2.1 hsk), hmapped v hv]
    · rw [hL.pte, if_pos ⟨rfl, (hvis v hv).2 hno, by rw [hmapped v hv]⟩]
    · rw [hL.pte, if_neg, h.pte, if_neg hout]
      rintro ⟨rfl, hv, hpres⟩
      rw [h.pte, if_neg hout, hpv v' hv] at hpres
      cases hpres
    · -- a lost frame is mapped nowhere
      have hnone : ¬ ∃ v ∈ visited F.tab newsz (pgroundup oldsz), v ∈ F.mapped ∧ g v = f := by
        rintro ⟨v, -, hv, rfl⟩
        exact hdis (List.mem_map_of_mem hv) hf
      rw [hL.refcount, hhits, if_neg hnone, h.refcount, if_pos (List.mem_append_right _ hf)]
      rfl
    · have hfL : f ∉ L := fun hmem => by
        have hpos := List.count_pos_iff.2 hmem
        rw [hL.count, hhits] at hpos
        split_ifs at hpos with hex
        · obtain ⟨v, -, hv, rfl⟩ := hex
          exact hf (hg v hv)
        · exact absurd hpos (Nat.lt_irrefl 0)
      rw [hL.mem f hfL, h.mem f hf]
    · have hhits' : ∀ f, hits t d (visited F.tab newsz (pgroundup oldsz)) f = if f ∈ F.mapped.map g then 1 else 0 :=
        fun f => by
          have hiff : (∃ v ∈ visited F.tab newsz (pgroundup oldsz), v ∈ F.mapped ∧ g v = f) ↔ f ∈ F.mapped.map g := by
            rw [List.mem_map]
            constructor
            · rintro ⟨v, -, hv, hgv⟩
              exact ⟨v, hv, hgv⟩
            · rintro ⟨v, hv, hgv⟩
              exact ⟨v, (hvis v hv).2 (hall v hv), hv, hgv⟩
          simp only [hhits, hiff]
      have hone : ∀ f ∈ F.mapped.map g, t.refcount f = 1 := fun f hf => by
        rw [h.refcount, if_pos (List.mem_append_left _ hf)]
      refine ⟨fun f hf => ?_, ?_⟩
      · rw [hL.refcount, hhits']
        by_cases hmem : f ∈ F.mapped.map g
        · obtain ⟨v, hv, rfl⟩ := List.mem_map.1 hmem
          rw [if_pos hmem, hone _ hmem, hs.zero _ (hg v hv)]
          rfl
        · rw [if_neg hmem, h.refcount, if_neg (by simp only [List.mem_append, hmem, hf, or_self, not_false_eq_true]),
            Nat.cast_zero, sub_zero, hchars f]
      · have hperm : L.Perm (F.mapped.map g) := List.perm_iff_count.2 fun f => by
          rw [hL.count, hhits']
          by_cases hmem : f ∈ F.mapped.map g
          · rw [if_pos hmem, hone f hmem, List.count_eq_one_of_mem hnd hmem]
            decide
          · rw [if_neg hmem, List.count_eq_zero_of_not_mem hmem]
            rfl
        have htables : (List.foldl (unmapPage d) t (visited F.tab newsz (pgroundup oldsz))).tables d = t.tables d := by
          unfold Vm.tables
          rw [hL.tabFrame]
        rw [hL.freelist, htables]
        refine List.Perm.trans ?_ h.perm
        calc (lost ++ (t.tables d ++ (L ++ t.freelist))).Perm (lost ++ (L ++ (t.tables d ++ t.freelist))) := by
              rw [← List.append_assoc (t.tables d), ← List.append_assoc L]
              exact (List.perm_append_comm.append_right _).append_left _
          _ |>.Perm (L ++ lost ++ (t.tables d ++ t.freelist)) := by
              rw [← List.append_assoc]
              exact List.perm_append_comm.append_right _
          _ |>.Perm (F.mapped.map g ++ lost ++ (t.tables d ++ t.freelist)) := (hperm.append_right _).append_right _

/-! ## `allocuvm` -/

/-- What `allocuvm(d, oldsz, newsz)` will fill. -/
def Vm.fillOf (s : Vm) (d oldsz newsz : ℕ) : Fill :=
  fill (s.hasTab d) s.supply ((newsz + pgsize - 1) / pgsize - pgroundup oldsz) (pgroundup oldsz)

theorem mem_fillOf (h : v ∈ (s.fillOf d oldsz newsz).mapped ∨ v ∈ (s.fillOf d oldsz newsz).refused) :
    pgroundup oldsz ≤ v ∧ v * pgsize < newsz := by
  have hmem := mem_fill _ h
  simp only [pgsize] at *
  omega

section Link

variable [Link]

section

variable (d oldsz newsz : ℕ) (hs : Fresh s) (hchars : s.Chars) (hframes : ∀ f ∈ s.freelist, f ∈ frames) (hd : s.live d = true) (hle : oldsz ≤ newsz) (hlt : newsz < kernbase) (hp : ∀ v, pgroundup oldsz ≤ v → v < kernpage → (s.pte d v).p = false)

include hs hchars hframes hd hle hlt hp

theorem allocuvm_fills :
    wp (allocuvm d oldsz newsz) (fun r t => ∃ g lost, (∀ f ∈ lost, f ∈ s.freelist) ∧
      lost.length = (s.fillOf d oldsz newsz).refused.length ∧
      if (s.fillOf d oldsz newsz).complete then r = newsz ∧ Filled d (s.fillOf d oldsz newsz) g lost s t
      else r = 0 ∧ oldsz < newsz ∧ Undone d (pgroundup oldsz)
        (s.fillOf d oldsz newsz) g lost s t) NoPanic s := by
  rw [allocuvm, if_neg (by omega), if_neg (by omega), wp_allocuvmLoop]
  refine wp_imp (fillLoop_spec hlt ((newsz + pgsize - 1) / pgsize - pgroundup oldsz) hs hd
    (fun v' hv' => ?_) hp) ?_
  · simp only [pgsize]
    omega
  rw [← Vm.fillOf]
  rintro r t ⟨rfl, g, lost, hF⟩
  have hlost : ∀ f ∈ lost, f ∈ s.freelist := fun f hf =>
    hF.taken f (List.mem_append_left _ (List.mem_append_right _ hf))
  split_ifs with hcomplete
  · exact ⟨g, lost, hlost, hF.lost_length, rfl, hF⟩
  have hne : oldsz < newsz := by
    by_contra hge
    have hzero : (newsz + pgsize - 1) / pgsize - pgroundup oldsz = 0 := by
      simp only [pgroundup, pgsize, kernbase, word] at *
      omega
    rw [Vm.fillOf, hzero] at hcomplete
    exact hcomplete rfl
  refine wp_imp (hF.undo hs hchars hframes hne hlt.le hp (fun v hv => mem_fillOf (.inl hv))
    (tab_fill _).2) ?_
  intro _ u hU
  exact ⟨g, lost, hlost, hF.lost_length, rfl, hne, hU⟩

/-- If `kalloc` refuses nothing, `allocuvm` returns the new size and the pages of the range are there. -/
theorem allocuvm_complete (hcomplete : (s.fillOf d oldsz newsz).complete = true)
    (hnone : (s.fillOf d oldsz newsz).refused = []) :
    ∃ g t, allocuvm d oldsz newsz s = .ok newsz t ∧ (s.fillOf d oldsz newsz).mapped =
      pagesOf oldsz newsz ∧ Filled d (s.fillOf d oldsz newsz) g [] s t := by
  obtain ⟨r, t, hok, g, lost, -, hlen, hres⟩ :=
    wp_returns (allocuvm_fills d oldsz newsz hs hchars hframes hd hle hlt hp)
  obtain rfl : lost = [] := List.length_eq_zero_iff.1 (by rw [hlen, hnone]; rfl)
  rw [if_pos hcomplete] at hres
  obtain ⟨rfl, hF⟩ := hres
  exact ⟨g, t, hok, mapped_of_complete _ hcomplete hnone, hF⟩

theorem allocuvm_granted (hroom : Roomy (2 * ((newsz + pgsize - 1) / pgsize - pgroundup oldsz)) s) :
    ∃ g t, allocuvm d oldsz newsz s = .ok newsz t ∧ (s.fillOf d oldsz newsz).mapped =
      pagesOf oldsz newsz ∧ Filled d (s.fillOf d oldsz newsz) g [] s t := by
  obtain ⟨hcomplete, hnone⟩ : (s.fillOf d oldsz newsz).complete = true ∧
    (s.fillOf d oldsz newsz).refused = [] := fill_granted _ hroom.oom hroom.free
  exact allocuvm_complete d oldsz newsz hs hchars hframes hd hle hlt hp hcomplete hnone

end

/-- Every page of the range is present, writable, accessible to the user, zero, and has a frame of
its own. -/
def Extended (d oldsz newsz : ℕ) (s t : Vm) : Prop :=
  ∃ g : ℕ → ℕ, (∀ v ∈ pagesOf oldsz newsz, ∀ v' ∈ pagesOf oldsz newsz, g v = g v' → v = v') ∧
    ∀ v ∈ pagesOf oldsz newsz, t.pte d v = ⟨g v, true, true, true⟩ ∧ g v ∈ s.freelist ∧
      t.mem (g v) = (fun _ => 0) ∧ t.refcount (g v) = 1

/-- The user mappings and the counts are as before, and no frame is gone except to a page table. -/
structure RolledBack (d : ℕ) (s t : Vm) : Prop where
  present : ∀ d' v, v < kernpage → (t.pte d' v).p = (s.pte d' v).p
  pte : ∀ d' v, v < kernpage → (s.pte d' v).p = true → t.pte d' v = s.pte d' v
  refcount : t.refcount = s.refcount
  free : (t.tables d ++ t.freelist).Perm (s.tables d ++ s.freelist)

/-- `allocuvm` returns, and it is all-or-nothing if and only if no page table is refused. -/
theorem allocuvm_all_or_nothing (d oldsz newsz : ℕ) (hs : Fresh s) (hchars : s.Chars)
    (hframes : ∀ f ∈ s.freelist, f ∈ frames) (hd : s.live d = true) (hle : oldsz ≤ newsz)
    (hlt : newsz < kernbase)
    (hp : ∀ v, pgroundup oldsz ≤ v → v < kernpage → (s.pte d v).p = false) :
    ∃ r t, allocuvm d oldsz newsz s = .ok r t ∧
      (r = newsz ∧ Extended d oldsz newsz s t ∨ r = 0 ∧ RolledBack d s t ↔
      (s.fillOf d oldsz newsz).refused = []) := by
  have hkern : ∀ v, v * pgsize < newsz → v < kernpage := fun v hv => by
    simp only [kernbase, kernpage, pgsize] at *
    omega
  obtain ⟨r, t, hok, g, lost, hlost, hlen, hres⟩ := wp_returns
    (allocuvm_fills d oldsz newsz hs hchars hframes hd hle hlt hp)
  refine ⟨r, t, hok, fun hconcl => ?_, fun hnone => ?_⟩
  · -- a refused page is not mapped, and its frame stays counted
    by_contra hrefused
    obtain ⟨v, hv⟩ := List.exists_mem_of_ne_nil _ hrefused
    obtain ⟨hvle, hvlt⟩ := mem_fillOf (.inr hv)
    have hpos : 0 < newsz := by omega
    split_ifs at hres with hcomplete
    · obtain ⟨rfl, hF⟩ := hres
      rcases hconcl with ⟨-, g', -, hall⟩ | ⟨hzero, -⟩
      · have hmem : v ∉ (s.fillOf d oldsz r).mapped := fun hmem => (disjoint_fill _).1 v hmem hv
        have hentry := (hall v (mem_pagesOf.2 ⟨hvle, hvlt⟩)).1
        have hout := hF.pte d v
        rw [if_neg (fun hc => hmem hc.2), hentry] at hout
        have hv' := hp v hvle (hkern v hvlt)
        rw [← hout] at hv'
        cases hv'
      · omega
    · obtain ⟨rfl, -, hU⟩ := hres
      rcases hconcl with ⟨hzero, -⟩ | ⟨-, hback⟩
      · omega
      have hlost' : lost ≠ [] := fun h => hrefused (List.length_eq_zero_iff.1 (by rw [← hlen, h]; rfl))
      obtain ⟨f, hf⟩ := List.exists_mem_of_ne_nil _ hlost'
      have hone := hU.counted f hf
      rw [hback.refcount, hs.zero f (hlost f hf)] at hone
      cases hone
  · have hlost' : lost = [] := List.length_eq_zero_iff.1 (by rw [hlen, hnone]; rfl)
    subst hlost'
    split_ifs at hres with hcomplete
    · obtain ⟨rfl, hF⟩ := hres
      have hmapped : (s.fillOf d oldsz r).mapped = pagesOf oldsz r :=
        mapped_of_complete _ hcomplete hnone
      have hmem : ∀ v ∈ pagesOf oldsz r, v ∈ (s.fillOf d oldsz r).mapped := fun v hv => hmapped ▸ hv
      refine .inl ⟨rfl, g, fun v hv v' hv' => hF.injOn (hmem v hv) (hmem v' hv'), fun v hv => ?_⟩
      have hg : g v ∈ (s.fillOf d oldsz r).mapped.map g := List.mem_map_of_mem (hmem v hv)
      refine ⟨?_, ?_, hF.zeroed _ hg, ?_⟩
      · rw [hF.pte, if_pos ⟨rfl, hmem v hv⟩]
      · exact hF.taken _ (List.mem_append_left _ (List.mem_append_left _ hg))
      · rw [hF.refcount, if_pos (List.mem_append_left _ hg)]
    · obtain ⟨rfl, hne, hU⟩ := hres
      -- the first page is mapped, so its page table exists
      have hnoskip : ∀ v ∈ (s.fillOf d oldsz newsz).mapped,
          ¬ Skipped (s.fillOf d oldsz newsz).tab (pgroundup oldsz) v := fun v hv hsk => by
        rcases (disjoint_fill _).2 with hfirst | hfirst | hfirst
        · have htab := (tab_fill _).2 _ hfirst
          have hfalse := hsk.2.1 _ le_rfl hsk.1
          rw [Vm.fillOf, htab] at hfalse
          cases hfalse
        · rw [Vm.fillOf] at hnone
          rw [hnone] at hfirst
          cases hfirst
        · rw [Vm.fillOf, hfirst.1] at hv
          cases hv
      obtain ⟨href, hperm⟩ := hU.back hnoskip
      rw [List.nil_append] at hperm
      refine .inr ⟨rfl, fun d' v hv => ?_, fun d' v hv hpres => ?_, funext fun f =>
        href f (by rintro ⟨⟩), hperm⟩
      · by_cases hmem : d' = d ∧ v ∈ (s.fillOf d oldsz newsz).mapped
        · obtain ⟨rfl, hmem⟩ := hmem
          rw [hU.gone v hmem (hnoskip v hmem), hp v (mem_fillOf (.inl hmem)).1 hv]
          rfl
        · rw [hU.other d' v hmem]
      · refine hU.other d' v ?_
        rintro ⟨rfl, hmem⟩
        rw [hp v (mem_fillOf (.inl hmem)).1 hv] at hpres
        cases hpres

end Link

/-! ## A directory without page tables -/

def emptyVm (free : List ℕ) : Vm :=
  { Vm.start with freelist := free, pgdir := fun d => if d = 2000 then some fun _ => none else none }

theorem emptyVm_fresh {free : List ℕ} (h : free.Nodup) : Fresh (emptyVm free) := ⟨h, fun _ _ => rfl⟩

theorem emptyVm_chars (free : List ℕ) : (emptyVm free).Chars := fun _ => rfl

theorem emptyVm_pte (free : List ℕ) (v : ℕ) : (emptyVm free).pte 2000 v = .zero := rfl

theorem emptyVm_frames {free : List ℕ} (h : ∀ f ∈ free, 1024 ≤ f ∧ f < 2000) :
    ∀ f ∈ (emptyVm free).freelist, f ∈ frames := fun f hf => by
  have hlow : firstFrame ≤ 1024 := by decide
  have hhigh : 2000 ≤ phystop / pgsize := by decide
  have hrange := h f hf
  exact ⟨by omega, by omega⟩

/-- Three free pages are enough for two pages and their page table. -/
theorem allocuvm_all_or_nothing_emptyVm : Fresh (emptyVm [1024, 1025, 1026]) ∧
    (emptyVm [1024, 1025, 1026]).Chars ∧
    (∀ f ∈ (emptyVm [1024, 1025, 1026]).freelist, f ∈ frames) ∧
      (emptyVm [1024, 1025, 1026]).live 2000 = true ∧
    (∀ v, pgroundup 0 ≤ v → v < kernpage → ((emptyVm [1024, 1025, 1026]).pte 2000 v).p = false) ∧
    ∃ r t, allocuvm 2000 0 (2 * pgsize) (emptyVm [1024, 1025, 1026]) = .ok r t ∧
      (r = 2 * pgsize ∧ Extended 2000 0 (2 * pgsize) (emptyVm [1024, 1025, 1026]) t ∨
        r = 0 ∧ RolledBack 2000 (emptyVm [1024, 1025, 1026]) t) := by
  have hs : Fresh (emptyVm [1024, 1025, 1026]) := emptyVm_fresh (by decide)
  have hframes : ∀ f ∈ (emptyVm [1024, 1025, 1026]).freelist, f ∈ frames := emptyVm_frames (by decide)
  have hp : ∀ v, pgroundup 0 ≤ v → v < kernpage →
    ((emptyVm [1024, 1025, 1026]).pte 2000 v).p = false := fun v _ _ => by
    rw [emptyVm_pte]
    rfl
  obtain ⟨r, t, hok, hiff⟩ := allocuvm_all_or_nothing 2000 0 (2 * pgsize) hs
    (emptyVm_chars _) hframes rfl (by decide) (by decide) hp
  exact ⟨hs, emptyVm_chars _, hframes, rfl, hp, r, t, hok, hiff.2 (by decide)⟩

/-- With one free page there is a frame for page 0 and no page table: `allocuvm` returns the new
size, the page is not mapped and its frame stays counted. -/
theorem allocuvm_leaves_hole : ∃ t, allocuvm 2000 0 pgsize (emptyVm [1024]) = .ok pgsize t ∧
    Fresh (emptyVm [1024]) ∧ (emptyVm [1024]).oom = [] ∧ 0 ∈ pagesOf 0 pgsize ∧
      (t.pte 2000 0).p = false ∧
    t.refcount 1024 = 1 ∧ t.freelist = [] := by
  have hs : Fresh (emptyVm [1024]) := emptyVm_fresh (by decide)
  have hp : ∀ v, pgroundup 0 ≤ v → v < kernpage → ((emptyVm [1024]).pte 2000 v).p = false :=
    fun v _ _ => by
    rw [emptyVm_pte]
    rfl
  obtain ⟨r, t, hok, g, lost, hlost, hlen, hres⟩ := wp_returns (allocuvm_fills 2000 0 pgsize
    hs (emptyVm_chars _) (emptyVm_frames (by decide)) rfl (by decide) (by decide) hp)
  have hcomplete : ((emptyVm [1024]).fillOf 2000 0 pgsize).complete = true := by decide
  have hmapped : ((emptyVm [1024]).fillOf 2000 0 pgsize).mapped = [] := by decide
  rw [if_pos hcomplete] at hres
  obtain ⟨rfl, hF⟩ := hres
  obtain ⟨f, rfl⟩ := List.length_eq_one_iff.1 (hlen.trans (by decide))
  obtain rfl : f = 1024 := List.mem_singleton.1 (hlost f List.mem_cons_self)
  refine ⟨t, hok, hs, rfl, mem_pagesOf.2 ⟨by decide, by decide⟩, ?_, ?_, ?_⟩
  · rw [hF.pte, hmapped, if_neg (by simp), emptyVm_pte]
    rfl
  · rw [hF.refcount, if_pos (by simp)]
  · refine List.eq_nil_iff_forall_not_mem.2 fun x hx => ?_
    obtain rfl : x = 1024 := List.mem_singleton.1 (hF.taken x (List.mem_append_right _ hx))
    exact (List.nodup_append'.1 hF.nodup).2.2 (List.mem_append_right _ List.mem_cons_self) hx

end Xv6

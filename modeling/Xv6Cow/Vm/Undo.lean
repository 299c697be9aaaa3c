import Xv6Cow.Vm.Alloc

/-!
# `freevm` undoes `copyuvm`

`copyuvm` raises the count of a frame for every page it copies, and `freevm` lowers it for every
page it finds in the new directory.  `Copied` is the state between the two, after the first `v`
pages; `freevm` leads back from it, whatever `v` is.
-/

namespace Xv6

open Function Lts Prog

variable {s t u : Vm} {c d v f sz : ℕ}

theorem zeros_back {c : ℤ} {n : ℕ} (hc : 0 < c) (hn : c + n < 256) : zeros (toChar (c + n)) n = 0 := by
  refine List.countP_eq_zero.2 fun j hj => ?_
  have hj := List.mem_range.1 hj
  rw [decide_eq_true_eq]
  unfold toChar
  omega

theorem toChar_back {c : ℤ} (hc : toChar c = c) (n : ℕ) : toChar (toChar (c + n) - n) = c := by
  rw [sub_eq_add_neg, toChar_add, ← sub_eq_add_neg, add_sub_cancel_right, hc]

/-! ## The state between `copyuvm` and `freevm` -/

/-- The first `v` pages of `d` are copied to `c`; `s` is the state after `setupkvm`. -/
structure Copied (d c sz v : ℕ) (s t : Vm) : Prop where
  parent : ∀ v', t.pte d v' = s.pte d v' ∨ v' * pgsize < sz ∧
    t.pte d v' = { s.pte d v' with w := false }
  child : ∀ v', v' < kernpage → t.pte c v' = if v' < v then { s.pte d v' with w := false } else .zero
  kern : (t.pte c kernpage).p = true
  live : t.live = s.live
  refcount : ∀ f, t.refcount f = toChar (s.refcount f + hits s d (List.range v) f)
  perm : (t.tables c ++ t.freelist).Perm (s.tables c ++ s.freelist)

/-- The free list and the counts are as before, and the entries of `d` are as before except that
`PTE_W` may be cleared below `sz`. -/
structure Undoes (d sz : ℕ) (s t : Vm) : Prop where
  free : t.freelist.Perm s.freelist
  refcount : t.refcount = s.refcount
  parent : ∀ v, t.pte d v = s.pte d v ∨ v * pgsize < sz ∧ t.pte d v = { s.pte d v with w := false }

/-- Every page below `sz` is present, and its frame is counted. -/
def Vm.Full (s : Vm) (d sz : ℕ) : Prop :=
  ∀ v, v * pgsize < sz → (s.pte d v).p = true ∧ 0 < s.refcount (s.pte d v).frame

theorem Copied.hits_child (h : Copied d c sz v s t) (hv : v ≤ kernpage) (f : ℕ) :
    hits t c (visited (t.hasTab c) kernbase 0) f = hits s d (List.range v) f := by
  have hround : ∀ v', v' * pgsize < kernbase ↔ v' < kernpage := fun v' => by
    simp only [kernbase, kernpage, pgsize]
    omega
  have hmem : ∀ v', (t.pte c v').p = true → (v' ∈ visited (t.hasTab c) kernbase 0 ↔
    v' ∈ List.range v) := by
    intro v' hp
    have htab : t.hasTab c (v' / nptentries) = true := (hasTab_iff ..).2 (Vm.tab_of_pte hp)
    rw [mem_visited, List.mem_range, hround]
    constructor
    · rintro ⟨-, hk, -⟩
      rw [h.child v' hk] at hp
      split_ifs at hp with hlt
      · exact hlt
      · cases hp
    · intro hlt
      exact ⟨Nat.zero_le _, by omega, htab, fun hsk => absurd hsk.2.2 (Nat.not_lt_zero _)⟩
  rw [hits_eq (nodup_visited ..) List.nodup_range hmem]
  refine List.countP_congr fun v' hv'' => ?_
  have hlt := List.mem_range.1 hv''
  rw [h.child v' (by omega), if_pos hlt]

theorem hits_le (hv : ∀ v', v' < v → v' * pgsize < sz) (f : ℕ) :
    hits s d (List.range v) f ≤ hits s d (pagesOf 0 sz) f := by
  refine (List.subperm_of_subset List.nodup_range fun v' hv' => ?_).countP_le _
  exact mem_pagesOf.2 ⟨Nat.zero_le _, hv v' (List.mem_range.1 hv')⟩

section Link

variable [Link]

/-- `freevm` gives the counts and the entries of the parent back, and frees the frames whose count
is zero on the way. -/
theorem Copied.freevm_drops {B : Prop} (h : Copied d c sz v s t) (hs : s.Chars) (hdc : d ≠ c)
    (hc : s.live c = true) (hv : v ≤ kernpage) (hv' : ∀ v', v' < v → v' * pgsize < sz)
    (hframes : ∀ f ∈ c :: (s.tables c ++ s.freelist), f ∈ frames)
    (hbad : ∀ v', v' * pgsize < sz → (s.pte d v').frame ∉ frames → B) :
    wp (freevm c) (fun _ u => u.refcount = s.refcount ∧
      (∀ v', u.pte d v' = s.pte d v' ∨ v' * pgsize < sz ∧ u.pte d v' = { s.pte d v' with w := false }) ∧
      ∃ L, u.freelist.Perm (c :: (s.tables c ++ (L ++ s.freelist))) ∧
        ∀ f, L.count f = zeros (toChar (s.refcount f + hits s d (List.range v) f))
          (hits s d (List.range v) f))
      (fun _ _ => B) t := by
  have hpos : ¬ kernbase ≤ 0 := by decide
  have hround : pgroundup 0 = 0 := by decide
  have hchars : t.Chars := fun f => by rw [h.refcount, toChar_toChar]
  rw [freevm, deallocuvm, if_neg hpos, wp_bind, wp_bind, hround]
  refine wp_imp (deallocuvmLoop_visits fun v' _ hlt hp hout => ?_) ?_
  · have hk : v' < kernpage := by
      simp only [kernbase, kernpage, pgsize] at *
      omega
    rw [h.child v' hk] at hp hout
    split_ifs at hp hout with hlt'
    · exact hbad v' (hv' v' hlt') hout
    · cases hp
  · rintro _ t1 rfl
    rw [wp_pure]
    obtain ⟨L, hL⟩ := dropped_foldl (d := c) (s := t) (visited (t.hasTab c) kernbase 0)
      (nodup_visited ..) hchars
    have hhits := h.hits_child hv
    have htables : (List.foldl (unmapPage c) t (visited (t.hasTab c) kernbase 0)).tables c
      = t.tables c := by
      unfold Vm.tables
      rw [hL.tabFrame]
    have hlive : (List.foldl (unmapPage c) t (visited (t.hasTab c) kernbase 0)).live c = true := by
      rw [hL.live, h.live, hc]
    refine wp_call (freeDir_books hlive fun f hf => ?_) ?_
    · rw [htables] at hf
      refine hframes f ?_
      rcases List.mem_cons.1 hf with rfl | hf
      · exact List.mem_cons_self
      · exact List.mem_cons_of_mem _ (h.perm.mem_iff.1 (List.mem_append_left _ hf))
    rintro _ u ⟨hperm, -, hother, href, -⟩
    rw [htables, hL.freelist] at hperm
    refine ⟨?_, fun v' => ?_, L, hperm.trans (.cons c ?_), fun f => ?_⟩
    · funext f
      rw [href, hL.refcount, hhits, h.refcount, toChar_back (hs f)]
    · rw [pte_of_pgdir ((hother d hdc).trans (hL.other d hdc))]
      exact h.parent v'
    · exact List.perm_append_comm_assoc .. |>.trans
        ((h.perm.append_left L).trans (List.perm_append_comm_assoc ..))
    · rw [hL.count, hhits, h.refcount]

omit [Link] in
/-- No count is zero on the way back, so no frame is freed. -/
theorem nothing_dropped {L : List ℕ} (hfull : s.Full d sz) (hv' : ∀ v', v' < v → v' * pgsize < sz)
    (hfew : ∀ f, s.refcount f + hits s d (pagesOf 0 sz) f < 256)
    (hL : ∀ f, L.count f = zeros (toChar (s.refcount f + hits s d (List.range v) f))
      (hits s d (List.range v) f)) :
    L = [] := by
  refine List.eq_nil_iff_forall_not_mem.2 fun f hf => ?_
  have hcount := List.count_pos_iff.2 hf
  rw [hL] at hcount
  rcases Nat.eq_zero_or_pos (hits s d (List.range v) f) with hzero | hhit
  · rw [hzero] at hcount
    exact absurd hcount (Nat.lt_irrefl 0)
  obtain ⟨v', hmem, hp⟩ := List.countP_pos_iff.1 hhit
  simp only [Bool.and_eq_true, beq_iff_eq] at hp
  have hpos := (hfull v' (hv' v' (List.mem_range.1 hmem))).2
  have hle := hits_le (s := s) (d := d) hv' f
  have hfew := hfew f
  rw [hp.2] at hpos
  rw [zeros_back hpos (by omega)] at hcount
  exact absurd hcount (Nat.lt_irrefl 0)

/-! ## `copyuvm` -/

omit [Link] in
theorem Copied.lower (h : Copied d c sz v s t) (hdc : d ≠ c) (hlt : v * pgsize < sz)
    (htab : t.tab d (v / nptentries) ≠ none) :
    Copied d c sz v s (t.setPte d v { t.pte d v with w := false }) := by
  have hother : (t.setPte d v { t.pte d v with w := false }).pgdir c = t.pgdir c :=
    pgdir_setPte _ hdc.symm
  have hpte := pte_of_pgdir hother
  refine ⟨fun v' => ?_, fun v' hk => ?_, ?_, ?_, fun f => ?_, ?_⟩
  · rw [Vm.pte_setPte htab]
    by_cases heq : v' = v
    · subst heq
      rw [if_pos ⟨rfl, rfl⟩]
      rcases h.parent v' with hs | ⟨-, hs⟩
      · rw [hs]
        exact .inr ⟨hlt, rfl⟩
      · rw [hs]
        exact .inr ⟨hlt, rfl⟩
    · rw [if_neg (fun hc => heq hc.2)]
      exact h.parent v'
  · rw [hpte]
    exact h.child v' hk
  · rw [hpte]
    exact h.kern
  · rw [Vm.live_setPte, h.live]
  · rw [Vm.setPte_refcount, h.refcount]
  · have htables : (t.setPte d v { t.pte d v with w := false }).tables c = t.tables c := by
      unfold Vm.tables
      rw [Vm.tabFrame_setPte]
    rw [htables, Vm.setPte_freelist]
    exact h.perm

omit [Link] in
theorem Copied.refused (h : Copied d c sz v s t) (hb : Books c t u) (hdc : d ≠ c)
    (hpte : ∀ v', u.pte c v' = t.pte c v') : Copied d c sz v s u := by
  refine ⟨fun v' => ?_, fun v' hk => ?_, ?_, hb.live.trans h.live, fun f => ?_, hb.perm.trans h.perm⟩
  · rw [pte_of_pgdir (hb.other d hdc)]
    exact h.parent v'
  · rw [hpte]
    exact h.child v' hk
  · rw [hpte]
    exact h.kern
  · rw [hb.refcount, h.refcount]

omit [Link] in
theorem Copied.mapped (h : Copied d c sz v s t) (hb : Books c t u) (hdc : d ≠ c) (hv : v < kernpage)
    (hp : (s.pte d v).p = true)
    (hpte : ∀ v', u.pte c v' = if v' = v then { s.pte d v with w := false } else t.pte c v') :
    Copied d c sz (v + 1) s (u.addRef (s.pte d v).frame 1) := by
  refine ⟨fun v' => ?_, fun v' hk => ?_, ?_, hb.live.trans h.live, fun f => ?_, hb.perm.trans h.perm⟩
  · rw [Vm.pte_addRef, pte_of_pgdir (hb.other d hdc)]
    exact h.parent v'
  · rw [Vm.pte_addRef, hpte, h.child v' hk]
    by_cases heq : v' = v
    · subst heq
      simp
    · have hlt : v' < v + 1 ↔ v' < v := by omega
      simp only [heq, hlt, if_false]
  · rw [Vm.pte_addRef, hpte, if_neg (by omega)]
    exact h.kern
  · have hhits : hits s d (List.range (v + 1)) f =
        hits s d (List.range v) f + if (s.pte d v).frame = f then 1 else 0 := by
      rw [hits, List.range_succ, List.countP_append]
      simp [hits, hp, List.countP_cons]
    show update u.refcount _ (toChar (u.refcount _ + 1)) f = _
    rw [update_apply, hb.refcount, h.refcount, h.refcount, hhits]
    by_cases heq : f = (s.pte d v).frame
    · subst heq
      rw [if_pos rfl, if_pos rfl, toChar_add]
      push_cast
      rw [add_assoc]
    · rw [if_neg heq, if_neg (Ne.symm heq), add_zero]

/-- The loop from page `v` on.  No page table is refused if all pages are in the first one and that
is there or granted. -/
theorem copyuvmLoop_copies {B : Prop} {P : Vm → Prop} (hdc : d ≠ c) (hc : s.live c = true)
    (hfull : s.Full d sz)
    (hfreevm : ∀ v t, v ≤ kernpage → (∀ v', v' < v → v' * pgsize < sz) → Copied d c sz v s t →
      wp (freevm c) (fun _ u => P u) (fun _ _ => B) t) (hbig : kernbase < sz → B) {t : Vm} {v : ℕ}
    (h : Copied d c sz v s t) (hv : v ≤ kernpage) (hv' : ∀ v', v' < v → v' * pgsize < sz) :
    wp (copyuvmLoop d c sz v) (fun r u =>
      (r = none → sz ≤ nptentries * pgsize → t.hasTab c 0 = false ∧ t.supply.grants = false) ∧
      match r with
      | none => P u
      | some c' => c' = c ∧ ∃ v, v ≤ kernpage ∧ (∀ v', v' < v ↔ v' * pgsize < sz) ∧ Copied d c sz v s u)
      (fun _ _ => B) t := by
  rw [copyuvmLoop]
  split_ifs with hlt
  · obtain ⟨hp, -⟩ := hfull v hlt
    have hentry : { t.pte d v with w := false } = { s.pte d v with w := false } := by
      rcases h.parent v with heq | ⟨-, heq⟩
      · rw [heq]
      · rw [heq]
    have hp' : (t.pte d v).p = true := by
      rcases h.parent v with heq | ⟨-, heq⟩
      · rw [heq, hp]
      · rw [heq]
        exact hp
    have htab := Vm.tab_of_pte hp'
    have h1 := h.lower hdc hlt htab
    have hlow : (t.setPte d v { t.pte d v with w := false }).pte d v =
      { s.pte d v with w := false } := by
      rw [Vm.pte_setPte htab, if_pos ⟨rfl, rfl⟩, hentry]
    have hv20 : v < 2 ^ 20 := by
      simp only [kernpage] at hv
      omega
    have hhas1 : (t.setPte d v { t.pte d v with w := false }).hasTab c = t.hasTab c := by
      unfold Vm.hasTab
      rw [Vm.tabFrame_setPte]
    have hsup1 : (t.setPte d v { t.pte d v with w := false }).supply = t.supply := by
      rw [Vm.supply, Vm.setPte_freelist, Vm.setPte_oom]
      rfl
    simp only [wp_bind, wp_walkpgdir_false, Option.isSome_iff_ne_none.2 htab, if_true, wp_get,
      wp_ite, wp_modify]
    rw [if_pos hp', hlow, mappages_page hv20]
    generalize t.setPte d v { t.pte d v with w := false } = t1 at h1 hhas1 hsup1
    rcases Nat.lt_or_eq_of_le hv with hk | rfl
    · have hc1 : t1.live c = true := by rw [h1.live, hc]
      have hp1 : (t1.pte c v).p = false := by
        rw [h1.child v hk, if_neg (lt_irrefl v)]
        rfl
      have hfirst : sz ≤ nptentries * pgsize → v / nptentries = 0 := fun hle => by
        simp only [nptentries, pgsize] at *
        omega
      refine wp_mono (wp_and (mapOne_books false (s.pte d v).u hc1 hv20 hp1)
        (mapOne_supply hc1 false (s.pte d v).u hp1)) ?_ (fun _ _ hE => hE.1.elim)
      rintro (_ | _) u ⟨⟨hb, hpte⟩, -, -, hr, -, hhas⟩
      · simp only [Bool.false_eq_true, false_and, if_false] at hpte ⊢
        refine wp_imp (hfreevm v u hv hv' (h1.refused hb hdc hpte))
          (fun _ u' hu => ⟨fun _ hle => ?_, hu⟩)
        have hnone := Bool.or_eq_false_iff.1 hr.symm
        rwa [hhas1, hsup1, hfirst hle] at hnone
      simp only [true_and, if_true, wp_addRef] at hpte hhas ⊢
      have hcopy : ({ s.pte d v with w := false } : Pte) =
        ⟨(s.pte d v).frame, true, false, (s.pte d v).u⟩ := by
        simp only [hp]
      have h2 := h1.mapped hb hdc hk hp fun v' => by rw [hpte, hcopy]
      refine wp_imp (copyuvmLoop_copies hdc hc hfull hfreevm hbig h2 hk fun v' hlt' => ?_) ?_
      · rcases Nat.lt_succ_iff_lt_or_eq.1 hlt' with hlt' | rfl
        · exact hv' v' hlt'
        · exact hlt
      rintro r u' ⟨hroom, hres⟩
      refine ⟨fun hr' hle => ?_, hres⟩
      have hfalse : u.hasTab c 0 = false := (hroom hr' hle).1
      rw [hhas, hfirst hle, update_self] at hfalse
      cases hfalse
    · -- the copy has the kernel's page there
      have hB : B := hbig (by
        simp only [kernbase, kernpage, pgsize] at *
        omega)
      obtain ⟨tb, htb⟩ := Option.ne_none_iff_exists'.1 (Vm.tab_of_pte h1.kern)
      simp only [mappagesLoop, walkpgdir, wp_bind, wp_get, htb, wp_pure, if_true, h1.kern, wp_throw]
      exact hB
  · refine ⟨(by rintro ⟨⟩), rfl, v, hv, fun v' => ⟨hv' v', fun hlt' => ?_⟩, h⟩
    by_contra hge
    have hmul : v * pgsize ≤ v' * pgsize := Nat.mul_le_mul_right _ (by omega)
    omega
termination_by sz - v * pgsize
decreasing_by
  simp only [pgsize] at *
  omega

theorem Copied.start (hs : s.Chars) (hpte : ∀ v, s.pte c v = kernelPte v) : Copied d c sz 0 s s := by
  refine ⟨fun _ => .inl rfl, fun v hv => ?_, ?_, rfl, fun f => ?_, .refl _⟩
  · rw [hpte, kernelPte_zero hv]
    rfl
  · rw [hpte]
    exact kernelPte_kernpage
  · rw [show hits s d (List.range 0) f = 0 from rfl, Nat.cast_zero, add_zero, hs f]

/-- What `copyuvm` and `freevm` come to. -/
theorem copyuvm_returns {B : Prop} (hs : s.Chars) (hfree : FreeList s) (hd : d ∉ s.freelist)
    (hfull : s.Full d sz) (hfew : ∀ f, s.refcount f + hits s d (pagesOf 0 sz) f < 256)
    (hbad : ∀ v', v' * pgsize < sz → (s.pte d v').frame ∉ frames → B) (hbig : kernbase < sz → B) :
    wp (copyuvm d sz) (fun r t =>
      match r with
      | none => Undoes d sz s t
      | some c => wp (freevm c) (fun _ u => Undoes d sz s u) (fun _ _ => B) t) (fun _ _ => B) s := by
  rw [copyuvm, wp_bind]
  refine wp_call (setupkvm_books hfree.mem) ?_
  rintro (_ | c) s1 ⟨href, -, hres⟩
  · refine ⟨hres.1, href, fun v => .inl ?_⟩
    rcases hres.2 d with hdir | ⟨hmem, -⟩
    · rw [pte_of_pgdir hdir]
    · exact absurd hmem hd
  obtain ⟨hperm, hc, hother, hpte⟩ := hres
  have hdc : d ≠ c := fun heq => hd (hperm.mem_iff.1 (heq ▸ List.mem_cons_self))
  have hpted : s1.pte d = s.pte d := pte_of_pgdir (hother d hdc)
  have hchars : s1.Chars := fun f => by rw [href, hs f]
  have hfull1 : s1.Full d sz := fun v hv => by
    rw [hpted, href]
    exact hfull v hv
  have hfew1 : ∀ f, s1.refcount f + hits s1 d (pagesOf 0 sz) f < 256 := fun f => by
    rw [href, hits_congr fun v _ => congrFun hpted v]
    exact hfew f
  have hframes : ∀ f ∈ c :: (s1.tables c ++ s1.freelist), f ∈ frames := fun f hf =>
    hfree.mem f (hperm.mem_iff.1 hf)
  have hbad1 : ∀ v', v' * pgsize < sz → (s1.pte d v').frame ∉ frames → B := fun v' hv' => by
    rw [hpted]
    exact hbad v' hv'
  have hfreevm : ∀ v t, v ≤ kernpage → (∀ v', v' < v → v' * pgsize < sz) → Copied d c sz v s1 t →
      wp (freevm c) (fun _ u => Undoes d sz s u) (fun _ _ => B) t := fun v t hv hv' h => by
    refine wp_imp (h.freevm_drops hchars hdc hc hv hv' hframes hbad1) ?_
    rintro _ u ⟨hrc, hpar, L, hfr, hL⟩
    obtain rfl := nothing_dropped hfull1 hv' hfew1 hL
    rw [hpted] at hpar
    exact ⟨hfr.trans hperm, hrc.trans href, hpar⟩
  refine wp_imp (copyuvmLoop_copies hdc hc hfull1 hfreevm hbig (.start hchars hpte) (Nat.zero_le _)
    (by rintro _ ⟨⟩)) ?_
  rintro (_ | c') t ⟨-, hres⟩
  · exact hres
  · obtain ⟨rfl, v, hv, hv', h⟩ := hres
    exact hfreevm v t hv (fun v' => (hv' v').1) h

/-- Fork's memory copy undoes exactly, as long as no count comes to 256. -/
theorem copyuvm_undone (d sz : ℕ) (hs : s.Chars) (hfree : FreeList s) (hd : d ∉ s.freelist)
    (hfull : s.Full d sz) (hfew : ∀ f, s.refcount f + hits s d (pagesOf 0 sz) f < 256) :
    (∀ t, copyuvm d sz s = .ok none t → Undoes d sz s t) ∧
    (∀ c t u, copyuvm d sz s = .ok (some c) t → freevm c t = .ok () u → Undoes d sz s u) ∧
    (sz ≤ kernbase → (∀ v, v * pgsize < sz → (s.pte d v).frame ∈ frames) →
      ∃ r t, copyuvm d sz s = .ok r t ∧ ∀ c, r = some c → ∃ u, freevm c t = .ok () u) := by
  refine ⟨fun t hok => ?_, fun c t u hok hok' => ?_, fun hle hpages => ?_⟩
  · exact wp_ok (copyuvm_returns (B := True) hs hfree hd hfull hfew (fun _ _ _ => trivial) fun _ =>
      trivial) hok
  · exact wp_ok (wp_ok (copyuvm_returns (B := True) hs hfree hd hfull hfew
      (fun _ _ _ => trivial) fun _ => trivial)
      hok) hok'
  obtain ⟨r, t, hok, hres⟩ := wp_returns (copyuvm_returns (B := False) hs hfree hd hfull hfew
    (fun v hv hout => hout (hpages v hv)) fun hlt => absurd hlt (not_lt.2 hle))
  refine ⟨r, t, hok, ?_⟩
  rintro c rfl
  obtain ⟨_, u, hok', -⟩ := wp_returns hres
  exact ⟨u, hok'⟩

/-- A frame whose count is zero on the way back is freed. -/
theorem copyuvm_frees {x : ℕ} (hs : s.Chars) (hfree : FreeList s) (hd : d ∉ s.freelist)
    (hfull : s.Full d sz)
    (hsz : sz ≤ nptentries * pgsize) (hroom : Roomy 70 s)
      (hpages : ∀ v, v * pgsize < sz → (s.pte d v).frame ∈ frames)
    (hx : 0 < zeros (toChar (s.refcount x + hits s d (pagesOf 0 sz) x)) (hits s d (pagesOf 0 sz) x)) :
    ∃ c t u, copyuvm d sz s = .ok (some c) t ∧ freevm c t = .ok () u ∧ x ∈ u.freelist := by
  have hrun : wp (copyuvm d sz) (fun r t => ∃ c, r = some c ∧
    wp (freevm c) (fun _ u => x ∈ u.freelist) NoPanic t)
      NoPanic s := by
    rw [copyuvm, wp_bind]
    refine wp_mono (wp_and (setupkvm_books hfree.mem) (setupkvm_total (m := 1) hroom)) ?_
      (fun _ _ hE => hE.1)
    rintro _ s1 ⟨⟨href, -, hres⟩, ⟨c, rfl⟩, hroom1, -⟩
    obtain ⟨hperm, hc, hother, hpte⟩ := hres
    have hdc : d ≠ c := fun heq => hd (hperm.mem_iff.1 (heq ▸ List.mem_cons_self))
    have hpted : s1.pte d = s.pte d := pte_of_pgdir (hother d hdc)
    have hchars : s1.Chars := fun f => by rw [href, hs f]
    have hfull1 : s1.Full d sz := fun v hv => by
      rw [hpted, href]
      exact hfull v hv
    have hframes : ∀ f ∈ c :: (s1.tables c ++ s1.freelist), f ∈ frames := fun f hf =>
      hfree.mem f (hperm.mem_iff.1 hf)
    have hpages1 : ∀ v', v' * pgsize < sz → (s1.pte d v').frame ∉ frames → False :=
      fun v' hv' hout => by
      rw [hpted] at hout
      exact hout (hpages v' hv')
    have hgrants : s1.supply.grants = true := by
      have hlen := hroom1.free
      simp only [Supply.grants, Vm.supply, hroom1.oom]
      simp
      omega
    have hsmall : ¬ kernbase < sz := by
      simp only [nptentries, pgsize, kernbase] at *
      omega
    refine wp_imp (copyuvmLoop_copies (B := False) (P := fun _ => True) hdc hc hfull1
      (fun v t hv hv' h => ?_)
      (fun hlt => hsmall hlt) (.start hchars hpte) (Nat.zero_le _) (by rintro _ ⟨⟩)) ?_
    · exact wp_imp (h.freevm_drops hchars hdc hc hv hv' hframes hpages1) (fun _ _ _ => trivial)
    rintro (_ | c') t ⟨hnone, hres⟩
    · rw [(hnone rfl hsz).2] at hgrants
      cases hgrants
    obtain ⟨rfl, v, hv, hv', h⟩ := hres
    refine ⟨c', rfl, wp_imp (h.freevm_drops hchars hdc hc hv (fun v' => (hv' v').1) hframes hpages1) ?_⟩
    rintro _ u ⟨-, -, L, hfr, hL⟩
    have hhits : hits s1 d (List.range v) x = hits s d (pagesOf 0 sz) x := by
      rw [hits_congr fun v _ => congrFun hpted v]
      refine hits_eq List.nodup_range (nodup_pagesOf ..) (fun v' _ => ?_) x
      rw [List.mem_range, mem_pagesOf, hv']
      exact ⟨fun hlt => ⟨Nat.zero_le _, hlt⟩, fun hlt => hlt.2⟩
    have hcount : 0 < L.count x := by rwa [hL, hhits, href]
    refine hfr.mem_iff.2 (List.mem_cons_of_mem _ (List.mem_append_right _ (List.mem_append_left _ ?_)))
    exact List.count_pos_iff.1 hcount
  obtain ⟨_, t, hok, c, rfl, hres⟩ := wp_returns hrun
  obtain ⟨_, u, hok', hmem⟩ := wp_returns hres
  exact ⟨c, t, u, hok, hok', hmem⟩

end Link

/-! ## A directory that maps one frame `n` times -/

def sharedVm (n : ℕ) : Vm :=
  { Vm.start with
    freelist := List.range' 1024 100
    refcount := fun f => if f = 3000 then 1 else 0
    pgdir := fun d => if d = 2000 then some fun i => if i = 0 then
      some ⟨2001, fun j => if j < n then ⟨3000, true, true, true⟩ else .zero⟩ else none else none }

theorem sharedVm_pte {n v : ℕ} (hv : v < n) (hn : n ≤ nptentries) :
    (sharedVm n).pte 2000 v = ⟨3000, true, true, true⟩ := by
  have hdiv : v / nptentries = 0 := by
    simp only [nptentries] at *
    omega
  have hmod : v % nptentries = v := Nat.mod_eq_of_lt (by omega)
  have htab : (sharedVm n).tab 2000 (v / nptentries) = if v / nptentries = 0 then
      some ⟨2001, fun j => if j < n then ⟨3000, true, true, true⟩ else .zero⟩ else none := rfl
  rw [Vm.pte, htab, if_pos hdiv]
  simp only [hmod, hv, if_true]

theorem sharedVm_chars (n : ℕ) : (sharedVm n).Chars := fun f => by
  show toChar (if f = 3000 then 1 else 0) = if f = 3000 then 1 else 0
  split_ifs <;> rfl

theorem sharedVm_freeList (n : ℕ) : FreeList (sharedVm n) :=
    ⟨roomyVm_freeList.nodup, roomyVm_freeList.mem⟩

theorem sharedVm_not_free (n : ℕ) : 2000 ∉ (sharedVm n).freelist := by
  show 2000 ∉ List.range' 1024 100
  decide

theorem sharedVm_page {n v : ℕ} (hn : n ≤ nptentries) (hv : v * pgsize < n * pgsize) :
    (sharedVm n).pte 2000 v = ⟨3000, true, true, true⟩ :=
  sharedVm_pte (Nat.lt_of_mul_lt_mul_right hv) hn

theorem sharedVm_full {n : ℕ} (hn : n ≤ nptentries) : (sharedVm n).Full 2000 (n * pgsize) :=
    fun v hv => by
  rw [sharedVm_page hn hv]
  exact ⟨rfl, Int.one_pos⟩

theorem sharedVm_frames {n : ℕ} (hn : n ≤ nptentries) (v : ℕ) (hv : v * pgsize < n * pgsize) :
    ((sharedVm n).pte 2000 v).frame ∈ frames := by
  rw [sharedVm_page hn hv]
  exact ⟨by decide, by decide⟩

/-- A copy of one page. -/
theorem copyuvm_undone_sharedVm : (sharedVm 1).Chars ∧ FreeList (sharedVm 1) ∧
    2000 ∉ (sharedVm 1).freelist ∧ (sharedVm 1).Full 2000 (1 * pgsize) ∧
    (∀ f, (sharedVm 1).refcount f + hits (sharedVm 1) 2000 (pagesOf 0 (1 * pgsize)) f < 256) ∧
    ∃ r t, copyuvm 2000 (1 * pgsize) (sharedVm 1) = .ok r t ∧
      (r = none → Undoes 2000 (1 * pgsize) (sharedVm 1) t) ∧
      ∀ c, r = some c → ∃ u, freevm c t = .ok () u ∧ Undoes 2000 (1 * pgsize) (sharedVm 1) u := by
  have hfew : ∀ f, (sharedVm 1).refcount f + hits (sharedVm 1) 2000
    (pagesOf 0 (1 * pgsize)) f < 256 := fun f => by
    have hle : hits (sharedVm 1) 2000 (pagesOf 0 (1 * pgsize)) f ≤ 1 := List.countP_le_length
    have hcount : (sharedVm 1).refcount f ≤ 127 := ((sharedVm_chars 1).le f).2
    omega
  have hfull := sharedVm_full (n := 1) (by decide)
  obtain ⟨hnone, hsome, hret⟩ := copyuvm_undone 2000 (1 * pgsize) (sharedVm_chars 1)
    (sharedVm_freeList 1) (sharedVm_not_free 1) hfull hfew
  obtain ⟨r, t, hok, hfreevm⟩ := hret (by decide) (sharedVm_frames (by decide))
  refine ⟨sharedVm_chars 1, sharedVm_freeList 1, sharedVm_not_free 1, hfull, hfew, r, t, hok,
    fun hr => ?_, fun c hr => ?_⟩
  · exact hnone t (hr ▸ hok)
  · obtain ⟨u, hok'⟩ := hfreevm c hr
    exact ⟨u, hok', hsome c t u (hr ▸ hok) hok'⟩

/-- A frame that the directory maps 256 times and that is counted once is freed. -/
theorem copyuvm_frees_shared : ∃ c t u, copyuvm 2000 (256 * pgsize) (sharedVm 256) = .ok (some c) t ∧
    freevm c t = .ok () u ∧ (sharedVm 256).Full 2000 (256 * pgsize) ∧ 3000 ∉ (sharedVm 256).freelist ∧
    3000 ∈ u.freelist := by
  have hle : 256 ≤ nptentries := by decide
  have hhits : hits (sharedVm 256) 2000 (pagesOf 0 (256 * pgsize)) 3000 = 256 := by decide +kernel
  obtain ⟨c, t, u, hok, hok', hmem⟩ := copyuvm_frees (x := 3000) (sharedVm_chars 256)
    (sharedVm_freeList 256)
    (sharedVm_not_free 256) (sharedVm_full hle) (by decide) ⟨rfl, by decide⟩ (sharedVm_frames hle)
    (by rw [hhits]; decide +kernel)
  refine ⟨c, t, u, hok, hok', sharedVm_full hle, ?_, hmem⟩
  show 3000 ∉ List.range' 1024 100
  decide

end Xv6

import Xv6Cow.Vm.Kvm

/-!
# What `deallocuvm` does, from any state

No invariant is assumed here: the page tables of the directory may be present in any pattern, and a
frame may be mapped any number of times.  Where the page table of the first page is missing the loop goes on a whole table further, at the
same index of the next table: the pages before it (`Skipped`) are not looked at.
-/

namespace Xv6

open Function Lts Prog

variable {s t : Vm} {d v f sz : ℕ}

/-! ## The loop as a fold -/

/-- The body of the loop for a page whose page table exists. -/
def unmapPage (d : ℕ) (s : Vm) (v : ℕ) : Vm :=
  if (s.pte d v).p then
    let f := (s.pte d v).frame
    let s1 := s.addRef f (-1)
    (if s1.refcount f = 0 then s1.freed f else s1).setPte d v .zero
  else s

/-- The page table with index `i` is present. -/
def Vm.hasTab (s : Vm) (d i : ℕ) : Bool := (s.tabFrame d i).isSome

/-- The pages from `v` on, below address `sz`, whose entries the loop looks at. -/
def visited (tab : ℕ → Bool) (sz v : ℕ) : List ℕ :=
  if v * pgsize < sz then
    if tab (v / nptentries) then v :: visited tab sz (v + 1)
    else visited tab sz (v + (nptentries - 1) + 1)
  else []
termination_by sz - v * pgsize
decreasing_by all_goals
  simp only [pgsize, nptentries] at *
  omega

/-- Page `v'` lies in the first page table that exists after that of `v`, which does not, at a
smaller index than `v` has in its own. -/
def Skipped (tab : ℕ → Bool) (v v' : ℕ) : Prop :=
  v / nptentries < v' / nptentries ∧ (∀ i, v / nptentries ≤ i → i < v' / nptentries → tab i = false) ∧
    v' % nptentries < v % nptentries

theorem hasTab_iff (s : Vm) (d i : ℕ) : s.hasTab d i = true ↔ s.tab d i ≠ none := by
  rw [Vm.hasTab, Vm.tabFrame, Option.isSome_map, Option.isSome_iff_ne_none]

theorem mem_visited (tab : ℕ → Bool) (sz v v' : ℕ) : v' ∈ visited tab sz v ↔
    v ≤ v' ∧ v' * pgsize < sz ∧ tab (v' / nptentries) = true ∧ ¬ Skipped tab v v' := by
  rw [visited]
  split_ifs with hlt htab
  · rw [List.mem_cons, mem_visited tab sz (v + 1) v']
    -- the table of `v` exists, so nothing is skipped from `v` on, nor from `v + 1` on
    have hno : ¬ Skipped tab v v' := fun h => by
      have hfalse := h.2.1 _ le_rfl h.1
      rw [htab] at hfalse
      cases hfalse
    have hno' : ¬ Skipped tab (v + 1) v' := fun h => by
      obtain ⟨h1, h2, h3⟩ := h
      have hsame : (v + 1) / nptentries = v / nptentries := by
        simp only [nptentries] at *
        omega
      have hfalse := h2 _ le_rfl h1
      rw [hsame, htab] at hfalse
      cases hfalse
    constructor
    · rintro (rfl | ⟨hle, hlt', htab', -⟩)
      · exact ⟨le_rfl, hlt, htab, hno⟩
      · exact ⟨by omega, hlt', htab', hno⟩
    rintro ⟨hle, hlt', htab', -⟩
    by_cases heq : v' = v
    · exact .inl heq
    · exact .inr ⟨by omega, hlt', htab', hno'⟩
  · rw [mem_visited tab sz (v + (nptentries - 1) + 1) v']
    have hfalse : tab (v / nptentries) = false := by simpa using htab
    have hdiv : (v + (nptentries - 1) + 1) / nptentries = v / nptentries + 1 := by
      simp only [nptentries]
      omega
    have hmod : (v + (nptentries - 1) + 1) % nptentries = v % nptentries := by
      simp only [nptentries]
      omega
    unfold Skipped
    rw [hdiv, hmod]
    constructor
    · rintro ⟨hle, hlt', htab', hno⟩
      refine ⟨by omega, hlt', htab', ?_⟩
      rintro ⟨h1, h2, h3⟩
      refine hno ⟨?_, fun i hi hi' => h2 i (by omega) hi', h3⟩
      -- `v'` is past the next table's start, and its index is smaller: it is in a later table
      simp only [nptentries] at *
      omega
    · rintro ⟨hle, hlt', htab', hno⟩
      have hne : v' / nptentries ≠ v / nptentries := fun heq => by
        rw [heq, hfalse] at htab'
        cases htab'
      have hgt : v / nptentries < v' / nptentries := by
        have := Nat.div_le_div_right (c := nptentries) hle
        omega
      have hnot : ∀ h2 : ∀ i, v / nptentries ≤ i → i < v' / nptentries → tab i = false,
          v % nptentries ≤ v' % nptentries := fun h2 => by
        by_contra hlt''
        exact hno ⟨hgt, h2, by omega⟩
      refine ⟨?_, hlt', htab', ?_⟩
      · by_cases hnext : v' / nptentries = v / nptentries + 1
        · have hmod' := hnot fun i hi hi' => by
            obtain rfl : i = v / nptentries := by omega
            exact hfalse
          simp only [nptentries] at *
          omega
        · simp only [nptentries] at *
          omega
      · rintro ⟨h1, h2, h3⟩
        have hmod' := hnot fun i hi hi' => by
          by_cases heq : i = v / nptentries
          · rw [heq, hfalse]
          · exact h2 i (by omega) hi'
        omega
  · constructor
    · rintro ⟨⟩
    · rintro ⟨hle, hlt', -⟩
      simp only [pgsize] at *
      omega
termination_by sz - v * pgsize
decreasing_by all_goals
  simp only [pgsize, nptentries] at *
  omega

theorem nodup_visited (tab : ℕ → Bool) (sz v : ℕ) : (visited tab sz v).Nodup := by
  rw [visited]
  split_ifs with hlt htab
  · refine List.nodup_cons.2 ⟨fun hmem => ?_, nodup_visited tab sz (v + 1)⟩
    have hle := ((mem_visited tab sz (v + 1) v).1 hmem).1
    omega
  · exact nodup_visited tab sz (v + (nptentries - 1) + 1)
  · exact .nil
termination_by sz - v * pgsize
decreasing_by all_goals
  simp only [pgsize, nptentries] at *
  omega

theorem tabFrame_unmapPage (d : ℕ) (s : Vm) (v : ℕ) : (unmapPage d s v).tabFrame = s.tabFrame := by
  simp only [unmapPage]
  split_ifs
  · rw [Vm.tabFrame_setPte, Vm.tabFrame_freed, Vm.tabFrame_addRef]
  · rw [Vm.tabFrame_setPte, Vm.tabFrame_addRef]
  · rfl

theorem pte_unmapPage (d : ℕ) (s : Vm) (v d' v' : ℕ) : (unmapPage d s v).pte d' v' =
    if d' = d ∧ v' = v ∧ (s.pte d v).p = true then .zero else s.pte d' v' := by
  simp only [unmapPage]
  by_cases hp : (s.pte d v).p = true
  · have htab : s.tab d (v / nptentries) ≠ none := Vm.tab_of_pte hp
    simp only [hp, if_true, and_true]
    by_cases hz : (s.addRef (s.pte d v).frame (-1)).refcount (s.pte d v).frame = 0
    · rw [if_pos hz, Vm.pte_setPte (by exact htab)]
      rfl
    · rw [if_neg hz, Vm.pte_setPte (by exact htab)]
      rfl
  · simp only [hp, Bool.false_eq_true, if_false, and_false]

theorem live_unmapPage (d : ℕ) (s : Vm) (v : ℕ) : (unmapPage d s v).live = s.live := by
  simp only [unmapPage]
  split_ifs
  · rw [Vm.live_setPte, Vm.live_freed, Vm.live_addRef]
  · rw [Vm.live_setPte, Vm.live_addRef]
  · rfl

/-! ## Counts -/

/-- The number of pages of the list that `d` maps to frame `f`. -/
def hits (s : Vm) (d : ℕ) (l : List ℕ) (f : ℕ) : ℕ :=
  l.countP fun v => (s.pte d v).p && (s.pte d v).frame == f

/-- How often a `char` that starts at `c` is zero while it is decremented `n` times. -/
def zeros (c : ℤ) (n : ℕ) : ℕ := (List.range n).countP fun j : ℕ => toChar (c - (j + 1)) = 0

/-- The counts are `char`s. -/
def Vm.Chars (s : Vm) : Prop := ∀ f, toChar (s.refcount f) = s.refcount f

theorem toChar_add (a b : ℤ) : toChar (toChar a + b) = toChar (a + b) := by
  unfold toChar
  omega

theorem toChar_toChar (a : ℤ) : toChar (toChar a) = toChar a := by
  unfold toChar
  omega

theorem zeros_succ (c : ℤ) (n : ℕ) : zeros c (n + 1) =
    (if toChar (c - 1) = 0 then 1 else 0) + zeros (toChar (c - 1)) n := by
  have hshift : ∀ j : ℕ, toChar (c - ((j + 1 : ℕ) + 1)) = toChar
    (toChar (c - 1) - (j + 1)) := fun j => by
    rw [sub_eq_add_neg (toChar (c - 1)), toChar_add]
    congr 1
    push_cast
    ring
  unfold zeros
  rw [List.range_succ_eq_map, List.countP_cons, List.countP_map, add_comm]
  congr 1
  · simp
  · refine List.countP_congr fun j _ => ?_
    simp only [comp_apply, Nat.succ_eq_add_one, hshift]

/-- A count that is not decremented below minus 128 is zero at most once. -/
theorem zeros_eq {c : ℤ} {n : ℕ} (hc : 0 < c) (hc' : c ≤ 127) (hn : n ≤ c + 128) :
    zeros c n = if c ≤ n then 1 else 0 := by
  induction n with
  | zero =>
    rw [if_neg (by push_cast; omega)]
    rfl
  | succ n ih =>
    have hlast : toChar (c - (n + 1)) = 0 ↔ c = n + 1 := by
      unfold toChar
      push_cast at hn
      omega
    have hsucc : zeros c (n + 1) = zeros c n + if toChar (c - (n + 1)) = 0 then 1 else 0 := by
      unfold zeros
      rw [List.range_succ, List.countP_append]
      simp [List.countP_cons]
    rw [hsucc, ih (by push_cast at hn; omega)]
    push_cast
    split_ifs <;> omega

/-- What is left of `s` when the pages of the list are unmapped in `d`; the frames of `L` went to
the free list. -/
structure Dropped (d : ℕ) (l : List ℕ) (s t : Vm) (L : List ℕ) : Prop where
  pte : ∀ d' v', t.pte d' v' = if d' = d ∧ v' ∈ l ∧ (s.pte d v').p = true then .zero else s.pte d' v'
  tabFrame : t.tabFrame = s.tabFrame
  live : t.live = s.live
  other : ∀ y, y ≠ d → t.pgdir y = s.pgdir y
  refcount : ∀ f, t.refcount f = toChar (s.refcount f - hits s d l f)
  freelist : t.freelist = L ++ s.freelist
  count : ∀ f, L.count f = zeros (s.refcount f) (hits s d l f)
  mem : ∀ f, f ∉ L → t.mem f = s.mem f

theorem hits_cons (s : Vm) (d v : ℕ) (l : List ℕ) (f : ℕ) :
    hits s d (v :: l) f = (if (s.pte d v).p = true ∧ (s.pte d v).frame = f then 1 else 0) +
      hits s d l f := by
  rw [hits, List.countP_cons, add_comm]
  congr 1
  simp only [Bool.and_eq_true, beq_iff_eq]

theorem hits_congr {l : List ℕ} (h : ∀ v ∈ l, t.pte d v = s.pte d v) (f : ℕ) :
  hits t d l f = hits s d l f := List.countP_congr fun v hv => by rw [h v hv]

theorem dropped_unmapPage (hs : s.Chars) (d v : ℕ) : (unmapPage d s v).Chars ∧
    ∃ L, Dropped d [v] s (unmapPage d s v) L := by
  have hpte := pte_unmapPage d s v
  have hpte' : ∀ d' v', (unmapPage d s v).pte d' v' =
      if d' = d ∧ v' ∈ [v] ∧ (s.pte d v').p = true then .zero else s.pte d' v' := fun d' v' => by
    rw [hpte]
    by_cases hv : v' = v
    · simp only [hv, List.mem_singleton, true_and]
    · simp only [hv, List.mem_singleton, false_and, and_false]
  have hhits : ∀ f, hits s d [v] f = if (s.pte d v).p = true ∧ (s.pte d v).frame = f then 1 else 0 :=
    fun f => by
      rw [hits_cons]
      rfl
  by_cases hp : (s.pte d v).p = true
  · have href : ∀ f, (unmapPage d s v).refcount f = toChar
      (s.refcount f - hits s d [v] f) := fun f => by
      have haddr : (unmapPage d s v).refcount f = (s.addRef (s.pte d v).frame (-1)).refcount f := by
        simp only [unmapPage, hp, if_true]
        split_ifs <;> rw [Vm.setPte_refcount]
        rfl
      rw [haddr, hhits]
      by_cases hf : (s.pte d v).frame = f
      · subst hf
        simp only [Vm.addRef, update_self, hp, true_and, if_true]
        rfl
      · simp only [Vm.addRef, update_of_ne (Ne.symm hf), hf, and_false, if_false]
        rw [Nat.cast_zero, sub_zero, hs f]
    have hdec : (s.addRef (s.pte d v).frame (-1)).refcount (s.pte d v).frame =
        toChar (s.refcount (s.pte d v).frame - 1) := by
      simp only [Vm.addRef, update_self]
      rfl
    have hz : ∀ f, zeros (s.refcount f) (hits s d [v] f) =
        if (s.pte d v).frame = f ∧ toChar (s.refcount f - 1) = 0 then 1 else 0 := fun f => by
      rw [hhits]
      simp only [hp, true_and]
      by_cases hf : (s.pte d v).frame = f
      · simp only [hf, if_true, zeros_succ, true_and]
        exact add_zero _
      · simp only [hf, if_false, false_and]
        rfl
    refine ⟨fun f => by rw [href, toChar_toChar], ?_⟩
    by_cases hzero : (s.addRef (s.pte d v).frame (-1)).refcount (s.pte d v).frame = 0
    · have heq : unmapPage d s v = ((s.addRef (s.pte d v).frame (-1)).freed
        (s.pte d v).frame).setPte d v .zero := by
        simp only [unmapPage, hp, if_true, hzero]
      refine ⟨[(s.pte d v).frame], hpte', tabFrame_unmapPage .., live_unmapPage .., fun y hy =>
        ?_, href, ?_, fun f => ?_, fun f hf => ?_⟩
      · rw [heq, pgdir_setPte _ hy]
        rfl
      · rw [heq, Vm.setPte_freelist]
        rfl
      · rw [hz, List.count_singleton]
        rw [hdec] at hzero
        by_cases hf : (s.pte d v).frame = f
        · subst hf
          simp [hzero]
        · simp [hf]
      · rw [heq, Vm.setPte_mem]
        exact update_of_ne (fun h => hf (by simp [h])) _ _
    · have heq : unmapPage d s v = (s.addRef (s.pte d v).frame (-1)).setPte d v .zero := by
        simp only [unmapPage, hp, if_true, hzero, if_false]
      refine ⟨[], hpte', tabFrame_unmapPage .., live_unmapPage .., fun y hy => ?_, href, ?_,
        fun f => ?_, fun f _ => ?_⟩
      · rw [heq, pgdir_setPte _ hy]
        rfl
      · rw [heq, Vm.setPte_freelist]
        rfl
      · rw [hz, if_neg]
        · rfl
        · rintro ⟨rfl, hf⟩
          exact hzero (hdec.trans hf)
      · rw [heq, Vm.setPte_mem]
        rfl
  · have heq : unmapPage d s v = s := by
      simp only [unmapPage, hp, Bool.false_eq_true, if_false]
    have hnone : ∀ f, hits s d [v] f = 0 := fun f => by
      rw [hhits, if_neg (fun h => hp h.1)]
    refine ⟨by rwa [heq], [], hpte', tabFrame_unmapPage .., live_unmapPage .., fun y _ => by rw [heq],
      fun f => ?_, by rw [heq]; rfl, fun f => ?_, fun f _ => by rw [heq]⟩
    · rw [heq, hnone, Nat.cast_zero, sub_zero, hs f]
    · rw [hnone]
      rfl

theorem Dropped.trans {u : Vm} {l L L' : List ℕ} (h : Dropped d [v] s t L) (h' : Dropped d l t u L')
    (hs : s.Chars) (hv : v ∉ l) : Dropped d (v :: l) s u (L' ++ L) := by
  have hsame : ∀ v' ∈ l, t.pte d v' = s.pte d v' := fun v' hv' => by
    have hne : v' ≠ v := fun heq => hv (heq ▸ hv')
    rw [h.pte, if_neg]
    simp [hne]
  have hhits : ∀ f, hits s d (v :: l) f = hits s d [v] f + hits t d l f := fun f => by
    rw [hits_congr hsame, hits_cons, hits_cons]
    rfl
  have hone : ∀ f, hits s d [v] f ≤ 1 := fun f => List.countP_le_length
  refine ⟨fun d' v' => ?_, h'.tabFrame.trans h.tabFrame, h'.live.trans h.live,
    fun y hy => (h'.other y hy).trans (h.other y hy), fun f => ?_, ?_, fun f => ?_, fun f hf => ?_⟩
  · rw [h'.pte]
    by_cases hd : d' = d
    · subst hd
      by_cases hmem : v' ∈ l
      · have hne : v' ≠ v := fun heq => hv (heq ▸ hmem)
        simp [hmem, hne, hsame v' hmem]
      · rw [h.pte]
        simp [hmem]
    · simp [hd, h.pte d' v']
  · rw [h'.refcount, h.refcount, sub_eq_add_neg, toChar_add, hhits]
    congr 1
    push_cast
    ring
  · rw [h'.freelist, h.freelist, List.append_assoc]
  · rw [List.count_append, h'.count, h.count, h.refcount, hhits]
    rcases Nat.le_one_iff_eq_zero_or_eq_one.1 (hone f) with hzero | hone
    · rw [hzero, Nat.cast_zero, sub_zero, hs f, zero_add]
      exact add_zero _
    · rw [hone, Nat.add_comm 1, zeros_succ, zeros_succ, add_comm, Nat.cast_one]
      exact congrArg (· + _) (add_zero _)
  · obtain ⟨hf', hf⟩ := not_or.1 (mt List.mem_append.2 hf)
    rw [h'.mem f hf', h.mem f hf]

theorem dropped_foldl (l : List ℕ) : ∀ {s : Vm}, l.Nodup → s.Chars →
    ∃ L, Dropped d l s (l.foldl (unmapPage d) s) L := by
  induction l with
  | nil =>
    intro s _ hs
    refine ⟨[], fun d' v' => ?_, rfl, rfl, fun _ _ => rfl, fun f => ?_, rfl, fun f => rfl,
      fun f _ => rfl⟩
    · simp
    · rw [hits, List.countP_nil, Nat.cast_zero, sub_zero, hs f]
      rfl
  | cons v l ih =>
    intro s hl hs
    obtain ⟨hv, hl⟩ := List.nodup_cons.1 hl
    obtain ⟨hs1, L, hL⟩ := dropped_unmapPage hs d v
    obtain ⟨L', hL'⟩ := ih hl hs1
    exact ⟨L' ++ L, hL.trans hL' hs hv⟩

/-! ## `deallocuvm` -/

section Link

variable [Link]

theorem zero_not_mem_frames : 0 ∉ frames := by
  have h1 := Link.kernlink_lt_data
  have h2 := Link.data_le_kend
  rintro ⟨h3, -⟩
  simp only [firstFrame, v2p, kernlink, kernbase, extmem, pgsize] at *
  omega

/-- The loop unmaps the pages it looks at. -/
theorem deallocuvmLoop_visits {B : Prop} {s : Vm} {v : ℕ}
    (hbad : ∀ v', v ≤ v' → v' * pgsize < sz → (s.pte d v').p = true → (s.pte d v').frame ∉ frames → B) :
    wp (deallocuvmLoop d sz v) (fun _ t => t = (visited (s.hasTab d) sz v).foldl (unmapPage d) s)
      (fun _ _ => B) s := by
  rw [deallocuvmLoop, visited]
  split_ifs with hlt htab
  · have hsome : (s.tab d (v / nptentries)).isSome = true :=
      Option.isSome_iff_ne_none.2 ((hasTab_iff ..).1 htab)
    -- page `v` is unmapped, and the page tables are what they were
    have hrest : ∀ s1, s1 = unmapPage d s v → wp (deallocuvmLoop d sz (v + 1))
        (fun _ t => t = (v :: visited (s.hasTab d) sz (v + 1)).foldl (unmapPage d) s)
        (fun _ _ => B) s1 := by
      rintro s1 rfl
      have htabs : (unmapPage d s v).hasTab d = s.hasTab d := by
        unfold Vm.hasTab
        rw [tabFrame_unmapPage]
      have hbad' : ∀ v', v + 1 ≤ v' → v' * pgsize < sz → ((unmapPage d s v).pte d v').p = true →
          ((unmapPage d s v).pte d v').frame ∉ frames → B := fun v' hle hlt' => by
        rw [pte_unmapPage, if_neg (by omega)]
        exact hbad v' (by omega) hlt'
      refine wp_imp (deallocuvmLoop_visits hbad') ?_
      rintro _ t rfl
      rw [htabs]
      rfl
    simp only [wp_bind, wp_walkpgdir_false, hsome, if_true, wp_get, wp_ite, wp_throw, wp_addRef]
    by_cases hp : (s.pte d v).p = true
    · rw [if_pos hp]
      by_cases hf : (s.pte d v).frame ∈ frames
      · have h0 : (s.pte d v).frame ≠ 0 := fun h0 => zero_not_mem_frames (h0 ▸ hf)
        rw [if_neg h0]
        split_ifs with hz
        · rw [wp_kfree hf, wp_modify]
          exact hrest _ (by simp only [unmapPage, hp, if_true, hz])
        · rw [wp_modify]
          exact hrest _ (by simp only [unmapPage, hp, if_true, hz, if_false])
      · have hB := hbad v le_rfl hlt hp hf
        split_ifs with h0 hz
        · exact hB
        · unfold kfree
          rw [wp_ite]
          split_ifs
          · exact hB
          · rw [wp_modify, wp_modify]
            exact hrest _ (by simp only [unmapPage, hp, if_true, hz])
        · rw [wp_modify]
          exact hrest _ (by simp only [unmapPage, hp, if_true, hz, if_false])
    · rw [if_neg hp]
      exact hrest _ (by simp only [unmapPage, hp, Bool.false_eq_true, if_false])
  · have hnone : (s.tab d (v / nptentries)).isSome = false := by
      rw [← Bool.not_eq_true, Option.isSome_iff_ne_none, ← hasTab_iff]
      exact htab
    simp only [wp_bind, wp_walkpgdir_false, hnone, Bool.false_eq_true, if_false]
    exact deallocuvmLoop_visits fun v' hle => hbad v' (by omega)
  · rfl
termination_by sz - v * pgsize
decreasing_by all_goals
  simp only [pgsize, nptentries] at *
  omega

/-- The pages of `[PGROUNDUP(newsz), oldsz)`. -/
def pagesOf (newsz oldsz : ℕ) : List ℕ :=
  List.range' (pgroundup newsz) ((oldsz + pgsize - 1) / pgsize - pgroundup newsz)

omit [Link] in
theorem mem_pagesOf {newsz oldsz : ℕ} : v ∈ pagesOf newsz oldsz ↔ pgroundup newsz ≤ v ∧
    v * pgsize < oldsz := by
  rw [pagesOf, List.mem_range'_1]
  simp only [pgsize]
  omega

omit [Link] in
theorem nodup_pagesOf (newsz oldsz : ℕ) : (pagesOf newsz oldsz).Nodup := List.nodup_range'

/-- What `deallocuvm` is to do. -/
structure Emptied (d newsz oldsz : ℕ) (s t : Vm) : Prop where
  gone : ∀ v ∈ pagesOf newsz oldsz, (t.pte d v).p = false
  kept : ∀ d' v', ¬ (d' = d ∧ v' ∈ pagesOf newsz oldsz) → t.pte d' v' = s.pte d' v'
  count : ∀ f, t.refcount f = s.refcount f - hits s d (pagesOf newsz oldsz) f
  freed : ∃ L, t.freelist = L ++ s.freelist ∧ L.Nodup ∧
    ∀ f, f ∈ L ↔ ∃ k : ℕ, 0 < k ∧ k ≤ hits s d (pagesOf newsz oldsz) f ∧ s.refcount f - k = 0

omit [Link] in
theorem hits_eq {l l' : List ℕ} (hl : l.Nodup) (hl' : l'.Nodup)
    (h : ∀ v, (s.pte d v).p = true → (v ∈ l ↔ v ∈ l')) (f : ℕ) : hits s d l f = hits s d l' f := by
  rw [hits, hits, List.countP_eq_length_filter, List.countP_eq_length_filter]
  refine ((List.perm_ext_iff_of_nodup (hl.filter _) (hl'.filter _)).2 fun v => ?_).length_eq
  simp only [List.mem_filter, Bool.and_eq_true]
  constructor
  · rintro ⟨hmem, hp, hf⟩
    exact ⟨(h v hp).1 hmem, hp, hf⟩
  · rintro ⟨hmem, hp, hf⟩
    exact ⟨(h v hp).2 hmem, hp, hf⟩

omit [Link] in
theorem Vm.Chars.le (hs : s.Chars) (f : ℕ) : -128 ≤ s.refcount f ∧ s.refcount f ≤ 127 := by
  have hf := hs f
  unfold toChar at hf
  omega

omit [Link] in
theorem emptied_of_dropped {newsz oldsz : ℕ} {L : List ℕ} (hs : s.Chars)
    (hpos : ∀ v ∈ pagesOf newsz oldsz, (s.pte d v).p = true → 0 < s.refcount (s.pte d v).frame)
    (h : Dropped d (visited (s.hasTab d) oldsz (pgroundup newsz)) s t L)
    (hskip : ∀ v ∈ pagesOf newsz oldsz, Skipped (s.hasTab d) (pgroundup newsz) v →
      (s.pte d v).p = false)
    (hfew : ∀ f, hits s d (pagesOf newsz oldsz) f ≤ s.refcount f + 128) :
      Emptied d newsz oldsz s t := by
  have hmem : ∀ v, (s.pte d v).p = true →
      (v ∈ visited (s.hasTab d) oldsz (pgroundup newsz) ↔ v ∈ pagesOf newsz oldsz) := fun v hp => by
    have htab : s.hasTab d (v / nptentries) = true := (hasTab_iff ..).2 (Vm.tab_of_pte hp)
    rw [mem_visited, mem_pagesOf]
    constructor
    · rintro ⟨hle, hlt, -⟩
      exact ⟨hle, hlt⟩
    rintro ⟨hle, hlt⟩
    refine ⟨hle, hlt, htab, fun hsk => ?_⟩
    rw [hskip v (mem_pagesOf.2 ⟨hle, hlt⟩) hsk] at hp
    cases hp
  have hhits : ∀ f, hits s d (visited (s.hasTab d) oldsz (pgroundup newsz)) f =
      hits s d (pagesOf newsz oldsz) f := hits_eq (nodup_visited ..) (nodup_pagesOf ..) hmem
  have hcpos : ∀ f, 0 < hits s d (pagesOf newsz oldsz) f → 0 < s.refcount f := fun f hhit => by
    obtain ⟨v, hv, hp⟩ := List.countP_pos_iff.1 hhit
    simp only [Bool.and_eq_true, beq_iff_eq] at hp
    exact hp.2 ▸ hpos v hv hp.1
  have hzeros : ∀ f, L.count f = if 0 < hits s d (pagesOf newsz oldsz) f ∧
      s.refcount f ≤ hits s d (pagesOf newsz oldsz) f then 1 else 0 := fun f => by
    rw [h.count, hhits]
    rcases Nat.eq_zero_or_pos (hits s d (pagesOf newsz oldsz) f) with hzero | hhit
    · rw [hzero]
      rfl
    · rw [zeros_eq (hcpos f hhit) (hs.le f).2 (hfew f)]
      simp only [hhit, true_and]
  refine ⟨fun v hv => ?_, fun d' v' hout => ?_, fun f => ?_, L, h.freelist, ?_, fun f => ?_⟩
  · rw [h.pte]
    by_cases hp : (s.pte d v).p = true
    · rw [if_pos ⟨rfl, (hmem v hp).2 hv, hp⟩]
      rfl
    · rw [if_neg (fun hc => hp hc.2.2)]
      simpa using hp
  · rw [h.pte, if_neg]
    rintro ⟨rfl, hv', hp⟩
    exact hout ⟨rfl, (hmem v' hp).1 hv'⟩
  · have hf := hfew f
    have hc := hs.le f
    rw [h.refcount, hhits]
    exact toChar_of_mem (by omega) (by omega)
  · refine List.nodup_iff_count_le_one.2 fun f => ?_
    rw [hzeros]
    split_ifs <;> omega
  · rw [← List.count_pos_iff, hzeros]
    constructor
    · intro hcount
      split_ifs at hcount with hc
      · have hpos' := hcpos f hc.1
        exact ⟨(s.refcount f).toNat, by omega, by omega, by omega⟩
      · omega
    · rintro ⟨k, hk, hle, heq⟩
      rw [if_pos ⟨by omega, by omega⟩]
      exact Nat.one_pos

/-- `deallocuvm` returns if `kfree` takes the frames of the range, and it empties the range if and
only if none of the pages it skips is present (and no count falls below what a `char` holds). -/
theorem deallocuvm_empties (d newsz oldsz : ℕ) (hs : s.Chars) (hlt : newsz < oldsz)
    (hle : oldsz ≤ kernbase)
    (hpos : ∀ v, v < kernpage → (s.pte d v).p = true → 0 < s.refcount (s.pte d v).frame) :
    ((∀ v ∈ pagesOf newsz oldsz, (s.pte d v).p = true → (s.pte d v).frame ∈ frames) →
      ∃ t, deallocuvm d oldsz newsz s = .ok newsz t) ∧
    ∀ r t, deallocuvm d oldsz newsz s = .ok r t → (Emptied d newsz oldsz s t ↔
      (∀ v ∈ pagesOf newsz oldsz, Skipped (s.hasTab d) (pgroundup newsz) v → (s.pte d v).p = false) ∧
      ∀ f, hits s d (pagesOf newsz oldsz) f ≤ s.refcount f + 128) := by
  have hrun : wp (deallocuvm d oldsz newsz) (fun r t => r = newsz ∧
      ∃ L, Dropped d (visited (s.hasTab d) oldsz (pgroundup newsz)) s t L)
      (fun _ _ => ¬ ∀ v ∈ pagesOf newsz oldsz, (s.pte d v).p = true →
        (s.pte d v).frame ∈ frames) s := by
    rw [deallocuvm, if_neg (by omega), wp_bind]
    refine wp_imp (deallocuvmLoop_visits fun v' hv hv' hp hf hall => ?_) ?_
    · exact hf (hall v' (mem_pagesOf.2 ⟨hv, hv'⟩) hp)
    · rintro _ t rfl
      exact ⟨rfl, dropped_foldl _ (nodup_visited ..) hs⟩
  have hpos' : ∀ v ∈ pagesOf newsz oldsz, (s.pte d v).p = true → 0 < s.refcount (s.pte d v).frame :=
    fun v hv hp => hpos v (by
      have hv := (mem_pagesOf.1 hv).2
      simp only [kernbase, kernpage, pgsize] at *
      omega) hp
  constructor
  · intro hall
    obtain ⟨r, t, hok, rfl, -⟩ := wp_returns (wp_mono hrun (fun _ _ => id) fun _ _ hnot => hnot hall)
    exact ⟨t, hok⟩
  intro r t hok
  obtain ⟨-, L, h⟩ := wp_ok hrun hok
  refine ⟨fun he => ?_, fun hx => emptied_of_dropped hs hpos' h hx.1 hx.2⟩
  have hskip : ∀ v ∈ pagesOf newsz oldsz, Skipped (s.hasTab d) (pgroundup newsz) v →
    (s.pte d v).p = false := by
    intro v hv hsk
    have hgone := he.gone v hv
    rw [h.pte, if_neg] at hgone
    · exact hgone
    · rintro ⟨-, hmem, -⟩
      exact ((mem_visited ..).1 hmem).2.2.2 hsk
  refine ⟨hskip, fun f => ?_⟩
  have hcount := he.count f
  have hmod := h.refcount f
  have hchar := toChar_toChar (s.refcount f - hits s d (visited (s.hasTab d) oldsz (pgroundup newsz)) f)
  rw [← hmod, hcount] at hchar
  unfold toChar at hchar
  omega

end Link

/-! ## A directory with a gap -/

/-- Its first page table is missing, and the second has one page. -/
def gapVm : Vm :=
  { Vm.start with
    refcount := fun f => if f = 1024 then 1 else 0
    pgdir := fun d => if d = 2000 then some fun i => if i = 1 then
      some ⟨2001, fun j => if j = 0 then ⟨1024, true, true, true⟩ else .zero⟩ else none else none }

theorem gapVm_chars : gapVm.Chars := fun f => by
  show toChar (if f = 1024 then 1 else 0) = if f = 1024 then 1 else 0
  split_ifs <;> rfl

theorem gapVm_pte (v : ℕ) : gapVm.pte 2000 v = if v =
    1024 then ⟨1024, true, true, true⟩ else .zero := by
  have htab : gapVm.tab 2000 (v / nptentries) = if v / nptentries = 1 then
      some ⟨2001, fun j => if j = 0 then ⟨1024, true, true, true⟩ else .zero⟩ else none := rfl
  have hv : v = 1024 ↔ v / nptentries = 1 ∧ v % nptentries = 0 := by
    simp only [nptentries]
    omega
  rw [Vm.pte, htab]
  by_cases hdiv : v / nptentries = 1
  · by_cases hmod : v % nptentries = 0
    · simp [hv, hdiv, hmod]
    · simp [hv, hdiv, hmod]
  · simp [hv, hdiv]

theorem gapVm_page {v : ℕ} (hp : (gapVm.pte 2000 v).p = true) :
    v = 1024 ∧ (gapVm.pte 2000 v).frame = 1024 := by
  rw [gapVm_pte] at hp ⊢
  split_ifs at hp ⊢ with hv
  · exact ⟨hv, rfl⟩
  · cases hp

theorem gapVm_pos (v : ℕ) (hp : (gapVm.pte 2000 v).p = true) :
    0 < gapVm.refcount (gapVm.pte 2000 v).frame := by
  rw [(gapVm_page hp).2]
  decide

theorem gapVm_frames {v : ℕ} (hp : (gapVm.pte 2000 v).p = true) :
    (gapVm.pte 2000 v).frame ∈ frames := by
  rw [(gapVm_page hp).2]
  exact ⟨by decide, by decide⟩

theorem gapVm_hits {l : List ℕ} (hl : l.Nodup) (f : ℕ) : hits gapVm 2000 l f ≤ 1 := by
  have hle : hits gapVm 2000 l f ≤ l.count 1024 := by
    refine List.countP_mono_left fun v _ hv => ?_
    rw [Bool.and_eq_true] at hv
    rw [(gapVm_page hv.1).1, beq_self_eq_true]
  exact hle.trans (List.nodup_iff_count_le_one.1 hl 1024)

/-- From page 0 on nothing is skipped. -/
theorem deallocuvm_empties_gapVm : gapVm.Chars ∧ 0 < 1025 * pgsize ∧ 1025 * pgsize ≤ kernbase ∧
    (∀ v, v < kernpage → (gapVm.pte 2000 v).p = true → 0 < gapVm.refcount (gapVm.pte 2000 v).frame) ∧
    ∃ t, deallocuvm 2000 (1025 * pgsize) 0 gapVm = .ok 0 t ∧
      Emptied 2000 0 (1025 * pgsize) gapVm t := by
  have hempties := deallocuvm_empties 2000 0 (1025 * pgsize) gapVm_chars (by decide) (by decide)
    fun v _ => gapVm_pos v
  obtain ⟨t, hok⟩ := hempties.1 fun v _ => gapVm_frames
  refine ⟨gapVm_chars, by decide, by decide, fun v _ => gapVm_pos v, t, hok,
    (hempties.2 0 t hok).2 ⟨fun v _ hsk => ?_, fun f => ?_⟩⟩
  · exact absurd hsk.2.2 (Nat.not_lt_zero _)
  have hle := gapVm_hits (nodup_pagesOf 0 (1025 * pgsize)) f
  have hnonneg : 0 ≤ gapVm.refcount f := by
    show (0 : ℤ) ≤ if f = 1024 then 1 else 0
    split_ifs <;> decide
  omega

/-- From page 1 on, page 1024 is skipped. -/
theorem deallocuvm_skips : ∃ t, deallocuvm 2000 (1025 * pgsize) pgsize gapVm = .ok pgsize t ∧
    gapVm.Chars ∧
    (∀ v, v < kernpage → (gapVm.pte 2000 v).p = true → 0 < gapVm.refcount (gapVm.pte 2000 v).frame) ∧
    1024 ∈ pagesOf pgsize (1025 * pgsize) ∧ (t.pte 2000 1024).p = true := by
  have hvisit : visited (gapVm.hasTab 2000) (1025 * pgsize) (pgroundup pgsize) = [] := by
    rw [visited, if_pos (by decide), if_neg (by decide), visited, if_neg (by decide)]
  have hrun : wp (deallocuvm 2000 (1025 * pgsize) pgsize) (fun r t => r = pgsize ∧ t = gapVm)
    NoPanic gapVm := by
    rw [deallocuvm, if_neg (by decide), wp_bind]
    refine wp_imp (deallocuvmLoop_visits fun v _ _ hp hf => hf (gapVm_frames hp)) ?_
    rintro _ t rfl
    rw [hvisit]
    exact ⟨rfl, rfl⟩
  obtain ⟨_, t, hok, rfl, rfl⟩ := wp_returns hrun
  refine ⟨_, hok, gapVm_chars, fun v _ => gapVm_pos v, mem_pagesOf.2 ⟨by decide, by decide⟩, ?_⟩
  rw [gapVm_pte]
  rfl

end Xv6

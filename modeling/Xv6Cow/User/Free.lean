import Xv6Cow.User.Blocks

/-!
# `free` keeps the invariant

The block lies between the free blocks below it, `base` among them, and those above; the loop stops at
the last one below and nowhere else.  Then the block is joined with what it touches.
-/

namespace Xv6.Umalloc

open Prog Clist Tiles

variable {base lo : ℕ} {s t : Heap} {bs l₁ l₂ l₂' : List Block} {b : Block} {pl : List ℕ} {p n : ℕ}

/-! ## The halves of `free` -/

section

variable (h : Inv base lo s (l₁ ++ b :: l₂)) (hb : b.user = some n)
    (hlow : base :: frees l₁ = pl ++ [p])

include h hb hlow

/-- The list on both sides of a block that is not in it. -/
theorem Inv.sides : Seg s.ptr base pl p ∧ Seg s.ptr (s.ptr p) (frees l₂) base := by
  have hring := h.ring
  rw [frees_append, frees_used hb, ← List.cons_append, hlow, List.append_assoc] at hring
  exact seg_middle.1 hring

/-- Only the header of the block is written, and the block may have grown. -/
theorem Inv.cut (hbrk : t.brk = s.brk)
    (hframe : ∀ x, Clear x b.addr → t.ptr x = s.ptr x ∧ t.size x = s.size x) {k : ℕ}
    (hk : 0 < k) (hsize : t.size b.addr = k) (hsuffix : l₂' <:+ l₂)
    (htiled : Tiled Block.addr Block.len (b.addr + 8 * k) l₂' s.brk)
    (hright : Seg s.ptr (t.ptr b.addr) (frees l₂') base) (hapart : Apart l₂')
    (habove : ∀ c ∈ l₂'.head?, c.user ≠ none) : Cut base lo t pl p l₁ ⟨b.addr, k, none⟩ l₂' := by
  obtain ⟨hleft, -⟩ := h.sides hb hlow
  have hl1 := (tiled_middle.1 h.tiled).1
  have hmem : ∀ c ∈ l₁ ++ l₂', c ∈ l₁ ++ l₂ := fun c hc => by
    rcases List.mem_append.1 hc with hc | hc
    · exact List.mem_append_left _ hc
    · exact List.mem_append_right _ (hsuffix.subset hc)
  have hold : ∀ c ∈ l₁ ++ l₂', c ∈ l₁ ++ b :: l₂ := fun c hc => by
    rcases List.mem_append.1 (hmem c hc) with hc | hc <;> simp [hc]
  have hfrees : ∀ x ∈ base :: frees (l₁ ++ l₂'), t.ptr x = s.ptr x := fun x hx => by
    refine (hframe x ?_).1
    rcases List.mem_cons.1 hx with rfl | hx
    · exact clear_base h.tiled h.base_le
    · obtain ⟨c, hc, -, rfl⟩ := mem_frees.1 hx
      exact clear_block h.tiled (hmem c hc)
  refine ⟨h.base_pos, h.base_le, hbrk ▸ h.brk_lt, ?_, fun c hc => ?_, ?_, hlow, ?_, ?_, rfl,
    ((apart_used hb).1 h.apart).1, hapart, habove, fun c hc => h.room c (hold c hc)⟩
  · rw [hbrk]
    exact tiled_middle.2 ⟨hl1, Nat.mul_pos (by decide) hk, htiled⟩
  · have hother : c ∈ l₁ ++ l₂' → t.size c.addr = c.size := fun hc => by
      rw [(hframe _ (clear_block h.tiled (hmem c hc))).2, h.size c (hold c hc)]
    rcases List.mem_append.1 hc with hc | hc
    · exact hother (List.mem_append_left _ hc)
    · rcases List.mem_cons.1 hc with rfl | hc
      · exact hsize
      · exact hother (List.mem_append_right _ hc)
  · rw [(hframe _ (clear_base h.tiled h.base_le)).2, h.base_size]
  · refine hleft.congr fun x hx => hfrees x ?_
    rw [frees_append, ← List.cons_append, hlow]
    simp [hx]
  · refine hright.congr fun x hx => hfrees x (List.mem_cons_of_mem _ ?_)
    rw [frees_append]
    exact List.mem_append_right _ hx

theorem Inv.upper :
    frees l₂ = [] ∧ s.ptr p = base ∨ ∃ c ∈ l₂, c.user = none ∧ s.ptr p = c.addr := by
  obtain ⟨-, hright⟩ := h.sides hb hlow
  cases hf : frees l₂ with
  | nil =>
    rw [hf] at hright
    exact .inl ⟨rfl, hright⟩
  | cons x xs =>
    rw [hf] at hright
    obtain ⟨c, hc, hu, hx⟩ := mem_frees.1 (hf ▸ List.mem_cons_self : x ∈ frees l₂)
    exact .inr ⟨c, hc, hu, hright.1.trans hx.symm⟩

theorem joinUpper_rule :
    wp (joinUpper b.addr p) (fun _ t => ∃ k l₂', Cut base lo t pl p l₁ ⟨b.addr, k, none⟩ l₂' ∧
      b.size ≤ k ∧ users l₂' = users l₂) (fun _ _ => False) s := by
  obtain ⟨-, hright⟩ := h.sides hb hlow
  obtain ⟨hl1, hpos, hl2⟩ := tiled_middle.1 h.tiled
  have hapart := ((apart_used hb).1 h.apart).2
  have hsize : s.size b.addr = b.size := h.size b (by simp)
  have hbpos : 0 < b.size := Nat.pos_of_mul_pos_left hpos
  have hp : Clear p b.addr := by
    refine clear_frees h.tiled h.base_le ?_
    rw [frees_append, ← List.cons_append, hlow]
    simp
  simp only [joinUpper, wp_run, hsize, plus_size h.tiled h.brk_lt]
  by_cases htop : ∀ c ∈ l₂.head?, c.user ≠ none
  · -- nothing to join above
    have hne : b.addr + b.len ≠ s.ptr p := by
      intro he
      rcases h.upper hb hlow with ⟨-, hbase⟩ | ⟨c, hc, hu, hx⟩
      · have := hl1.le
        have := h.base_le
        omega
      · exact htop c (hl2.head hc (hx ▸ he.symm)) hu
    rw [if_neg hne]
    refine ⟨b.size, l₂, h.cut (t := s.setPtr b.addr (s.ptr p)) hb hlow rfl (fun x hx => ?_) hbpos ?_
      List.suffix_rfl hl2 ?_ hapart htop, le_rfl, rfl⟩
    · exact ⟨s.ptr_setPtr hx, s.size_setPtr hx⟩
    · exact (s.size_setPtr_self).trans hsize
    · rwa [s.ptr_setPtr_self]
  · -- the block above is free
    push Not at htop
    obtain ⟨c, hc, hu⟩ := htop
    obtain ⟨l₂', rfl⟩ := List.head?_eq_some_iff.1 hc
    rw [frees_free hu] at hright
    obtain ⟨hx, hrest⟩ := hright
    obtain ⟨haddr, -, hl2'⟩ := hl2
    have hcsize : s.size c.addr = c.size := h.size c (by simp)
    have hcb : Clear c.addr b.addr := clear_block h.tiled (by simp)
    have hlt : b.size + c.size < 2 ^ 32 := by
      have hle := hl2'.le
      have hbrk := h.brk_lt
      unfold Block.len at hle
      omega
    rw [if_pos (haddr ▸ hx.symm), hx, hcsize, Nat.mod_eq_of_lt hlt, s.ptr_setSize hp, hx,
      s.ptr_setSize hcb]
    generalize hs' : s.setSize b.addr (b.size + c.size) = s'
    have hfirst : Apart ([] ++ c :: l₂') := hapart
    have habove := (apart_free hu).1 hfirst
    refine ⟨b.size + c.size, l₂', h.cut (t := s'.setPtr b.addr (s.ptr c.addr)) hb hlow ?_
      (fun x hx => ?_)
      (by omega) ?_ (List.suffix_cons c l₂') ?_ ?_ habove.2.1 habove.2.2.2, by omega, ?_⟩
    · rw [← hs']
      rfl
    · rw [s'.ptr_setPtr hx, s'.size_setPtr hx, ← hs']
      exact ⟨s.ptr_setSize hx, s.size_setSize hx⟩
    · rw [s'.size_setPtr_self, ← hs', s.size_setSize_self]
    · rwa [Nat.mul_add, ← Nat.add_assoc]
    · rwa [s'.ptr_setPtr_self]
    · rw [users_free hu]

end

theorem Cut.link (h : Cut base lo s pl p l₁ b l₂) (hbelow : ∀ c ∈ l₁.getLast?, c.user ≠ none) :
    Inv base lo { s.setPtr p b.addr with freep := p } (l₁ ++ b :: l₂) := by
  have hrow : base :: frees (l₁ ++ b :: l₂) = pl ++ p :: b.addr :: frees l₂ := by
    rw [frees_append, frees_free h.free, ← List.cons_append, h.lower, List.append_assoc]
    rfl
  have hapart := (apart_free h.free).2 ⟨h.apart₁, h.apart₂, hbelow, h.above⟩
  refine .relinked h.base_pos h.base_le h.brk_lt h.tiled h.size h.base_size hrow h.left
    ⟨rfl, h.right⟩ hapart fun c hc n hu => h.room c ?_ n hu
  rcases List.mem_append.1 hc with hc | hc
  · exact List.mem_append_left _ hc
  rcases List.mem_cons.1 hc with rfl | hc
  · rw [h.free] at hu
    cases hu
  · exact List.mem_append_right _ hc

theorem Cut.join {c : Block} (h : Cut base lo s pl c.addr (l₁ ++ [c]) b l₂) (hc : c.user = none) :
    Inv base lo { (s.setSize c.addr (c.size + b.size)).setPtr c.addr (s.ptr b.addr) with
      freep := c.addr } (l₁ ++ ⟨c.addr, c.size + b.size, none⟩ :: l₂) := by
  have htiled : Tiled Block.addr Block.len lo (l₁ ++ c :: b :: l₂) s.brk := by
    simpa using h.tiled
  obtain ⟨hl1, hpos, haddr, -, hl2⟩ := tiled_middle.1 htiled
  have hpl : pl = base :: frees l₁ := by
    have hlower := h.lower
    rw [frees_append, frees_free hc, ← List.cons_append] at hlower
    exact (List.append_inj' hlower rfl).1.symm
  generalize ht : (s.setSize c.addr (c.size + b.size)).setPtr c.addr (s.ptr b.addr) = t
  have hframe : ∀ x, Clear x c.addr → t.ptr x = s.ptr x ∧ t.size x = s.size x := fun x hx => by
    rw [← ht, Heap.ptr_setPtr _ hx, Heap.size_setPtr _ hx]
    exact ⟨s.ptr_setSize hx, s.size_setSize hx⟩
  have hbrk : t.brk = s.brk := by
    rw [← ht]
    rfl
  have hfrees : ∀ x ∈ base :: frees (l₁ ++ b :: l₂), t.ptr x = s.ptr x := fun x hx =>
    (hframe x (clear_frees htiled h.base_le hx)).1
  rw [frees_append, frees_free h.free] at hfrees
  obtain ⟨hapart, -, hbelow, -⟩ := (apart_free hc).1 h.apart₁
  refine ⟨h.base_pos, h.base_le, hbrk.symm ▸ h.brk_lt, ?_, fun d hd => ?_, ?_, ?_, ?_, ?_,
    fun d hd n hu => ?_⟩
  · show Tiled _ _ _ _ t.brk
    rw [hbrk]
    refine tiled_middle.2 ⟨hl1, Nat.mul_pos (by decide) ?_, ?_⟩
    · have : 0 < c.size := Nat.pos_of_mul_pos_left hpos
      show 0 < c.size + b.size
      omega
    · show Tiled _ _ (c.addr + 8 * (c.size + b.size)) _ _
      rwa [Nat.mul_add, ← Nat.add_assoc]
  · show t.size d.addr = d.size
    have hother : d ∈ l₁ ++ l₂ → t.size d.addr = d.size := fun hd => by
      have hd' : d ∈ l₁ ++ b :: l₂ := by
        rcases List.mem_append.1 hd with hd | hd <;> simp [hd]
      rw [(hframe _ (clear_block htiled hd')).2]
      refine h.size d ?_
      rcases List.mem_append.1 hd with hd | hd <;> simp [hd]
    rcases List.mem_append.1 hd with hd | hd
    · exact hother (List.mem_append_left _ hd)
    · rcases List.mem_cons.1 hd with rfl | hd
      · rw [← ht, Heap.size_setPtr_self, Heap.size_setSize_self]
      · exact hother (List.mem_append_right _ hd)
  · exact ((hframe _ (clear_base htiled h.base_le)).2).trans h.base_size
  · rw [frees_append, frees_free rfl, ← List.cons_append, ← hpl]
    refine seg_middle.2 ⟨h.left.congr fun x hx => hfrees x ?_, ?_⟩
    · rw [← List.cons_append, ← hpl]
      exact List.mem_append_left _ hx
    show Seg t.ptr (t.ptr c.addr) _ _
    have hptr : t.ptr c.addr = s.ptr b.addr := by
      rw [← ht, Heap.ptr_setPtr_self]
    rw [hptr]
    exact h.right.congr fun x hx => hfrees x (by simp [hx])
  · rw [frees_append, frees_free rfl]
    simp
  · exact (apart_free rfl).2 ⟨hapart, h.apart₂, hbelow, h.above⟩
  · refine h.room d ?_ n hu
    rcases List.mem_append.1 hd with hd | hd
    · simp [hd]
    · rcases List.mem_cons.1 hd with rfl | hd
      · cases hu
      · simp [hd]

theorem joinLower_rule (h : Cut base lo s pl p l₁ b l₂) :
    wp (joinLower b.addr p) (fun _ t => ∃ bs', Inv base lo { t with freep := p } bs' ∧
      users bs' = users l₁ ++ users l₂ ∧ ∃ c ∈ bs', c.user = none ∧ b.size ≤ c.size)
      (fun _ _ => False) s := by
  have hl1 := (tiled_middle.1 h.tiled).1
  have hsize : s.size b.addr = b.size := h.size b (by simp)
  have hp : p ∈ base :: frees l₁ := by simp [h.lower]
  simp only [joinLower, wp_run]
  by_cases hlast : ∀ c ∈ l₁.getLast?, c.user ≠ none
  · -- nothing to join below
    have hne : plus p (s.size p) ≠ b.addr := by
      rcases List.mem_cons.1 hp with rfl | hp
      · have := hl1.le
        have := h.base_le
        rw [h.base_size, plus, Nat.mul_zero, Nat.add_zero]
        have := Nat.mod_le p (2 ^ 32)
        omega
      · obtain ⟨c, hc, hu, rfl⟩ := mem_frees.1 hp
        obtain ⟨u, v, rfl⟩ := List.append_of_mem hc
        have htiled : Tiled Block.addr Block.len lo (u ++ c :: (v ++ b :: l₂)) s.brk := by
          simpa using h.tiled
        rw [h.size c (by simp), plus_size htiled h.brk_lt]
        exact fun he => hlast c (hl1.last hc he) hu
    rw [if_neg hne]
    refine ⟨l₁ ++ b :: l₂, h.link hlast, ?_, b, by simp, h.free, le_rfl⟩
    rw [users_append, users_free h.free]
  · -- the block below is free
    push Not at hlast
    obtain ⟨c, hc, hu⟩ := hlast
    obtain ⟨l1', rfl⟩ := List.getLast?_eq_some_iff.1 hc
    have htiled : Tiled Block.addr Block.len lo (l1' ++ c :: b :: l₂) s.brk := by
      simpa using h.tiled
    obtain ⟨-, -, haddr, -, hl2⟩ := tiled_middle.1 htiled
    obtain rfl : p = c.addr := by
      have hlower := h.lower
      rw [frees_append, frees_free hu, ← List.cons_append] at hlower
      exact (List.singleton_inj.1 (List.append_inj' hlower rfl).2).symm
    have hcsize : s.size c.addr = c.size := h.size c (by simp)
    have hbc : Clear b.addr c.addr := clear_block htiled (by simp)
    have hlt : c.size + b.size < 2 ^ 32 := by
      have hle := hl2.le
      have hbrk := h.brk_lt
      unfold Block.len at hle
      omega
    rw [hcsize, plus_size htiled h.brk_lt, if_pos haddr.symm, hsize, Nat.mod_eq_of_lt hlt,
      s.ptr_setSize hbc]
    refine ⟨_, h.join hu, ?_, _, List.mem_append_right _ List.mem_cons_self, rfl, ?_⟩
    · rw [users_append, users_append, users_free rfl, users_free hu]
      simp [users]
    · exact Nat.le_add_left ..

/-! ## The loop of `free` -/

/-- The loop stops at the last free block below the one to be freed, and nowhere else. -/
theorem Inv.between (h : Inv base lo s (l₁ ++ b :: l₂)) (hb : b.user = some n)
    (hlow : base :: frees l₁ = pl ++ [p]) {y : ℕ} (hy : y ∈ base :: frees (l₁ ++ b :: l₂)) :
    between s b.addr y = true ↔ y = p := by
  obtain ⟨hleft, hright⟩ := h.sides hb hlow
  have hsorted := frees_sorted h.tiled h.base_le
  have hlo := (h.tiled.mem (List.mem_append_right _ List.mem_cons_self : b ∈ _)).1
  have hbase := h.base_le
  have hbelow : ∀ x ∈ pl ++ [p], x < b.addr := fun x hx => by
    rw [← hlow] at hx
    rcases List.mem_cons.1 hx with rfl | hx
    · omega
    · obtain ⟨c, hc, -, rfl⟩ := mem_frees.1 hx
      obtain ⟨hle, hlen⟩ := below h.tiled hc
      omega
  have habove : ∀ x ∈ frees l₂, b.addr < x := fun x hx => by
    obtain ⟨c, hc, -, rfl⟩ := mem_frees.1 hx
    obtain ⟨hle, hlen⟩ := above h.tiled hc
    omega
  have hrow : base :: frees (l₁ ++ b :: l₂) = pl ++ p :: frees l₂ := by
    rw [frees_append, frees_used hb, ← List.cons_append, hlow, List.append_assoc]
    rfl
  rw [hrow] at hy hsorted
  obtain ⟨hpl, hafter, hbefore⟩ := List.pairwise_append.1 hsorted
  have hp := hbelow p (by simp)
  simp only [Umalloc.between, Bool.or_eq_true, Bool.and_eq_true, decide_eq_true_eq,
    gt_iff_lt, ge_iff_le]
  rcases List.mem_append.1 hy with hy | hy
  · -- further down, the next free block is below as well
    have hyp : y < p := hbefore y hy p List.mem_cons_self
    have hnext : y < s.ptr y ∧ s.ptr y < b.addr := by
      rcases hleft.next_cases hpl hy with hn | ⟨hn, hlt⟩
      · rw [hn]
        exact ⟨hyp, hp⟩
      · exact ⟨hlt, hbelow _ (List.mem_append_left _ hn)⟩
    omega
  · rcases List.mem_cons.1 hy with rfl | hy
    · rcases h.upper hb hlow with ⟨-, hn⟩ | ⟨c, hc, -, hn⟩
      · have : base ≤ y := by
          rcases List.mem_cons.1 (hlow ▸ (by simp) : y ∈ base :: frees l₁) with rfl | hy
          · exact le_rfl
          · exact ((List.pairwise_cons.1 (frees_sorted h.tiled h.base_le)).1 y
              (by rw [frees_append]; exact List.mem_append_left _ hy)).le
        omega
      · have := (above h.tiled hc).1
        have := (above h.tiled hc).2
        omega
    · -- further up, the list goes up or wraps to `base`
      have hyb := habove y hy
      have hyp : y ≠ p := by omega
      rcases hright.next_cases (List.pairwise_cons.1 hafter).2 hy with hn | ⟨-, hlt⟩ <;> omega

theorem Inv.around (h : Inv base lo s bs) :
    ∃ l, Seg s.ptr s.freep (s.freep :: l) s.freep ∧ (s.freep :: l).Perm (base :: frees bs) := by
  obtain ⟨u, v, huv⟩ := List.append_of_mem h.freep
  have hring := h.ring
  rw [huv] at hring
  refine ⟨v ++ u, hring.enter, ?_⟩
  rw [huv]
  exact (List.perm_append_comm : (s.freep :: v ++ u).Perm (u ++ s.freep :: v))

theorem Inv.length_le (h : Inv base lo s bs) : (base :: frees bs).length ≤ 2 ^ 29 := by
  have hle := h.tiled.length_le (k := 8) fun b hb => by
    have := (h.tiled.mem hb).2.1
    unfold Block.len at this ⊢
    omega
  have hfrees : (frees bs).length ≤ bs.length := by
    rw [frees, List.length_map]
    exact List.length_filter_le ..
  have hbase := h.base_le
  have hbrk := h.brk_lt
  rw [List.length_cons]
  omega

theorem free_rule (h : Inv base lo s (l₁ ++ b :: l₂)) (hb : b.user = some n) {ap : ℕ}
    (hap : ap = b.addr + 8) :
    wp (free ap) (fun _ t => ∃ bs', Inv base lo t bs' ∧ users bs' = users l₁ ++ users l₂ ∧
      ∃ c ∈ bs', c.user = none ∧ b.size ≤ c.size) (fun _ _ => False) s := by
  obtain ⟨pl, p, hlow⟩ : ∃ pl p, base :: frees l₁ = pl ++ [p] :=
    ⟨_, _, (List.dropLast_append_getLast (List.cons_ne_nil base (frees l₁))).symm⟩
  obtain ⟨l, hring, hperm⟩ := h.around
  have hbp : (ap + 2 ^ 32 - 8) % 2 ^ 32 = b.addr := by
    obtain ⟨-, hpos, hle⟩ := h.tiled.mem (List.mem_append_right _ List.mem_cons_self : b ∈ _)
    have := h.brk_lt
    omega
  have hlen : (s.freep :: l).length ≤ rounds := by
    have := h.length_le
    rw [hperm.length_eq, rounds]
    omega
  have hp : p ∈ base :: frees (l₁ ++ b :: l₂) := by
    rw [frees_append, ← List.cons_append, hlow]
    simp
  have hsearch := hring.search (hperm.mem_iff.2 hp)
    (fun y hy => h.between hb hlow (hperm.mem_iff.1 hy)) hlen
  simp only [free, wp_run, hbp, hsearch]
  refine wp_imp (joinUpper_rule h hb hlow) ?_
  rintro _ t ⟨k, l₂', hcut, hk, hu⟩
  have hjoin := joinLower_rule hcut
  refine wp_imp hjoin ?_
  rintro _ t' ⟨bs', hinv, hu', c, hc, hfree, hle⟩
  exact ⟨bs', hinv, by rw [hu', hu], c, hc, hfree, hk.trans hle⟩

end Xv6.Umalloc

import Xv6Cow.User.Free

/-!
# `malloc` keeps the invariant

The loop of `malloc` goes round the list once.  If no block is large enough, `morecore` adds one that is,
or `malloc` gives up; so the second round ends before it is complete.
-/

namespace Xv6.Umalloc

open Prog Lts Clist Tiles

variable {base lo : ℕ} {s t : Heap} {bs l₁ l₂ : List Block} {b : Block} {l pl : List ℕ}
  {p prevp n k nu fuel : ℕ}

/-! ## `morecore` -/

theorem sbrk_rule (hn : n < 2 ^ 31) :
    wp (sbrk n) (fun r t => ∃ an, r = none ∧ t = { s with answers := an } ∨
      r = some s.brk ∧ s.brk + n < 2 ^ 32 ∧ t = { s with answers := an, brk := s.brk + n })
      (fun _ _ => False) s := by
  have hlt : ¬ 2 ^ 31 ≤ n := by omega
  simp only [sbrk, wp_run, hlt]
  split
  · next hok => exact ⟨_, .inr ⟨trivial, hok.2, rfl⟩⟩
  · exact ⟨_, .inl ⟨trivial, rfl⟩⟩

theorem Inv.extend (h : Inv base lo s bs) (hnu : 0 < nu) (hbrk : s.brk + nu * 8 < 2 ^ 32)
    (an : ℕ → Bool) :
    Inv base lo ({ s with answers := an, brk := s.brk + nu * 8 }.setSize s.brk nu)
      (bs ++ [⟨s.brk, nu, some 0⟩]) := by
  have htiled : Tiled Block.addr Block.len lo (bs ++ [⟨s.brk, nu, some 0⟩]) (s.brk + nu * 8) := by
    refine tiled_middle.2 ⟨h.tiled, Nat.mul_pos (by decide) hnu, ?_⟩
    show s.brk + 8 * nu = _
    omega
  have hclear : ∀ x ∈ base :: bs.map Block.addr, Clear x s.brk := fun x hx => by
    rcases List.mem_cons.1 hx with rfl | hx
    · exact clear_base (b := ⟨s.brk, nu, some 0⟩) htiled h.base_le
    · obtain ⟨c, hc, rfl⟩ := List.mem_map.1 hx
      exact clear_block (b := ⟨s.brk, nu, some 0⟩) htiled (by simp [hc])
  generalize hs' : { s with answers := an, brk := s.brk + nu * 8 } = s'
  have hptr : ∀ x, s'.ptr x = s.ptr x := fun x => by
    rw [← hs']
    rfl
  have hsize : ∀ x, s'.size x = s.size x := fun x => by
    rw [← hs']
    rfl
  have hfrees : frees (bs ++ [⟨s.brk, nu, some 0⟩]) = frees bs := by
    rw [frees_append, frees_used rfl]
    exact List.append_nil _
  refine ⟨h.base_pos, h.base_le, ?_, ?_, fun c hc => ?_, ?_, ?_, ?_, ?_, fun c hc n hu => ?_⟩
  · show s'.brk < _
    rwa [← hs']
  · show Tiled _ _ _ _ s'.brk
    rwa [← hs']
  · rcases List.mem_append.1 hc with hc | hc
    · rw [s'.size_setSize (hclear _ (List.mem_cons_of_mem _ (List.mem_map_of_mem hc))), hsize,
        h.size c hc]
    · obtain rfl := List.mem_singleton.1 hc
      exact s'.size_setSize_self
  · rw [s'.size_setSize (hclear _ List.mem_cons_self), hsize, h.base_size]
  · rw [hfrees]
    refine h.ring.congr fun x hx => ?_
    rw [s'.ptr_setSize (hclear x (mem_headers hx)), hptr]
  · show s'.freep ∈ _
    rw [hfrees, ← hs']
    exact h.freep
  · exact (apart_used rfl).2 ⟨h.apart, List.isChain_nil⟩
  · rcases List.mem_append.1 hc with hc | hc
    · exact h.room c hc n hu
    obtain rfl := List.mem_singleton.1 hc
    cases hu
    show 0 + 8 ≤ 8 * nu
    omega

theorem Inv.freep_ne (h : Inv base lo s bs) : s.freep ≠ 0 := by
  have hpos := h.base_pos
  rcases List.mem_cons.1 h.freep with hp | hp
  · omega
  obtain ⟨c, hc, -, hx⟩ := mem_frees.1 hp
  have := (h.tiled.mem hc).1
  have := h.base_le
  omega

theorem plus_one (h : p + 8 < 2 ^ 32) : plus p 1 = p + 8 := by
  rw [plus, Nat.mul_one, Nat.mod_eq_of_lt h]

theorem morecore_rule (h : Inv base lo s bs) (hnu : nu < 2 ^ 28) :
    wp (morecore nu) (fun r t => r = 0 ∧ Inv base lo t bs ∨ r = t.freep ∧ r ≠ 0 ∧
      ∃ bs', Inv base lo t bs' ∧ users bs' = users bs ∧ ∃ c ∈ bs', c.user = none ∧ nu ≤ c.size)
      (fun _ _ => False) s := by
  obtain ⟨k, hk, hle, hlt⟩ : ∃ k, (if nu < 4096 then 4096 else nu) = k ∧ nu ≤ k ∧
    0 < k ∧ k < 2 ^ 28 := by
    by_cases hsmall : nu < 4096
    · exact ⟨4096, if_pos hsmall, by omega, by omega, by omega⟩
    · exact ⟨nu, if_neg hsmall, le_rfl, by omega, hnu⟩
  have hmod : k * 8 % 2 ^ 32 = k * 8 := Nat.mod_eq_of_lt (by omega)
  simp only [morecore, wp_bind, hk, hmod]
  refine wp_imp (sbrk_rule (by omega)) ?_
  rintro _ t ⟨an, ⟨rfl, rfl⟩ | ⟨rfl, hbrk, rfl⟩⟩
  · exact .inl ⟨rfl, h.base_pos, h.base_le, h.brk_lt, h.tiled, h.size, h.base_size, h.ring, h.freep,
      h.apart, h.room⟩
  have hplus : plus s.brk 1 = s.brk + 8 := plus_one (by omega)
  have hfree := free_rule (h.extend hlt.1 hbrk an) rfl hplus
  rw [wp_bind, wp_modify, wp_bind]
  refine wp_imp hfree ?_
  rintro _ t ⟨bs', hinv, hu, c, hc, hcu, hck⟩
  rw [wp_bind, wp_get, wp_pure]
  refine .inr ⟨rfl, hinv.freep_ne, bs', hinv, ?_, c, hc, hcu, hle.trans hck⟩
  rw [hu]
  exact List.append_nil _

/-! ## The block is found -/

section

variable (h : Inv base lo s (l₁ ++ b :: l₂)) (hb : b.user = none)

include h hb

theorem Inv.pred
    (hlow : base :: frees l₁ = pl ++ [p]) (hprev : prevp ∈ base :: frees (l₁ ++ b :: l₂))
    (hnext : s.ptr prevp = b.addr) : prevp = p ∧ Seg s.ptr base pl p ∧
      Seg s.ptr (s.ptr b.addr) (frees l₂) base := by
  have hring := h.ring
  have hnodup := (frees_sorted h.tiled h.base_le).imp ne_of_lt
  have hrow : base :: frees (l₁ ++ b :: l₂) = pl ++ p :: b.addr :: frees l₂ := by
    rw [frees_append, frees_free hb, ← List.cons_append, hlow, List.append_assoc]
    rfl
  rw [hrow] at hring hnodup hprev
  obtain ⟨hleft, hp, hright⟩ := seg_middle.1 hring
  exact ⟨hring.next_inj hnodup hprev (by simp) (hnext.trans hp.symm), hleft, hright⟩

/-- The whole free block is handed out. -/
theorem Inv.takeAll (hprev : prevp ∈ base :: frees (l₁ ++ b :: l₂)) (hnext : s.ptr prevp = b.addr)
    (hn : n + 8 ≤ b.len) :
    Inv base lo { s.setPtr prevp (s.ptr b.addr) with freep := prevp }
      (l₁ ++ { b with user := some n } :: l₂) := by
  obtain ⟨pl, p, hlow⟩ : ∃ pl p, base :: frees l₁ = pl ++ [p] :=
    ⟨_, _, (List.dropLast_append_getLast (List.cons_ne_nil base (frees l₁))).symm⟩
  obtain ⟨rfl, hleft, hright⟩ := h.pred hb hlow hprev hnext
  have hrow : base :: frees (l₁ ++ { b with user := some n } :: l₂) = pl ++ prevp :: frees l₂ := by
    rw [frees_append, frees_used rfl, ← List.cons_append, hlow, List.append_assoc]
    rfl
  have htiled : Tiled Block.addr Block.len lo (l₁ ++ { b with user := some n } :: l₂) s.brk :=
    (tiled_middle (b := { b with user := some n })).2 ((tiled_middle (b := b)).1 h.tiled)
  have hapart := (apart_free hb).1 h.apart
  refine .relinked h.base_pos h.base_le h.brk_lt htiled (fun c hc => ?_) h.base_size hrow hleft hright
    ((apart_used rfl).2 ⟨hapart.1, hapart.2.1⟩) fun c hc m hu => ?_
  · rcases List.mem_append.1 hc with hc | hc
    · exact h.size c (by simp [hc])
    rcases List.mem_cons.1 hc with rfl | hc
    · exact h.size b (by simp)
    · exact h.size c (by simp [hc])
  · rcases List.mem_append.1 hc with hc | hc
    · exact h.room c (by simp [hc]) m hu
    rcases List.mem_cons.1 hc with rfl | hc
    · cases hu
      exact hn
    · exact h.room c (by simp [hc]) m hu

/-- The upper part of a free block is handed out. -/
theorem Inv.takeTail (hprev : prevp ∈ base :: frees (l₁ ++ b :: l₂)) (hk : 0 < k) (hkb : k < b.size)
    (hn : n + 8 ≤ 8 * k) :
    Inv base lo { (s.setSize b.addr (b.size - k)).setSize (b.addr + 8 * (b.size - k)) k with
      freep := prevp }
      (l₁ ++ ⟨b.addr, b.size - k, none⟩ :: ⟨b.addr + 8 * (b.size - k), k, some n⟩ :: l₂) := by
  obtain ⟨hl1, hpos, hl2⟩ := tiled_middle.1 h.tiled
  have htiled : Tiled Block.addr Block.len lo
      (l₁ ++ ⟨b.addr, b.size - k, none⟩ :: ⟨b.addr + 8 * (b.size - k), k, some n⟩ :: l₂) s.brk := by
    refine tiled_middle.2 ⟨hl1, ?_, rfl, ?_, ?_⟩
    · show 0 < 8 * (b.size - k)
      omega
    · show 0 < 8 * k
      omega
    · have hlen : b.addr + 8 * (b.size - k) + 8 * k = b.addr + b.len := by
        unfold Block.len
        omega
      show Tiled _ _ (b.addr + 8 * (b.size - k) + 8 * k) _ _
      rwa [hlen]
  have htiled' : Tiled Block.addr Block.len lo ((l₁ ++ [⟨b.addr, b.size - k, none⟩]) ++
      ⟨b.addr + 8 * (b.size - k), k, some n⟩ :: l₂) s.brk := by
    rw [List.append_assoc]
    exact htiled
  have hfrees : base :: frees (l₁ ++ ⟨b.addr, b.size - k, none⟩ ::
      ⟨b.addr + 8 * (b.size - k), k, some n⟩ :: l₂) = base :: frees (l₁ ++ b :: l₂) := by
    rw [frees_append, frees_append, frees_free rfl, frees_used rfl, frees_free hb]
  have hclear : ∀ c ∈ l₁ ++ l₂, Clear c.addr b.addr ∧ Clear c.addr (b.addr + 8 * (b.size - k)) := by
    refine fun c hc => ⟨clear_block h.tiled hc, clear_block htiled' ?_⟩
    rcases List.mem_append.1 hc with hc | hc <;> simp [hc]
  have hbase : Clear base b.addr ∧ Clear base (b.addr + 8 * (b.size - k)) :=
    ⟨clear_base h.tiled h.base_le, clear_base htiled' h.base_le⟩
  have hself : Clear b.addr (b.addr + 8 * (b.size - k)) := .inl (by omega)
  generalize ht : (s.setSize b.addr (b.size - k)).setSize (b.addr + 8 * (b.size - k)) k = t
  have hsize : ∀ x, Clear x b.addr ∧ Clear x (b.addr + 8 * (b.size - k)) → t.size x = s.size x :=
    fun x hx => by
      rw [← ht, Heap.size_setSize _ hx.2, Heap.size_setSize _ hx.1]
  have hptr : ∀ x ∈ base :: frees (l₁ ++ b :: l₂), t.ptr x = s.ptr x := fun x hx => by
    rw [← ht]
    rcases List.mem_cons.1 hx with rfl | hx
    · rw [Heap.ptr_setSize _ hbase.2, Heap.ptr_setSize _ hbase.1]
    obtain ⟨c, hc, -, rfl⟩ := mem_frees.1 hx
    by_cases hcb : c = b
    · rw [hcb, Heap.ptr_setSize _ hself, Heap.ptr_setSize_self]
    · have hc' : c ∈ l₁ ++ l₂ := by simpa [hcb] using hc
      rw [Heap.ptr_setSize _ (hclear c hc').2, Heap.ptr_setSize _ (hclear c hc').1]
  have hbrk : t.brk = s.brk := by
    rw [← ht]
    rfl
  obtain ⟨hapart1, hapart2, hlast, -⟩ := (apart_free hb).1 h.apart
  refine ⟨h.base_pos, h.base_le, hbrk.symm ▸ h.brk_lt, hbrk.symm ▸ htiled, fun c hc => ?_, ?_, ?_, ?_,
    ?_, fun c hc m hu => ?_⟩
  · show t.size c.addr = c.size
    have hother : c ∈ l₁ ++ l₂ → t.size c.addr = c.size := fun hc => by
      rw [hsize _ (hclear c hc)]
      refine h.size c ?_
      rcases List.mem_append.1 hc with hc | hc <;> simp [hc]
    rcases List.mem_append.1 hc with hc | hc
    · exact hother (List.mem_append_left _ hc)
    rcases List.mem_cons.1 hc with rfl | hc
    · rw [← ht, Heap.size_setSize _ hself, Heap.size_setSize_self]
    · rcases List.mem_cons.1 hc with rfl | hc
      · rw [← ht, Heap.size_setSize_self]
      · exact hother (List.mem_append_right _ hc)
  · exact (hsize base hbase).trans h.base_size
  · rw [hfrees]
    exact h.ring.congr hptr
  · rw [hfrees]
    exact hprev
  · have hrest : Apart ([] ++ ⟨b.addr + 8 * (b.size - k), k, some n⟩ :: l₂) :=
      (apart_used rfl).2 ⟨List.isChain_nil, hapart2⟩
    refine (apart_free rfl).2 ⟨hapart1, hrest, hlast, ?_⟩
    intro c hc hu
    cases hc
    cases hu
  · rcases List.mem_append.1 hc with hc | hc
    · exact h.room c (by simp [hc]) m hu
    rcases List.mem_cons.1 hc with rfl | hc
    · cases hu
    rcases List.mem_cons.1 hc with rfl | hc
    · cases hu
      exact hn
    · exact h.room c (by simp [hc]) m hu

end

/-- The result of `malloc`: a pointer that is now in use for the request. -/
def Given (base lo n : ℕ) (bs : List Block) (r : ℕ) (t : Heap) : Prop :=
  r ≠ 0 ∧ ∃ bs', Inv base lo t bs' ∧ (users bs').Perm ((r, n) :: users bs)

theorem carve_rule (h : Inv base lo s bs) (hprev : prevp ∈ base :: frees bs)
    (hp : p ∈ base :: frees bs) (hnext : s.ptr prevp = p) (hk : 0 < k) (hle : k ≤ s.size p)
    (hn : n + 8 ≤ 8 * k) : wp (carve k prevp p) (Given base lo n bs) (fun _ _ => False) s := by
  obtain ⟨b, hbs, hb, rfl⟩ : ∃ b ∈ bs, b.user = none ∧ b.addr = p := by
    rcases List.mem_cons.1 hp with rfl | hp
    · rw [h.base_size] at hle
      omega
    · exact mem_frees.1 hp
  obtain ⟨l₁, l₂, rfl⟩ := List.append_of_mem hbs
  have hsize : s.size b.addr = b.size := h.size b (by simp)
  obtain ⟨hlo, hpos, hhi⟩ := h.tiled.mem hbs
  rw [Block.len] at hpos hhi
  have hbrk := h.brk_lt
  rw [hsize] at hle
  simp only [carve, wp_run, hsize]
  by_cases heq : b.size = k
  · -- the block fits exactly
    rw [if_pos heq, plus_one (by omega)]
    refine ⟨by omega, _, h.takeAll (n := n) hb hprev hnext ?_, ?_⟩
    · rwa [Block.len, heq]
    · rw [users_append, users_append, users_used rfl, users_free hb]
      exact List.perm_middle
  have hlt : k < b.size := by omega
  have hplus : plus b.addr (b.size - k) = b.addr + 8 * (b.size - k) := by
    exact Nat.mod_eq_of_lt (by omega)
  have hend : b.addr + 8 * (b.size - k) + 8 < 2 ^ 32 := by omega
  rw [if_neg heq, Heap.size_setSize_self, hplus, plus_one hend]
  refine ⟨by omega, _, h.takeTail hb hprev hk hlt hn, ?_⟩
  rw [users_append, users_append, users_free rfl, users_used rfl, users_free hb]
  exact List.perm_middle

/-! ## The loop -/

/-- The rest of the round, after which the loop is at `freep`. -/
structure Rest (base : ℕ) (s : Heap) (bs : List Block) (prevp p : ℕ) (l : List ℕ) : Prop where
  seg : Seg s.ptr p (l ++ [s.freep]) (s.ptr s.freep)
  nodup : (l ++ [s.freep]).Nodup
  ring : ∀ x ∈ l ++ [s.freep], x ∈ base :: frees bs
  prev : prevp ∈ base :: frees bs
  next : s.ptr prevp = p

theorem Rest.head {c : ℕ} (h : Rest base s bs prevp p (c :: l)) :
    p = c ∧ p ∈ base :: frees bs ∧ p ≠ s.freep ∧ Rest base s bs p (s.ptr p) l := by
  obtain ⟨rfl, hseg⟩ := h.seg
  have hnodup := h.nodup
  rw [List.cons_append, List.nodup_cons] at hnodup
  have hp := h.ring p List.mem_cons_self
  refine ⟨rfl, hp, ?_, hseg, hnodup.2, fun x hx => h.ring x (List.mem_cons_of_mem _ hx), hp, rfl⟩
  rintro rfl
  exact hnodup.1 (by simp)

theorem Rest.last (h : Rest base s bs prevp p []) : p = s.freep := h.seg.1

theorem Inv.rest (h : Inv base lo s bs) :
    ∃ l, Rest base s bs s.freep (s.ptr s.freep) l ∧ (l ++ [s.freep]).Perm (base :: frees bs) := by
  obtain ⟨l, hring, hperm⟩ := h.around
  have hperm' : (l ++ [s.freep]).Perm (base :: frees bs) := (List.perm_append_singleton _ l).trans hperm
  have hnodup : (base :: frees bs).Nodup := (frees_sorted h.tiled h.base_le).imp ne_of_lt
  refine ⟨l, ⟨?_, hperm'.nodup_iff.2 hnodup, fun x hx => hperm'.mem_iff.1 hx, h.freep, rfl⟩, hperm'⟩
  exact seg_middle.2 ⟨hring.2, rfl⟩

theorem mallocLoop_fits (h : Inv base lo s bs) (hrest : Rest base s bs prevp p l) (hk : 0 < k)
    (hn : n + 8 ≤ 8 * k) (hfits : ∃ x ∈ l ++ [s.freep], k ≤ s.size x) (hfuel : l.length < fuel) :
    wp (mallocLoop k fuel prevp p) (Given base lo n bs) (fun _ _ => False) s := by
  induction l generalizing prevp p fuel with
  | nil =>
    obtain ⟨fuel, rfl⟩ := Nat.exists_eq_succ_of_ne_zero (Nat.ne_of_gt hfuel)
    obtain rfl := hrest.last
    obtain ⟨x, hx, hle⟩ := hfits
    obtain rfl := List.mem_singleton.1 hx
    rw [mallocLoop, wp_bind, wp_get, if_pos hle]
    exact carve_rule h hrest.prev h.freep hrest.next hk hle hn
  | cons c l ih =>
    rw [List.length_cons] at hfuel
    obtain ⟨fuel, rfl⟩ := Nat.exists_eq_succ_of_ne_zero (Nat.ne_of_gt (Nat.zero_lt_of_lt hfuel))
    obtain ⟨rfl, hp, hne, htail⟩ := hrest.head
    rw [mallocLoop, wp_bind, wp_get]
    by_cases hle : k ≤ s.size p
    · rw [if_pos hle]
      exact carve_rule h hrest.prev hp hrest.next hk hle hn
    rw [if_neg hle, if_neg hne]
    refine ih htail ?_ (by omega)
    obtain ⟨x, hx, hxle⟩ := hfits
    rcases List.mem_cons.1 hx with rfl | hx
    · exact absurd hxle hle
    · exact ⟨x, hx, hxle⟩

theorem Given.users {bs' : List Block} {r : ℕ} (h : Given base lo n bs' r t)
    (hu : users bs' = users bs) : Given base lo n bs r t := by
  rwa [Given, ← hu]

/-- What `malloc` does: it fails, or gives what is asked for. -/
def Answer (base lo n : ℕ) (bs : List Block) (r : ℕ) (t : Heap) : Prop :=
  r = 0 ∧ Inv base lo t bs ∨ Given base lo n bs r t

theorem mallocLoop_rule (h : Inv base lo s bs) (hrest : Rest base s bs prevp p l) (hk : 0 < k)
    (hk' : k < 2 ^ 28) (hn : n + 8 ≤ 8 * k) (hfuel : l.length + 2 ^ 30 ≤ fuel) :
    wp (mallocLoop k fuel prevp p) (Answer base lo n bs) (fun _ _ => False) s := by
  induction l generalizing prevp p fuel with
  | nil =>
    obtain ⟨fuel, rfl⟩ : ∃ m, fuel = m + 1 := ⟨fuel - 1, by omega⟩
    obtain rfl := hrest.last
    rw [mallocLoop, wp_bind, wp_get]
    by_cases hle : k ≤ s.size s.freep
    · rw [if_pos hle]
      exact wp_imp (carve_rule h hrest.prev h.freep hrest.next hk hle hn) fun _ _ => .inr
    rw [if_neg hle, if_pos rfl, wp_bind]
    refine wp_imp (morecore_rule h hk') ?_
    rintro r t (⟨rfl, hinv⟩ | ⟨rfl, hr, bs', hinv, hu, c, hc, hcu, hck⟩)
    · rw [if_pos rfl]
      exact .inl ⟨rfl, hinv⟩
    -- the second round
    rw [if_neg hr, wp_bind, wp_get]
    obtain ⟨l', hrest', hperm⟩ := hinv.rest
    have hlen := hperm.length_eq
    have hmax := hinv.length_le
    rw [List.length_append, List.length_singleton] at hlen
    refine wp_imp (mallocLoop_fits hinv hrest' hk hn ?_ (by omega)) fun _ _ hg => .inr (hg.users hu)
    refine ⟨c.addr, hperm.mem_iff.2 (List.mem_cons_of_mem _ (mem_frees.2 ⟨c, hc, hcu, rfl⟩)), ?_⟩
    rwa [hinv.size c hc]
  | cons c l ih =>
    rw [List.length_cons] at hfuel
    obtain ⟨fuel, rfl⟩ : ∃ m, fuel = m + 1 := ⟨fuel - 1, by omega⟩
    obtain ⟨rfl, hp, hne, htail⟩ := hrest.head
    rw [mallocLoop, wp_bind, wp_get]
    by_cases hle : k ≤ s.size p
    · rw [if_pos hle]
      exact wp_imp (carve_rule h hrest.prev hp hrest.next hk hle hn) fun _ _ => .inr
    · rw [if_neg hle, if_neg hne]
      exact ih htail (by omega)

/-- The heap before the first call of `malloc`. -/
structure Fresh (base lo : ℕ) (s : Heap) : Prop where
  base_pos : 0 < base
  base_le : base + 8 ≤ lo
  brk : s.brk = lo
  brk_lt : lo < 2 ^ 32
  freep : s.freep = 0

theorem Fresh.inv (h : Fresh base lo s) :
    Inv base lo ({ s.setPtr base base with freep := base }.setSize base 0) [] := by
  refine ⟨h.base_pos, h.base_le, h.brk.symm ▸ h.brk_lt, h.brk.symm, nofun, ?_, ⟨rfl, ?_⟩,
    List.mem_cons_self, List.isChain_nil, nofun⟩
  · exact Heap.size_setSize_self _
  · show Heap.ptr _ base = base
    rw [Heap.ptr_setSize_self]
    exact s.ptr_setPtr_self

theorem malloc_rule (h : Inv base lo s bs ∨ Fresh base lo s ∧ bs = []) (hn : n ≤ 2 ^ 31 - 16) :
    wp (malloc base n) (Answer base lo n bs) (fun _ _ => False) s := by
  have hround : ∀ {u : Heap}, Inv base lo u bs →
      wp (mallocLoop ((n + 8 - 1) % 2 ^ 32 / 8 + 1) rounds u.freep (u.ptr u.freep))
        (Answer base lo n bs) (fun _ _ => False) u := by
    intro u hu
    obtain ⟨l, hrest, hperm⟩ := hu.rest
    have hlen := hperm.length_eq
    have hmax := hu.length_le
    rw [List.length_append, List.length_singleton] at hlen
    refine mallocLoop_rule hu hrest (Nat.succ_pos _) (by omega) (by omega) ?_
    rw [rounds]
    omega
  rw [malloc, wp_bind, wp_get]
  rcases h with h | ⟨h, rfl⟩
  · rw [if_neg h.freep_ne]
    exact hround h
  · rw [if_pos h.freep]
    exact hround h.inv

end Xv6.Umalloc

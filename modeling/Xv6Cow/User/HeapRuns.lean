import Xv6Cow.User.Malloc

/-!
# The user heap over whole runs

Every call of `malloc` and `free`, and every store into memory in use, leaves the heap a row of
blocks: the circular list and the blocks of the program share the memory from `sbrk`, and the calls
return.
-/

namespace Xv6.Umalloc

open Prog Lts Clist Tiles

variable {base lo : ℕ} {s t : Client} {bs : List Block} {a : Act}

/-! ## Steps -/

/-- The row of blocks of a client, empty before the first call of `malloc`. -/
def Row (base lo : ℕ) (s : Client) (bs : List Block) : Prop :=
  (Inv base lo s.heap bs ∨ Fresh base lo s.heap ∧ bs = []) ∧ s.live.Perm (users bs)

theorem Start.row (h : Start base s) : Row base s.heap.brk s [] :=
  ⟨.inr ⟨⟨h.base_pos, h.base_le, rfl, h.brk_lt, h.freep⟩, rfl⟩, h.live ▸ .nil⟩

theorem Row.inv (h : Row base lo s bs) {r : ℕ × ℕ} (hr : r ∈ s.live) :
    Inv base lo s.heap bs ∧ ∃ l1 b l2, bs = l1 ++ b :: l2 ∧ b.user = some r.2 ∧ r.1 = b.addr + 8 := by
  obtain ⟨b, hb, hu, haddr⟩ := mem_users.1 (h.2.mem_iff.1 hr)
  obtain ⟨l1, l2, hbs⟩ := List.append_of_mem hb
  refine ⟨h.1.resolve_right fun hfresh => ?_, l1, b, l2, hbs, hu, haddr.symm⟩
  rw [hfresh.2] at hb
  cases hb

theorem Inv.store {s : Heap} (h : Inv base lo s bs) {mem : ℕ → ℕ}
    (hmem : ∀ a, mem a = s.mem a ∨ ∃ r ∈ users bs, a ∈ Set.Ico r.1 (r.1 + r.2)) :
    Inv base lo { s with mem := mem } bs := by
  have hheader : ∀ x ∈ base :: bs.map Block.addr, ∀ a, x ≤ a → a < x + 8 → mem a = s.mem a := by
    intro x hx a hxa hax
    refine (hmem a).resolve_right ?_
    rintro ⟨r, hr, hra, har⟩
    obtain ⟨c, hc, hu, haddr⟩ := mem_users.1 hr
    obtain ⟨l1, l2, rfl⟩ := List.append_of_mem hc
    have hroom := h.room c hc r.2 hu
    rcases List.mem_cons.1 hx with rfl | hx
    · have := (h.tiled.mem hc).1
      have := h.base_le
      omega
    obtain ⟨d, hd, rfl⟩ := List.mem_map.1 hx
    rcases List.mem_append.1 hd with hd | hd
    · obtain ⟨hle, hlen⟩ := below h.tiled hd
      omega
    rcases List.mem_cons.1 hd with rfl | hd
    · omega
    · have := (above h.tiled hd).1
      omega
  have hsize : ∀ x ∈ base :: bs.map Block.addr, mem (x + 4) = s.mem (x + 4) := fun x hx =>
    hheader x hx (x + 4) (by omega) (by omega)
  refine ⟨h.base_pos, h.base_le, h.brk_lt, h.tiled, fun b hb => ?_, ?_, ?_, h.freep, h.apart, h.room⟩
  · exact (hsize _ (List.mem_cons_of_mem _ (List.mem_map_of_mem hb))).trans (h.size b hb)
  · exact (hsize _ List.mem_cons_self).trans h.base_size
  · exact h.ring.congr fun x hx => hheader x (mem_headers hx) x le_rfl (by omega)

theorem Row.of_malloc (h : Row base lo s bs) {nbytes ap : ℕ} {u : Heap} (hn : nbytes ≤ 2 ^ 31 - 16)
    (hrun : malloc base nbytes s.heap = .ok ap u) :
    ∃ bs', Row base lo ⟨u, if ap = 0 then s.live else (ap, nbytes) :: s.live⟩ bs' := by
  rcases wp_ok (malloc_rule h.1 hn) hrun with ⟨rfl, hinv⟩ | ⟨hap, bs', hinv, hperm⟩
  · exact ⟨bs, .inl hinv, h.2⟩
  refine ⟨bs', .inl hinv, ?_⟩
  show (if ap = 0 then _ else _ : List (ℕ × ℕ)).Perm _
  rw [if_neg hap]
  exact (h.2.cons _).trans hperm.symm

theorem Row.step (h : Row base lo s bs) (hs : Step base s a t) : ∃ bs', Row base lo t bs' := by
  cases hs with
  | malloc hn hrun => exact h.of_malloc (hn.trans (by decide)) hrun
  | @free t ap nbytes hap hrun =>
    obtain ⟨hinv, l1, b, l2, rfl, hu, haddr⟩ := h.inv hap
    obtain ⟨bs', hinv', hu', -⟩ := wp_ok (free_rule hinv hu haddr) hrun
    refine ⟨bs', .inl hinv', ?_⟩
    have hlive : s.live.Perm ((ap, nbytes) :: (users l1 ++ users l2)) := by
      refine h.2.trans ?_
      rw [users_append, users_used hu, ← haddr]
      exact List.perm_middle
    have herase := hlive.erase (ap, nbytes)
    rwa [List.erase_cons_head, ← hu'] at herase
  | @store mem hmem =>
    refine ⟨bs, ?_, h.2⟩
    rcases h.1 with hinv | ⟨hfresh, rfl⟩
    · refine .inl (hinv.store fun a => (hmem a).imp_right ?_)
      rintro ⟨r, hr, har⟩
      exact ⟨r, h.2.mem_iff.1 hr, har⟩
    · exact .inr ⟨⟨hfresh.base_pos, hfresh.base_le, hfresh.brk, hfresh.brk_lt, hfresh.freep⟩, rfl⟩

theorem Start.run {as : List Act} (h : Start base s) (hrun : Run (Step base) s as t) :
    ∃ bs, Row base s.heap.brk t bs :=
  hrun.invariant (I := fun t => ∃ bs, Row base s.heap.brk t bs) ⟨[], h.row⟩
    fun _ _ _ ⟨_, hrow⟩ hs => hrow.step hs

/-! ## What the row says about memory -/

/-- The bytes of the block with the header at `a`. -/
def Heap.extent (s : Heap) (a : ℕ) : Set ℕ := Set.Ico a (a + 8 * s.size a)

section Row

variable {s : Heap} (h : Inv base lo s bs)
include h

theorem Inv.extent_eq {b : Block} (hb : b ∈ bs) : s.extent b.addr = Set.Ico b.addr
    (b.addr + b.len) := by
  rw [Heap.extent, h.size b hb, Block.len]

theorem Inv.extent_base : s.extent base = ∅ := by
  rw [Heap.extent, h.base_size, Nat.mul_zero, Nat.add_zero, Set.Ico_self]

theorem Inv.extent_disjoint {b c : Block} (hb : b ∈ bs) (hc : c ∈ bs) (hne : b.addr ≠ c.addr) :
    Disjoint (s.extent b.addr) (s.extent c.addr) := by
  rw [h.extent_eq hb, h.extent_eq hc, Set.Ico_disjoint_Ico]
  obtain ⟨l1, l2, rfl⟩ := List.append_of_mem hc
  rcases List.mem_append.1 hb with hb | hb
  · have := (below h.tiled hb).1
    omega
  rcases List.mem_cons.1 hb with rfl | hb
  · exact absurd rfl hne
  · have := (above h.tiled hb).1
    omega

theorem Inv.not_touch {x y : ℕ} (hx : x ∈ base :: frees bs) (hy : y ∈ base :: frees bs) :
    x + 8 * s.size x ≠ y ∨ x = y := by
  rcases List.mem_cons.1 hx with rfl | hx
  · rw [h.base_size]
    omega
  obtain ⟨b, hb, hbu, rfl⟩ := mem_frees.1 hx
  obtain ⟨hlo, -, -⟩ := h.tiled.mem hb
  rw [h.size b hb]
  rcases List.mem_cons.1 hy with rfl | hy
  · have := h.base_le
    omega
  obtain ⟨c, hc, hcu, rfl⟩ := mem_frees.1 hy
  refine .inl fun htouch => ?_
  obtain ⟨l, m, rfl⟩ := h.tiled.touch hb hc htouch
  exact (apart_free hbu).1 h.apart |>.2.2.2 c rfl hcu

theorem Inv.cover {x : ℕ} : x ∈ Set.Ico lo s.brk ↔
    (∃ y ∈ base :: frees bs, x ∈ s.extent y) ∨ ∃ r ∈ users bs, x ∈ s.extent (r.1 - 8) := by
  rw [h.tiled.cover]
  constructor
  · rintro ⟨b, hb, hx⟩
    rw [← h.extent_eq hb] at hx
    cases hu : b.user with
    | none => exact .inl ⟨b.addr, List.mem_cons_of_mem _ (mem_frees.2 ⟨b, hb, hu, rfl⟩), hx⟩
    | some n => exact .inr ⟨(b.addr + 8, n), mem_users.2 ⟨b, hb, hu, rfl⟩, hx⟩
  rintro (⟨y, hy, hx⟩ | ⟨r, hr, hx⟩)
  · rcases List.mem_cons.1 hy with rfl | hy
    · rw [h.extent_base] at hx
      cases hx
    · obtain ⟨b, hb, -, rfl⟩ := mem_frees.1 hy
      exact ⟨b, hb, h.extent_eq hb ▸ hx⟩
  · obtain ⟨b, hb, -, haddr⟩ := mem_users.1 hr
    rw [← haddr, Nat.add_sub_cancel, h.extent_eq hb] at hx
    exact ⟨b, hb, hx⟩

theorem Inv.users_pairwise :
    (users bs).Pairwise fun r r' => Disjoint (s.extent (r.1 - 8)) (s.extent (r'.1 - 8)) := by
  have hblocks : bs.Pairwise fun b c => Disjoint (s.extent b.addr) (s.extent c.addr) :=
    h.tiled.pairwise.imp_of_mem fun {b c} hb hc hle => by
      refine h.extent_disjoint hb hc fun he => ?_
      have := (h.tiled.mem hb).2.1
      omega
  refine hblocks.filterMap _ fun b c hbc r hr r' hr' => ?_
  obtain ⟨_, -, rfl⟩ := Option.map_eq_some_iff.1 hr
  obtain ⟨_, -, rfl⟩ := Option.map_eq_some_iff.1 hr'
  exact hbc

end Row

/-! ## The heap of a program -/

theorem Row.free_ok (h : Row base lo s bs) {r : ℕ × ℕ} (hr : r ∈ s.live) : ∃ t,
    free r.1 s.heap = .ok () t := by
  obtain ⟨hinv, l1, b, l2, rfl, hu, haddr⟩ := h.inv hr
  obtain ⟨_, t, hok, -⟩ := wp_returns (free_rule hinv hu haddr)
  exact ⟨t, hok⟩

/-- In every state that a program reaches, the list at `freep` is circular and goes up with one wrap;
its blocks are disjoint and do not touch; what the program has got is disjoint from them and from each
other, and long enough; together they are the memory from `sbrk`; and the calls return. -/
theorem user_heap {s0 : Client} {as : List Act} (h0 : Start base s0) (hrun : Run (Step base) s0 as s) :
    (s.heap.freep = 0 → s.live = [] ∧ s.heap.brk = s0.heap.brk) ∧
    (s.heap.freep ≠ 0 → ∃ (row : List ℕ) (i : ℕ), Seg s.heap.ptr s.heap.freep
      (row.rotate i) s.heap.freep ∧ row.Pairwise (· < ·) ∧ base ∈ row ∧
      (∀ x ∈ row, ∀ y ∈ row, x ≠ y → Disjoint (s.heap.extent x) (s.heap.extent y) ∧
        x + 8 * s.heap.size x ≠ y) ∧
      (∀ r ∈ s.live, ∀ y ∈ row, Disjoint (s.heap.extent (r.1 - 8)) (s.heap.extent y)) ∧
      s.live.Pairwise (fun r r' => Disjoint (s.heap.extent (r.1 - 8)) (s.heap.extent (r'.1 - 8))) ∧
      (∀ r ∈ s.live, Set.Ico r.1 (r.1 + r.2) ⊆ s.heap.extent (r.1 - 8)) ∧
      ∀ x, x ∈ Set.Ico s0.heap.brk s.heap.brk ↔ (∃ y ∈ row, x ∈ s.heap.extent y) ∨
        ∃ r ∈ s.live, x ∈ s.heap.extent (r.1 - 8)) ∧
    (∀ nbytes ≤ 2 ^ 30, ∃ ap t, malloc base nbytes s.heap = .ok ap t) ∧
    ∀ r ∈ s.live, ∃ t, free r.1 s.heap = .ok () t := by
  obtain ⟨bs, hrow⟩ := h0.run hrun
  refine ⟨fun hp => ?_, fun hp => ?_, fun n hn => ?_, fun r hr => ?_⟩
  · rcases hrow.1 with hinv | ⟨hfresh, rfl⟩
    · exact absurd hp hinv.freep_ne
    · exact ⟨hrow.2.eq_nil, hfresh.brk⟩
  · have h := hrow.1.resolve_right fun hfresh => hp hfresh.1.freep
    obtain ⟨u, v, huv⟩ := List.append_of_mem h.freep
    have hring := h.ring
    rw [huv] at hring
    refine ⟨base :: frees bs, u.length, ?_, frees_sorted h.tiled h.base_le, List.mem_cons_self, ?_, ?_,
      ?_, ?_, fun x => ?_⟩
    · rw [huv, List.rotate_append_length_eq]
      exact hring.enter
    · intro x hx y hy hne
      refine ⟨?_, (h.not_touch hx hy).resolve_right hne⟩
      rcases List.mem_cons.1 hx with rfl | hx
      · rw [h.extent_base]
        exact Set.empty_disjoint _
      rcases List.mem_cons.1 hy with rfl | hy
      · rw [h.extent_base]
        exact Set.disjoint_empty _
      · obtain ⟨b, hb, -, rfl⟩ := mem_frees.1 hx
        obtain ⟨c, hc, -, rfl⟩ := mem_frees.1 hy
        exact h.extent_disjoint hb hc hne
    · intro r hr y hy
      obtain ⟨b, hb, hu, haddr⟩ := mem_users.1 (hrow.2.mem_iff.1 hr)
      rw [← haddr, Nat.add_sub_cancel]
      rcases List.mem_cons.1 hy with rfl | hy
      · rw [h.extent_base]
        exact Set.disjoint_empty _
      obtain ⟨c, hc, hcu, rfl⟩ := mem_frees.1 hy
      refine h.extent_disjoint hb hc fun he => ?_
      obtain ⟨l1, l2, rfl⟩ := List.append_of_mem hc
      have hne : b ≠ c := by
        rintro rfl
        rw [hu] at hcu
        cases hcu
      exact (clear_block h.tiled (by simpa [hne] using hb)).ne he
    · exact (hrow.2.pairwise_iff fun {_ _} hd => hd.symm).2 h.users_pairwise
    · intro r hr x hx
      obtain ⟨b, hb, hu, haddr⟩ := mem_users.1 (hrow.2.mem_iff.1 hr)
      have hroom := h.room b hb r.2 hu
      rw [← haddr, Nat.add_sub_cancel, h.extent_eq hb]
      rw [← haddr] at hx
      exact ⟨by have := hx.1; omega, by have := hx.2; omega⟩
    · rw [h.cover]
      simp only [hrow.2.mem_iff]
  · obtain ⟨ap, t, hok, -⟩ := wp_returns (malloc_rule hrow.1 (hn.trans (by decide)))
    exact ⟨ap, t, hok⟩
  · exact hrow.free_ok hr

/-- A program that has just been started. -/
def started : Client where
  heap := { mem := fun _ => 0, freep := 0, brk := 0x3000, answers := fun _ => true }
  live := []

theorem started_start : Start 0x1000 started := ⟨by decide, by decide, by decide, rfl, rfl⟩

theorem started_malloc : ∃ t, malloc 0x1000 10001 started.heap = .ok 35048 t := by
  have hap : (match malloc 0x1000 10001 started.heap with
      | .ok ap _ => ap
      | .error _ _ => 0) = 35048 := by
    decide +kernel
  cases hrun : malloc 0x1000 10001 started.heap with
  | ok ap t =>
    rw [hrun] at hap
    exact ⟨t, by rw [← hap]⟩
  | error e t =>
    rw [hrun] at hap
    cases hap

theorem user_heap_started : ∃ s, Run (Step 0x1000) started [.malloc 10001] s ∧
    s.live = [(35048, 10001)] ∧ ∀ r ∈ s.live, ∃ t, free r.1 s.heap = .ok () t := by
  obtain ⟨t, ht⟩ := started_malloc
  have hrun := Run.one (Step.malloc (s := started) (by decide) ht)
  exact ⟨_, hrun, rfl, (user_heap started_start hrun).2.2.2⟩

/-! ## Requests of any size -/

theorem Row.call (h : Row base lo s bs) (hs : given (Call base) Small s a t) :
    ∃ bs', Row base lo t bs' := by
  obtain ⟨hsmall, hs⟩ := hs
  cases hs with
  | malloc hrun => exact h.of_malloc hsmall hrun
  | other _ hs => exact h.step hs

theorem Row.served (h : Row base lo s bs) {nbytes : ℕ} (hn : nbytes ≤ 2 ^ 31 - 16) :
    ∃ ap t, malloc base nbytes s.heap = .ok ap t ∧ Served lo nbytes s.heap ap t := by
  obtain ⟨ap, t, hok, hans⟩ := wp_returns (malloc_rule h.1 hn)
  refine ⟨ap, t, hok, ?_⟩
  rcases hans with ⟨rfl, hinv⟩ | ⟨hap, bs', hinv, hperm⟩
  · refine .inl ⟨rfl, ?_⟩
    rcases h.1 with hs | ⟨hfresh, rfl⟩
    · exact (hs.tiled.hi_unique hinv.tiled).le
    · rw [hfresh.brk]
      exact hinv.tiled.le
  obtain ⟨b, hb, hu, haddr⟩ := mem_users.1 (hperm.mem_iff.2 List.mem_cons_self)
  have hroom := hinv.room b hb _ hu
  obtain ⟨hlo, -, hhi⟩ := hinv.tiled.mem hb
  dsimp only at haddr hroom
  have hback : ap - 8 = b.addr := by omega
  right
  rw [hback, hinv.size b hb]
  unfold Block.len at hroom hhi
  omega

/-- As long as a program asks for at most `2 ^ 31 - 16` bytes at a time, `malloc` never returns a block
that is too small, or outside of the memory from `sbrk`. -/
theorem malloc_large_enough {s0 : Client} {as : List Act} (h0 : Start base s0)
    (hrun : Run (given (Call base) Small) s0 as s) {nbytes : ℕ} (hn : nbytes ≤ 2 ^ 31 - 16) :
    ∃ ap t, malloc base nbytes s.heap = .ok ap t ∧ Served s0.heap.brk nbytes s.heap ap t := by
  obtain ⟨bs, hrow⟩ := hrun.invariant (I := fun t => ∃ bs, Row base s0.heap.brk t bs) ⟨[], h0.row⟩
    fun _ _ _ ⟨_, hrow⟩ hs => hrow.call hs
  exact hrow.served hn

/-- A block has been allocated and freed. -/
theorem malloc_large_enough_reused :
    ∃ s, Run (given (Call 0x1000) Small) started [.malloc 10001, .free 35048] s ∧
      ∃ ap t, malloc 0x1000 (2 ^ 31 - 16) s.heap = .ok ap t ∧
        Served 0x3000 (2 ^ 31 - 16) s.heap ap t := by
  obtain ⟨t, ht⟩ := started_malloc
  have hcall : given (Call 0x1000) Small started (.malloc 10001) ⟨t, [(35048, 10001)]⟩ :=
    ⟨by show 10001 ≤ _; decide, .malloc ht⟩
  obtain ⟨bs, hrow⟩ := started_start.row.call hcall
  obtain ⟨u, hu⟩ := hrow.free_ok List.mem_cons_self
  have hfree : given (Call 0x1000) Small _ (.free 35048) ⟨u, []⟩ :=
    ⟨trivial, .other nofun (.free List.mem_cons_self hu)⟩
  have hrun := Run.cons hcall (.one hfree)
  exact ⟨_, hrun, malloc_large_enough started_start hrun le_rfl⟩

/-- `nbytes + sizeof(Header) - 1` wraps: a block of one header, for a request of `2 ^ 32 - 1` bytes. -/
theorem malloc_wraps :
    ∃ ap t, malloc 0x1000 (2 ^ 32 - 1) started.heap = .ok ap t ∧
      ¬ Served 0x3000 (2 ^ 32 - 1) started.heap ap t := by
  have hres : (match malloc 0x1000 (2 ^ 32 - 1) started.heap with
      | .ok ap t => decide (ap ≠ 0 ∧ t.size (ap - 8) = 1)
      | .error _ _ => false) = true := by
    decide +kernel
  cases hrun : malloc 0x1000 (2 ^ 32 - 1) started.heap with
  | ok ap t =>
    rw [hrun] at hres
    obtain ⟨hap, hsize⟩ := of_decide_eq_true hres
    refine ⟨ap, t, rfl, ?_⟩
    unfold Served
    rw [hsize]
    omega
  | error e t =>
    rw [hrun] at hres
    cases hres

end Xv6.Umalloc

import Xv6Cow.Vm.Safety

/-!
# The kernel half of an address space

`setupkvm` maps the rows of `kmap` into a new page directory, or frees what it took.  The loop of
`mappages` is taken here as it stands in the source, with the test `a == last` on 32-bit addresses that
wrap around.  The frames that may be handed out while the directory is in use are a set `G` without the
directory and the page tables of its kernel half.
-/

namespace Xv6

open Function Lts Prog

variable {s t : Vm} {c d i v f : ℕ}

/-! ## Translation -/

/-- The size that `setupkvm` passes to `mappages`, `k->phys_end - k->phys_start`. -/
def Kmap.size (k : Kmap) : ℕ := (k.physEnd + word - k.physStart) % word

/-- What `kmap` says about address `a`: its physical address, and whether it can be written. -/
def kmapAt [Link] (a : ℕ) : Option (ℕ × Bool) :=
  (kmap.find? fun k => k.virt ≤ a ∧ a - k.virt < k.size).map fun k => (k.physStart + (a - k.virt), k.w)

/-- The physical address that `a` is translated to under directory `d`, with `PTE_W` and `PTE_U`. -/
def Vm.translate (s : Vm) (d a : ℕ) : Option (ℕ × Bool × Bool) :=
  let e := s.pte d (a / pgsize)
  if e.p then some (e.frame * pgsize + a % pgsize, e.w, e.u) else none

/-- The addresses of the kernel half are translated as `kmap` says, and only for the kernel. -/
def Vm.KernelHalf [Link] (s : Vm) (d : ℕ) : Prop :=
  ∀ a, kernbase ≤ a → a < word → s.translate d a = (kmapAt a).map fun x => (x.1, x.2, false)

/-- The row has page `v`. -/
def Kmap.Has (k : Kmap) (v : ℕ) : Prop := k.first ≤ v ∧ v ≤ k.last

instance (k : Kmap) (v : ℕ) : Decidable (k.Has v) := inferInstanceAs (Decidable (_ ∧ _))

/-- The entry that the row has for page `v`. -/
def Kmap.entry (k : Kmap) (v : ℕ) : Pte := ⟨k.physStart / pgsize + (v - k.first), true, k.w, false⟩

/-- The entry of page `v` when the rows are mapped over the entries `e`. -/
def rowsPte (ks : List Kmap) (e : ℕ → Pte) (v : ℕ) : Pte :=
  match ks.find? fun k => k.Has v with
  | some k => k.entry v
  | none => e v

/-- The entry of page `v` in a directory with the rows of `kmap` and no user page. -/
def kernelPte [Link] : ℕ → Pte := rowsPte kmap fun _ => .zero

/-- A row whose ends are page boundaries and whose last address does not wrap. -/
structure Kmap.Aligned (k : Kmap) : Prop where
  virt : k.virt % pgsize = 0
  phys : k.physStart % pgsize = 0
  size : k.size % pgsize = 0
  pos : 0 < k.size
  fits : k.virt + k.size ≤ word
  physFits : k.physStart + k.size ≤ word

variable {k : Kmap}

theorem Kmap.Aligned.last_eq (h : k.Aligned) : k.last = k.first + (k.size / pgsize - 1) := by
  obtain ⟨hv, -, hs, hpos, hfit, -⟩ := h
  show (k.virt + k.size - 1) % word / pgsize = k.virt / pgsize + (k.size / pgsize - 1)
  simp only [pgsize, word] at *
  omega

theorem Kmap.Aligned.has_iff (h : k.Aligned) (a : ℕ) :
    k.Has (a / pgsize) ↔ k.virt ≤ a ∧ a - k.virt < k.size := by
  rw [Has, h.last_eq, first]
  obtain ⟨hv, -, hs, hpos, -, -⟩ := h
  simp only [pgsize] at *
  omega

theorem Kmap.Aligned.entry_eq (h : k.Aligned) {a : ℕ} (ha : k.virt ≤ a) :
    (k.entry (a / pgsize)).frame * pgsize + a % pgsize = k.physStart + (a - k.virt) := by
  simp only [entry, first]
  obtain ⟨hv, hp, -, -, -, -⟩ := h
  simp only [pgsize] at *
  omega

section Link

variable [Link]

theorem kmap_aligned : ∀ k ∈ kmap, k.Aligned := by
  have h1 := Link.kernlink_lt_data
  have h2 := Link.data_lt
  have h3 := Link.data_aligned
  have hrow : ∀ k : Kmap, k.virt % pgsize = 0 ∧ k.physStart % pgsize = 0 ∧ k.size % pgsize = 0 ∧
      0 < k.size ∧ k.virt + k.size ≤ word ∧ k.physStart + k.size ≤ word → k.Aligned :=
    fun k h => ⟨h.1, h.2.1, h.2.2.1, h.2.2.2.1, h.2.2.2.2.1, h.2.2.2.2.2⟩
  simp only [kmap, List.mem_cons, List.not_mem_nil, or_false, forall_eq_or_imp, forall_eq]
  refine ⟨hrow _ ?_, hrow _ ?_, hrow _ ?_, hrow _ ?_⟩
  all_goals
    simp only [Kmap.size, kernlink, kernbase, extmem, phystop, devspace, v2p, pgsize, word,
      true_and] at h1 h2 h3 ⊢
    omega

/-- A directory with the entries of `kmap` translates the kernel half as `kmap` says. -/
theorem kernelHalf_of_pte (h : ∀ v, kernpage ≤ v → s.pte d v = kernelPte v) : s.KernelHalf d := by
  intro a hk _
  have hv : kernpage ≤ a / pgsize := by
    simp only [kernpage, kernbase, pgsize] at *
    omega
  have hfind : (kmap.find? fun k => decide (k.Has (a / pgsize))) =
      kmap.find? fun k => decide (k.virt ≤ a ∧ a - k.virt < k.size) :=
    List.find?_congr fun k hk => decide_eq_decide.2 ((kmap_aligned k hk).has_iff a)
  simp only [Vm.translate, kmapAt, h _ hv, kernelPte, rowsPte, hfind]
  cases hrow : kmap.find? fun k => decide (k.virt ≤ a ∧ a - k.virt < k.size) with
  | none => rfl
  | some k =>
    have hmem := List.mem_of_find?_eq_some hrow
    have hin := List.find?_some hrow
    rw [decide_eq_true_eq] at hin
    simp only [Option.map_some, ← (kmap_aligned k hmem).entry_eq hin.1]
    rfl

theorem kernelPte_u (v : ℕ) : (kernelPte v).u = false := by
  unfold kernelPte rowsPte
  split <;> rfl

theorem kernelPte_kernpage : (kernelPte kernpage).p = true := by
  have hfind : kmap.find? (fun k => decide (k.Has kernpage)) = some ⟨kernbase, 0, extmem, true⟩ := by
    unfold kmap
    exact List.find?_cons_of_pos (by decide)
  unfold kernelPte rowsPte
  rw [hfind]
  rfl

theorem kernelPte_zero (hv : v < kernpage) : kernelPte v = .zero := by
  have hfind : kmap.find? (fun k => decide (k.Has v)) = none := by
    refine List.find?_eq_none.2 fun k hk hhas => ?_
    have hhigh := (kmap_high k hk).1
    exact absurd ((of_decide_eq_true hhas).1) (not_le.2 (hv.trans_le hhigh))
  unfold kernelPte rowsPte
  rw [hfind]

theorem kernelPte_user (hv : v < kernpage) : (kernelPte v).p = false := by
  rw [kernelPte_zero hv]
  rfl

end Link

/-! ## The loop of `mappages`, with addresses that wrap -/

/-- The loop of `mappages`, with page numbers modulo 2^20, for at most the given number of steps. -/
def mapUntil (d : ℕ) (w u : Bool) (last : ℕ) : (steps a pa : ℕ) → M Bool
  | 0, _, _ => throw "mappages: still running"
  | n + 1, a, pa => do
    if ← walkpgdir d a true then
      let s ← get
      if (s.pte d a).p then throw "remap"
      else do
        modify fun s => s.setPte d a ⟨pa, true, w, u⟩
        if a = last then pure true
        else mapUntil d w u last n ((a + 1) % 2 ^ 20) ((pa + 1) % 2 ^ 20)
    else pure false

/-- `mappages`, for at most the given number of steps. -/
def mappagesIn (steps d va size pa : ℕ) (w u : Bool) : M Bool :=
  mapUntil d w u ((va + size + word - 1) % word / pgsize) steps (va / pgsize) (pa / pgsize)

section Link

variable [Link]

def setupkvmLoopIn (steps d : ℕ) : List Kmap → M (Option ℕ)
  | [] => pure (some d)
  | k :: ks => do
    if ← mappagesIn steps d k.virt k.size k.physStart k.w false then setupkvmLoopIn steps d ks
    else do
      freevm d
      pure none

/-- `setupkvm`, with at most the given number of steps in each call of `mappages`. -/
def setupkvmIn (steps : ℕ) : M (Option ℕ) := do
  match ← kalloc with
  | none => pure none
  | some d => do
    modify fun s => s.setDir d (some fun _ => none)
    if devspace < kernbase + phystop then throw "PHYSTOP too high"
    else setupkvmLoopIn steps d kmap

end Link

/-- The loop ends when it reaches `last`. -/
theorem mapUntil_eq (w u : Bool) {last : ℕ} (hlast : last < 2 ^ 20) (n : ℕ) : ∀ {a pa : ℕ}, a ≤ last →
    last - a < n → pa + (last - a) < 2 ^ 20 →
    mapUntil d w u last n a pa = mappagesLoop d w u (last - a) a pa := by
  induction n with
  | zero =>
    intro a pa _ hn
    exact absurd hn (Nat.not_lt_zero _)
  | succ n ih =>
    intro a pa ha hn hpa
    by_cases hend : a = last
    · subst hend
      rw [mapUntil, Nat.sub_self, mappagesLoop]
      simp only [if_true]
    obtain ⟨m, hm⟩ : ∃ m, last - a = m + 1 := ⟨last - a - 1, by omega⟩
    have ha' : (a + 1) % 2 ^ 20 = a + 1 := Nat.mod_eq_of_lt (by omega)
    have hpa' : (pa + 1) % 2 ^ 20 = pa + 1 := Nat.mod_eq_of_lt (by omega)
    have hm' : last - (a + 1) = m := by omega
    have hrest : mapUntil d w u last n (a + 1) (pa + 1) = mappagesLoop d w u m (a + 1) (pa + 1) := by
      rw [← hm']
      exact ih (by omega) (by omega) (by omega)
    rw [mapUntil, hm, mappagesLoop]
    simp only [hend, if_false, ha', hpa', hrest]

theorem Kmap.Aligned.mappagesIn_eq (h : k.Aligned) {steps : ℕ} (hsteps : 2 ^ 20 ≤ steps) :
    mappagesIn steps d k.virt k.size k.physStart k.w false =
      mappages d k.virt k.size k.physStart k.w false := by
  have hlast := h.last_eq
  have hlast' : (k.virt + k.size + word - 1) % word / pgsize = k.last := by
    have hpos := h.pos
    have hsum : k.virt + k.size + word - 1 = k.virt + k.size - 1 + word := by omega
    rw [hsum, Nat.add_mod_right]
    rfl
  rw [mappagesIn, hlast', ← Kmap.first]
  obtain ⟨hv, hp, hs, hpos, hfit, hpfit⟩ := h
  refine mapUntil_eq k.w false ?_ steps ?_ ?_ ?_
  all_goals
    simp only [Kmap.first, word, pgsize] at *
    omega

section Link

variable [Link]

theorem setupkvmLoopIn_eq {steps : ℕ} (hsteps : 2 ^ 20 ≤ steps) {ks : List Kmap}
    (hks : ∀ k ∈ ks, k.Aligned) : setupkvmLoopIn steps d ks = setupkvmLoop d ks := by
  induction ks with
  | nil => rfl
  | cons k ks ih =>
    have hrow := (hks k List.mem_cons_self).mappagesIn_eq (d := d) hsteps
    have hrest := ih fun k hk => hks k (List.mem_cons_of_mem _ hk)
    rw [setupkvmLoopIn, setupkvmLoop, hrow, hrest]
    rfl

/-- Each call of `mappages` in `setupkvm` ends within the number of pages there are. -/
theorem setupkvmIn_eq {steps : ℕ} (hsteps : 2 ^ 20 ≤ steps) : setupkvmIn steps = setupkvm := by
  have hloop : ∀ d, setupkvmLoopIn steps d kmap = setupkvmLoop d kmap :=
    fun d => setupkvmLoopIn_eq hsteps kmap_aligned
  refine congrArg (kalloc >>= ·) (funext fun r => ?_)
  cases r with
  | none => rfl
  | some d => simp only [hloop]

end Link

/-! ## The pages that a directory takes -/

/-- The frames of the page tables of a directory. -/
def Vm.tables (s : Vm) (c : ℕ) : List ℕ := (List.range nptentries).filterMap (s.tabFrame c)

theorem filterMap_perm {g : ℕ → Option ℕ} {l : List ℕ} (hl : l.Nodup) (hi : i ∈ l) (hg : g i = some f) :
    (l.filterMap g).Perm (f :: l.filterMap (update g i none)) := by
  induction l with
  | nil => cases hi
  | cons j l ih =>
    obtain ⟨hj, hl⟩ := List.nodup_cons.1 hl
    by_cases heq : j = i
    · subst heq
      have hrest : l.filterMap (update g j none) = l.filterMap g :=
        List.filterMap_congr fun k hk => update_of_ne (ne_of_mem_of_not_mem hk hj) _ _
      rw [List.filterMap_cons_some hg, List.filterMap_cons_none (update_self ..), hrest]
    have hmem : i ∈ l := (List.mem_cons.1 hi).resolve_left (Ne.symm heq)
    have hsame : update g i none j = g j := update_of_ne heq _ _
    rcases hgj : g j with _ | x
    · rw [List.filterMap_cons_none hgj, List.filterMap_cons_none (hsame.trans hgj)]
      exact ih hl hmem
    rw [List.filterMap_cons_some hgj, List.filterMap_cons_some (hsame.trans hgj)]
    exact ((ih hl hmem).cons x).trans (.swap ..)

theorem tables_perm (hi : i < nptentries) (hi' : t.tabFrame c i = some f)
    (hrest : ∀ j, s.tabFrame c j = if j = i then none else t.tabFrame c j) :
    (t.tables c).Perm (f :: s.tables c) := by
  have hs : s.tabFrame c = update (t.tabFrame c) i none := by
    funext j
    rw [hrest, update_apply]
  unfold Vm.tables
  rw [hs]
  exact filterMap_perm List.nodup_range (List.mem_range.2 hi) hi'

theorem mem_tables (hi : i < nptentries) (h : s.tabFrame c i = some f) : f ∈ s.tables c :=
  List.mem_filterMap.2 ⟨i, List.mem_range.2 hi, h⟩

/-- Only the page tables of `c` have changed, and the free list by their frames. -/
structure Books (c : ℕ) (s t : Vm) : Prop where
  perm : (t.tables c ++ t.freelist).Perm (s.tables c ++ s.freelist)
  other : ∀ y, y ≠ c → t.pgdir y = s.pgdir y
  live : t.live = s.live
  refcount : t.refcount = s.refcount
  mem : ∀ f, f ∉ s.tables c ++ s.freelist → t.mem f = s.mem f

theorem Books.trans {u : Vm} (h : Books c s t) (h' : Books c t u) : Books c s u := by
  refine ⟨h'.perm.trans h.perm, fun y hy => (h'.other y hy).trans (h.other y hy), h'.live.trans h.live,
    h'.refcount.trans h.refcount, fun f hf => ?_⟩
  rw [h'.mem f fun hmem => hf (h.perm.mem_iff.1 hmem), h.mem f hf]

theorem Books.refl (c : ℕ) (s : Vm) : Books c s s := ⟨.rfl, fun _ _ => rfl, rfl, rfl, fun _ _ => rfl⟩

variable {y : ℕ}

theorem tab_of_pgdir (h : t.pgdir y = s.pgdir y) : t.tab y = s.tab y := by
  funext i
  unfold Vm.tab
  rw [h]

theorem pte_of_pgdir (h : t.pgdir y = s.pgdir y) : t.pte y = s.pte y := by
  funext v
  unfold Vm.pte
  rw [tab_of_pgdir h]

theorem pgdir_setTab (x : Option PgTab) (hy : y ≠ c) : (s.setTab c i x).pgdir y = s.pgdir y :=
  update_of_ne hy _ _

theorem pgdir_setPte (e : Pte) (hy : y ≠ c) : (s.setPte c v e).pgdir y = s.pgdir y := by
  unfold Vm.setPte
  split
  · rfl
  · exact pgdir_setTab _ hy

theorem pgdir_setDir (D : Option PgDir) (hy : y ≠ c) : (s.setDir c D).pgdir y = s.pgdir y :=
  update_of_ne hy _ _

theorem Books.setPte (c v : ℕ) (s : Vm) (e : Pte) : Books c s (s.setPte c v e) := by
  have htables : (s.setPte c v e).tables c = s.tables c := by
    unfold Vm.tables
    rw [Vm.tabFrame_setPte]
  refine ⟨?_, fun y hy => pgdir_setPte e hy, Vm.live_setPte .., Vm.setPte_refcount ..,
    fun f _ => congrFun (Vm.setPte_mem ..) f⟩
  rw [htables, Vm.setPte_freelist]

theorem kalloc_takes {E : String → Vm → Prop} :
    wp kalloc (fun r t => t.pgdir = s.pgdir ∧ t.refcount = s.refcount ∧ t.mem = s.mem ∧
      match r with
      | none => t.freelist = s.freelist
      | some f => s.freelist = f :: t.freelist) E s := by
  simp only [kalloc, wp_run]
  split_ifs
  · exact ⟨trivial, trivial, trivial, trivial⟩
  · cases s.freelist with
    | nil => exact ⟨rfl, rfl, rfl, rfl⟩
    | cons f fs => exact ⟨rfl, rfl, rfl, rfl⟩

theorem Books.newTable (hi : i < nptentries) (hc : s.live c = true) (hs : s.tab c i = none)
    (hdir : t.pgdir = s.pgdir) (href : t.refcount = s.refcount) (hmem : t.mem = s.mem)
    (hfree : s.freelist = f :: t.freelist) : Books c s (t.setTab c i (some ⟨f, fun _ => .zero⟩)) := by
  have htab : t.tab c = s.tab c := tab_of_pgdir (congrFun hdir c)
  have hlive : t.live = s.live := by
    funext y
    rw [Vm.live, Vm.live, hdir]
  have hnew : ∀ j, (t.setTab c i (some ⟨f, fun _ => .zero⟩)).tab c j =
      if j = i then some ⟨f, fun _ => .zero⟩ else s.tab c j := fun j => by
    have hc' : t.live c = true := by rw [hlive, hc]
    rw [Vm.tab_setTab, htab]
    simp only [hc', true_and, and_true]
  have hperm : ((t.setTab c i (some ⟨f, fun _ => .zero⟩)).tables c).Perm (f :: s.tables c) := by
    refine tables_perm hi ?_ fun j => ?_
    · rw [Vm.tabFrame, hnew, if_pos rfl]
      rfl
    simp only [Vm.tabFrame, hnew]
    split_ifs with hj
    · rw [hj, hs]
      rfl
    · rfl
  refine ⟨?_, fun y hy => ?_, ?_, href, fun g _ => congrFun hmem g⟩
  · rw [hfree, Vm.setTab_freelist]
    exact (hperm.append_right _).trans List.perm_middle.symm
  · rw [pgdir_setTab _ hy, hdir]
  · rw [Vm.live_setTab, hlive]

theorem walkpgdir_books (hc : s.live c = true) (hv : v < 2 ^ 20) :
    wp (walkpgdir c v true) (fun r t => Books c s t ∧ t.pte = s.pte ∧
      (r = true → t.tab c (v / nptentries) ≠ none)) NoPanic s := by
  have hi : v / nptentries < nptentries := by
    simp only [nptentries]
    omega
  simp only [walkpgdir, wp_run]
  cases hs : s.tab c (v / nptentries) with
  | some tb =>
    refine ⟨.refl c s, rfl, fun _ => ?_⟩
    rw [hs]
    exact Option.some_ne_none _
  | none =>
    simp only [wp_bind]
    refine wp_imp kalloc_takes ?_
    rintro (_ | f) t ⟨hdir, href, hmem, hfree⟩
    · have htab : t.tab = s.tab := funext fun y => tab_of_pgdir (congrFun hdir y)
      refine ⟨⟨?_, fun y _ => congrFun hdir y, ?_, href, fun g _ => congrFun hmem g⟩,
        Vm.pte_congr htab, (by rintro ⟨⟩)⟩
      · rw [hfree, Vm.tables, Vm.tabFrame_congr htab]
        rfl
      · funext y
        rw [Vm.live, Vm.live, hdir]
    have hb := Books.newTable hi hc hs hdir href hmem hfree
    have htab : t.tab = s.tab := funext fun y => tab_of_pgdir (congrFun hdir y)
    have ht : t.tab c (v / nptentries) = none := by rw [htab, hs]
    refine ⟨hb, ?_, fun _ => ?_⟩
    · funext y v'
      rw [Vm.pte_newTab ht, Vm.pte_congr htab]
    have hc' : t.live c = true := by
      rw [Vm.live, hdir]
      exact hc
    rw [Vm.tab_setTab, if_pos ⟨rfl, rfl, hc'⟩]
    exact Option.some_ne_none _

theorem mapOne_books (w u : Bool) (hc : s.live c = true) (hv : v < 2 ^ 20)
    (hp : (s.pte c v).p = false) : wp (mappagesLoop c w u 0 v f) (fun r t => Books c s t ∧
      ∀ v', t.pte c v' = if r = true ∧ v' = v then ⟨f, true, w, u⟩ else s.pte c v') NoPanic s := by
  simp only [mappagesLoop, wp_bind]
  refine wp_imp (walkpgdir_books hc hv) ?_
  rintro (_ | _) t ⟨hb, hpte, htab⟩
  · simp only [Bool.false_eq_true, if_false, wp_pure, false_and]
    exact ⟨hb, fun v' => by rw [hpte]⟩
  have hp' : ¬ (t.pte c v).p = true := by
    rw [hpte, hp]
    exact Bool.false_ne_true
  simp only [wp_run, hp']
  refine ⟨hb.trans (.setPte ..), fun v' => ?_⟩
  rw [Vm.pte_setPte (htab rfl), hpte]
  simp only [true_and]

theorem mapRange_books (w u : Bool) (n : ℕ) : ∀ {s : Vm} {v f : ℕ}, s.live c = true → v + n < 2 ^ 20 →
    (∀ v', v ≤ v' → v' ≤ v + n → (s.pte c v').p = false) →
    wp (mappagesLoop c w u n v f) (fun r t => Books c s t ∧
      (∀ v', ¬ (v ≤ v' ∧ v' ≤ v + n) → t.pte c v' = s.pte c v') ∧
      (r = true → ∀ v', v ≤ v' → v' ≤ v + n → t.pte c v' = ⟨f + (v' - v), true, w, u⟩)) NoPanic s := by
  induction n with
  | zero =>
    intro s v f hc hv hp
    refine wp_imp (mapOne_books w u hc hv (hp v le_rfl le_rfl)) ?_
    rintro r t ⟨hb, hpte⟩
    refine ⟨hb, fun v' hout => ?_, fun hr v' hle hge => ?_⟩
    · rw [hpte, if_neg fun h => hout ⟨h.2.ge, h.2.le⟩]
    · obtain rfl : v' = v := by omega
      rw [hpte, if_pos ⟨hr, rfl⟩, Nat.sub_self, Nat.add_zero]
  | succ n ih =>
    intro s v f hc hv hp
    rw [wp_mappagesLoop_succ]
    refine wp_imp (mapOne_books w u hc (by omega) (hp v le_rfl (by omega))) ?_
    rintro (_ | _) t ⟨hb, hpte⟩
    · simp only [Bool.false_eq_true, if_false, false_and] at hpte ⊢
      exact ⟨hb, fun v' _ => hpte v', nofun⟩
    simp only [if_true, true_and] at hpte ⊢
    have hp' : ∀ v', v + 1 ≤ v' → v' ≤ v + 1 + n → (t.pte c v').p = false := fun v' hle hge => by
      rw [hpte, if_neg (by omega)]
      exact hp v' (by omega) (by omega)
    have hc' : t.live c = true := by rw [hb.live, hc]
    refine wp_imp (ih (f := f + 1) hc' (by omega) hp') ?_
    rintro r t' ⟨hb', hout', hin'⟩
    refine ⟨hb.trans hb', fun v' hout => ?_, fun hr v' hle hge => ?_⟩
    · rw [hout' v' (by omega), hpte, if_neg (by omega)]
    by_cases heq : v' = v
    · rw [hout' v' (by omega), hpte, if_pos heq, heq, Nat.sub_self, Nat.add_zero]
    · have hsum : f + 1 + (v' - (v + 1)) = f + (v' - v) := by omega
      rw [hin' hr v' (by omega) (by omega), hsum]

/-! ## Giving the pages back -/

section Link

variable [Link]

theorem wp_kfree (hf : f ∈ frames) {Q : Unit → Vm → Prop} {E : String → Vm → Prop} :
    wp (kfree f) Q E s = Q () (s.freed f) := by
  have hvalid : ¬ (kernbase + f * pgsize < Link.kend ∨ phystop ≤ f * pgsize) := by
    have h1 := hf.1
    have h2 := hf.2
    simp only [firstFrame, v2p, pgsize, phystop, kernbase] at *
    omega
  rw [kfree, if_neg hvalid, wp_modify]

theorem deallocuvmLoop_none {sz : ℕ} (hsz : sz ≤ kernbase)
    (hp : ∀ v, v < kernpage → (s.pte c v).p = false)
    (v : ℕ) : wp (deallocuvmLoop c sz v) (fun _ t => t = s) NoPanic s := by
  rw [deallocuvmLoop]
  split_ifs with hlt
  · have hv : v < kernpage := by
      simp only [kernpage, kernbase, pgsize] at *
      omega
    simp only [wp_bind, wp_walkpgdir_false]
    split_ifs with htab
    · simp only [wp_run, hp v hv]
      exact deallocuvmLoop_none hsz hp (v + 1)
    · exact deallocuvmLoop_none hsz hp (v + (nptentries - 1) + 1)
  · rfl
termination_by sz - v * pgsize
decreasing_by all_goals
  simp only [pgsize, nptentries] at *
  omega

theorem freeTables_books (n : ℕ) : ∀ {s : Vm} {i : ℕ}, s.live c = true → i + n ≤ nptentries →
    (∀ f ∈ s.tables c, f ∈ frames) → (∀ j, j < i → s.tabFrame c j = none) →
    wp (freeTables c n i) (fun _ t => Books c s t ∧ ∀ j, j < i + n → t.tabFrame c j = none) NoPanic s := by
  induction n with
  | zero =>
    intro s i _ _ _ hnone
    exact ⟨.refl c s, hnone⟩
  | succ n ih =>
    intro s i hc hi hframes hnone
    have hsum : i + (n + 1) = i + 1 + n := by omega
    simp only [freeTables, wp_run]
    rcases ht : s.tab c i with _ | tb
    · have hnone' : ∀ j, j < i + 1 → s.tabFrame c j = none := fun j hj => by
        rcases Nat.lt_succ_iff_lt_or_eq.1 hj with hlt | rfl
        · exact hnone j hlt
        · rw [Vm.tabFrame, ht]
          rfl
      rw [hsum]
      exact ih hc (by omega) hframes hnone'
    have hfi : s.tabFrame c i = some tb.frame := by
      rw [Vm.tabFrame, ht]
      rfl
    have hmem : tb.frame ∈ s.tables c := mem_tables (by omega) hfi
    simp only [wp_run, wp_kfree (hframes _ hmem)]
    have hrest : ∀ j, ((s.freed tb.frame).setTab c i none).tabFrame c j =
        if j = i then none else s.tabFrame c j := fun j => by
      have hlive : (s.freed tb.frame).live c = true := hc
      simp only [Vm.tabFrame, Vm.tab_setTab, hlive, true_and, and_true, Vm.tab_freed]
      split_ifs <;> rfl
    have hperm : (s.tables c).Perm (tb.frame :: ((s.freed tb.frame).setTab c i none).tables c) :=
      tables_perm (by omega) hfi hrest
    have hstep : Books c s ((s.freed tb.frame).setTab c i none) := by
      refine ⟨?_, fun y hy => pgdir_setTab _ hy, Vm.live_setTab .., rfl, fun f hf => ?_⟩
      · exact List.perm_middle.trans ((hperm.append_right s.freelist).symm)
      · have hne : f ≠ tb.frame := fun heq => hf (heq ▸ List.mem_append_left _ hmem)
        exact update_of_ne hne _ _
    have hframes' : ∀ f ∈ ((s.freed tb.frame).setTab c i none).tables c, f ∈ frames :=
      fun f hf => hframes f (hperm.mem_iff.2 (List.mem_cons_of_mem _ hf))
    have hnone' : ∀ j, j < i + 1 → ((s.freed tb.frame).setTab c i none).tabFrame c j = none := fun j hj => by
      rw [hrest]
      split_ifs with hji
      · rfl
      · exact hnone j (by omega)
    have hc' : ((s.freed tb.frame).setTab c i none).live c = true := by
      rw [hstep.live, hc]
    refine wp_imp (ih hc' (by omega) hframes' hnone') ?_
    rintro _ t ⟨hb, hall⟩
    rw [hsum]
    exact ⟨hstep.trans hb, hall⟩

theorem freeDir_books (hc : s.live c = true) (hframes : ∀ f ∈ c :: s.tables c, f ∈ frames) :
    wp (do freeTables c nptentries 0; kfree c; modify fun s => s.setDir c none) (fun _ t =>
      t.freelist.Perm (c :: (s.tables c ++ s.freelist)) ∧ t.pgdir c = none ∧
      (∀ y, y ≠ c → t.pgdir y = s.pgdir y) ∧ t.refcount = s.refcount ∧
      ∀ f, f ∉ c :: (s.tables c ++ s.freelist) → t.mem f = s.mem f) NoPanic s := by
  simp only [wp_bind]
  refine wp_imp (freeTables_books nptentries hc (by omega)
    (fun f hf => hframes f (List.mem_cons_of_mem _ hf))
    (fun j hj => absurd hj (Nat.not_lt_zero j))) ?_
  rintro _ t ⟨hb, hnone⟩
  have hempty : t.tables c = [] :=
    List.filterMap_eq_nil_iff.2 fun j hj => hnone j (by simpa using hj)
  simp only [wp_kfree (hframes c List.mem_cons_self), wp_modify]
  refine ⟨?_, update_self .., fun y hy => ?_, hb.refcount, fun f hf => ?_⟩
  · have hperm := hb.perm
    rw [hempty, List.nil_append] at hperm
    exact hperm.cons c
  · rw [pgdir_setDir _ hy]
    exact hb.other y hy
  · obtain ⟨hfc, hf⟩ := not_or.1 (mt List.mem_cons.2 hf)
    exact (update_of_ne hfc _ _).trans (hb.mem f hf)

theorem freevm_books (hc : s.live c = true) (hp : ∀ v, v < kernpage → (s.pte c v).p = false)
    (hframes : ∀ f ∈ c :: s.tables c, f ∈ frames) :
    wp (freevm c) (fun _ t => t.freelist.Perm (c :: (s.tables c ++ s.freelist)) ∧ t.pgdir c = none ∧
      (∀ y, y ≠ c → t.pgdir y = s.pgdir y) ∧ t.refcount = s.refcount ∧
      ∀ f, f ∉ c :: (s.tables c ++ s.freelist) → t.mem f = s.mem f) NoPanic s := by
  have hpos : ¬ kernbase ≤ 0 := by decide
  rw [freevm, deallocuvm, if_neg hpos, wp_bind, wp_bind]
  refine wp_imp (deallocuvmLoop_none le_rfl hp _) ?_
  rintro _ _ rfl
  exact freeDir_books hc hframes

/-! ## `setupkvm` -/

omit [Link] in
theorem Rows.le_first {ks : List Kmap} : ∀ {v : ℕ}, Rows v ks → ∀ k ∈ ks, v ≤ k.first := by
  induction ks with
  | nil => exact fun _ => nofun
  | cons k ks ih =>
    rintro v ⟨hv, hk, hrows⟩ k' hk'
    rcases List.mem_cons.1 hk' with rfl | hmem
    · exact hv
    · have hle := ih hrows k' hmem
      omega

omit [Link] in
theorem rowsPte_cons {k : Kmap} {ks : List Kmap} {e e' : ℕ → Pte} (hrows : Rows (k.last + 1) ks)
    (he : ∀ v, e' v = if k.Has v then k.entry v else e v) (v : ℕ) :
    rowsPte ks e' v = rowsPte (k :: ks) e v := by
  unfold rowsPte
  by_cases hk : k.Has v
  · have hnone : (ks.find? fun k => decide (k.Has v)) = none := by
      refine List.find?_eq_none.2 fun k' hk' hhas => ?_
      have hle := hrows.le_first k' hk'
      have hge := (of_decide_eq_true hhas).1
      have hlast := hk.2
      omega
    simp only [hnone, List.find?_cons, hk, decide_true, he, if_true]
  · simp only [List.find?_cons, hk, decide_false, he, if_false]

theorem setupkvmLoop_books (ks : List Kmap) : ∀ {s : Vm} {v : ℕ}, Rows v ks → kernpage ≤ v →
    s.live c = true → (∀ v', v' < kernpage ∨ v ≤ v' → (s.pte c v').p = false) →
    (∀ f ∈ c :: (s.tables c ++ s.freelist), f ∈ frames) →
    wp (setupkvmLoop c ks) (fun r t => t.refcount = s.refcount ∧ (∀ y, y ≠ c → t.pgdir y = s.pgdir y) ∧
      (∀ f, f ∉ c :: (s.tables c ++ s.freelist) → t.mem f = s.mem f) ∧
      match r with
      | none => t.freelist.Perm (c :: (s.tables c ++ s.freelist)) ∧ t.pgdir c = none
      | some c' => c' = c ∧ Books c s t ∧ ∀ v', t.pte c v' = rowsPte ks (s.pte c) v') NoPanic s := by
  induction ks with
  | nil =>
    intro s v _ _ _ _ _
    exact ⟨rfl, fun _ _ => rfl, fun _ _ => rfl, rfl, .refl c s, fun _ => rfl⟩
  | cons k ks ih =>
    rintro s v ⟨hv, hkl, hrows⟩ hkern hc hp hframes
    have hlast : k.last < 2 ^ 20 := by
      simp only [Kmap.last, pgsize, word]
      omega
    have hsum : k.first + (k.last - k.first) = k.last := by omega
    simp only [setupkvmLoop, wp_bind, mappages_row]
    refine wp_imp (mapRange_books k.w false (k.last - k.first) hc (by omega)
      fun v' hle _ => hp v' (.inr (hv.trans hle))) ?_
    rintro r t ⟨hb, hout, hin⟩
    rw [hsum] at hout hin
    have hframes' : ∀ f ∈ c :: (t.tables c ++ t.freelist), f ∈ frames :=
      fun f hf => hframes f ((hb.perm.cons c).mem_iff.1 hf)
    have hmem : ∀ f, f ∉ c :: (s.tables c ++ s.freelist) →
        f ∉ c :: (t.tables c ++ t.freelist) ∧ t.mem f = s.mem f := fun f hf =>
      ⟨fun hf' => hf ((hb.perm.cons c).mem_iff.1 hf'), hb.mem f fun hf' =>
        hf (List.mem_cons_of_mem _ hf')⟩
    have hc' : t.live c = true := by rw [hb.live, hc]
    have hlow : ∀ v', v' < kernpage ∨ k.last + 1 ≤ v' → (t.pte c v').p = false := fun v' hv' => by
      rw [hout v' (by omega)]
      exact hp v' (by omega)
    cases r with
    | false =>
      simp only [wp_run]
      refine wp_imp (freevm_books hc' (fun v' hv' => hlow v' (.inl hv')) fun f hf => hframes' f ?_) ?_
      · rcases List.mem_cons.1 hf with rfl | hmem
        · exact List.mem_cons_self
        · exact List.mem_cons_of_mem _ (List.mem_append_left _ hmem)
      · rintro _ t' ⟨hperm, hnone, hother, href, hmem'⟩
        exact ⟨href.trans hb.refcount, fun y hy => (hother y hy).trans (hb.other y hy),
          fun f hf => (hmem' f (hmem f hf).1).trans (hmem f hf).2, hperm.trans (hb.perm.cons c), hnone⟩
    | true =>
      simp only [if_true]
      have hpte : ∀ v', t.pte c v' = if k.Has v' then k.entry v' else s.pte c v' := fun v' => by
        split_ifs with hhas
        · exact hin rfl v' hhas.1 hhas.2
        · exact hout v' hhas
      refine wp_imp (ih hrows (by omega) hc' hlow hframes') ?_
      rintro (_ | c') t' ⟨href, hother, hmem', hres⟩
      · exact ⟨href.trans hb.refcount, fun y hy => (hother y hy).trans (hb.other y hy),
          fun f hf => (hmem' f (hmem f hf).1).trans (hmem f hf).2,
            hres.1.trans (hb.perm.cons c), hres.2⟩
      obtain ⟨hcc, hb', hpte'⟩ := hres
      refine ⟨href.trans hb.refcount, fun y hy => (hother y hy).trans (hb.other y hy),
        fun f hf => (hmem' f (hmem f hf).1).trans (hmem f hf).2, hcc, hb.trans hb', ?_⟩
      intro v'
      rw [hpte', rowsPte_cons hrows hpte]

/-- `setupkvm` gives back what it took, or it makes a directory with the entries of `kmap`. -/
theorem setupkvm_books (hfree : ∀ f ∈ s.freelist, f ∈ frames) :
    wp setupkvm (fun r t => t.refcount = s.refcount ∧ (∀ f, f ∉ s.freelist → t.mem f = s.mem f) ∧
      match r with
      | none => t.freelist.Perm s.freelist ∧ ∀ y, t.pgdir y = s.pgdir y ∨ y ∈ s.freelist ∧
        t.pgdir y = none
      | some c => (c :: (t.tables c ++ t.freelist)).Perm s.freelist ∧ t.live c = true ∧
          (∀ y, y ≠ c → t.pgdir y = s.pgdir y) ∧ ∀ v, t.pte c v = kernelPte v) NoPanic s := by
  have hdev : ¬ devspace < kernbase + phystop := by decide
  simp only [setupkvm, wp_bind]
  refine wp_imp kalloc_takes ?_
  rintro (_ | c) t0 ⟨hdir, href0, hmem0, hfree0⟩
  · refine ⟨href0, fun f _ => congrFun hmem0 f, ?_, fun y => .inl (congrFun hdir y)⟩
    rw [hfree0]
  simp only [wp_run, hdev]
  have htab : ∀ i, (t0.setDir c (some fun _ => none)).tab c i = none := fun i => by
    simp [Vm.tab, Vm.setDir]
  have htables : (t0.setDir c (some fun _ => none)).tables c = [] :=
    List.filterMap_eq_nil_iff.2 fun i _ => by rw [Vm.tabFrame, htab, Option.map_none]
  have hpte : (t0.setDir c (some fun _ => none)).pte c = fun _ => .zero := by
    funext v'
    rw [Vm.pte, htab]
  have hlist : c :: ((t0.setDir c (some fun _ => none)).tables c ++
    (t0.setDir c (some fun _ => none)).freelist) =
      s.freelist := by
    rw [htables, hfree0]
    rfl
  have hlive : (t0.setDir c (some fun _ => none)).live c = true := by
    rw [Vm.live_setDir, if_pos rfl]
    rfl
  have hother : ∀ y, y ≠ c → (t0.setDir c (some fun _ => none)).pgdir y = s.pgdir y := fun y hy => by
    rw [pgdir_setDir _ hy, hdir]
  have hstart : ∀ v', v' < kernpage ∨ kernpage ≤ v' →
    ((t0.setDir c (some fun _ => none)).pte c v').p = false := fun v' _ => by
      rw [hpte]
      rfl
  refine wp_imp (setupkvmLoop_books kmap rows_kmap le_rfl hlive hstart fun f hmem => ?_) ?_
  · rw [hlist] at hmem
    exact hfree f hmem
  rintro (_ | c') t ⟨href, hoth, hmem, hres⟩
  · rw [hlist] at hres hmem
    refine ⟨href.trans href0, fun f hf => (hmem f hf).trans (congrFun hmem0 f), hres.1, fun y => ?_⟩
    by_cases hyc : y = c
    · subst hyc
      exact .inr ⟨hlist ▸ List.mem_cons_self, hres.2⟩
    · left
      rw [hoth y hyc, hother y hyc]
  · rw [hlist] at hmem
    obtain ⟨rfl, hb, hrows⟩ := hres
    refine ⟨href.trans href0, fun f hf => (hmem f hf).trans (congrFun hmem0 f), ?_, ?_,
      fun y hy => (hoth y hy).trans (hother y hy), fun v' => ?_⟩
    · rw [← hlist]
      exact hb.perm.cons _
    · rw [hb.live, hlive]
    · rw [hrows, hpte]
      rfl

end Link

/-! ## The user half -/

variable {G X : Set ℕ} {x : ℕ}

/-- The free list and the user pages of the directories `X` are in `G`, and no entry of their kernel halves
is for user code. -/
structure Confined (G X : Set ℕ) (s : Vm) : Prop where
  free : ∀ f ∈ s.freelist, f ∈ G
  user : ∀ x ∈ X, ∀ v, v < kernpage → (s.pte x v).p = true → (s.pte x v).frame ∈ G
  kern : ∀ x ∈ X, ∀ v, kernpage ≤ v → (s.pte x v).u = false

/-- The kernel half of `y` has the same page tables with the same entries. -/
structure Steady (y : ℕ) (s t : Vm) : Prop where
  pte : ∀ v, kernpage ≤ v → t.pte y v = s.pte y v
  frame : ∀ i, kernpage / nptentries ≤ i → t.tabFrame y i = s.tabFrame y i

/-- Only pages in `G` have been written. -/
def Writes (G : Set ℕ) (s t : Vm) : Prop := ∀ f, f ∉ G → t.mem f = s.mem f

/-- Only the user half of `x` and pages in `G` have changed, and new page tables of `x` are in `G`. -/
structure Edits (G : Set ℕ) (x : ℕ) (s t : Vm) : Prop extends Steady x s t where
  other : ∀ y, y ≠ x → t.pgdir y = s.pgdir y
  tables : ∀ i f, t.tabFrame x i = some f → s.tabFrame x i = some f ∨ f ∈ G
  writes : Writes G s t

def AnyPanic (_ : String) (_ : Vm) : Prop := True

theorem Writes.refl (G : Set ℕ) (s : Vm) : Writes G s s := fun _ _ => rfl

theorem Writes.trans {u : Vm} (h : Writes G s t) (h' : Writes G t u) : Writes G s u :=
  fun f hf => (h' f hf).trans (h f hf)

theorem Writes.of_mem (h : t.mem = s.mem) : Writes G s t := fun f _ => congrFun h f

theorem Writes.setMem (hf : f ∈ G) (pg : Page) : Writes G s (s.setMem f pg) :=
  fun _ hg => update_of_ne (ne_of_mem_of_not_mem hf hg).symm _ _

theorem Steady.refl (y : ℕ) (s : Vm) : Steady y s s := ⟨fun _ _ => rfl, fun _ _ => rfl⟩

theorem Steady.trans {u : Vm} (h : Steady x s t) (h' : Steady x t u) : Steady x s u :=
  ⟨fun v hv => (h'.pte v hv).trans (h.pte v hv), fun i hi => (h'.frame i hi).trans (h.frame i hi)⟩

theorem Steady.of_pgdir (h : t.pgdir x = s.pgdir x) : Steady x s t := by
  refine ⟨fun v _ => by rw [pte_of_pgdir h], fun i _ => ?_⟩
  rw [Vm.tabFrame, tab_of_pgdir h, Vm.tabFrame]

theorem Edits.trans {u : Vm} (h : Edits G x s t) (h' : Edits G x t u) : Edits G x s u := by
  refine ⟨h.toSteady.trans h'.toSteady, fun y hy => (h'.other y hy).trans (h.other y hy),
    fun i f hf => ?_, h.writes.trans h'.writes⟩
  rcases h'.tables i f hf with hf | hf
  · exact h.tables i f hf
  · exact .inr hf

theorem Edits.steady (h : Edits G x s t) (y : ℕ) : Steady y s t := by
  by_cases hy : y = x
  · subst hy
    exact h.toSteady
  · exact .of_pgdir (h.other y hy)

theorem Edits.of_pgdir (h : t.pgdir = s.pgdir) (hw : Writes G s t) : Edits G x s t := by
  refine ⟨.of_pgdir (congrFun h x), fun y _ => congrFun h y, fun i f hf => .inl ?_, hw⟩
  rwa [Vm.tabFrame, tab_of_pgdir (congrFun h x)] at hf

theorem Edits.refl (G : Set ℕ) (x : ℕ) (s : Vm) : Edits G x s s := .of_pgdir rfl (.refl G s)

theorem Confined.of_pte (h : Confined G X s) (hpte : ∀ x ∈ X, t.pte x = s.pte x)
    (hfree : ∀ f ∈ t.freelist, f ∈ G) : Confined G X t := by
  refine ⟨hfree, fun x hx v hv hp => ?_, fun x hx v hv => ?_⟩
  · rw [hpte x hx] at hp ⊢
    exact h.user x hx v hv hp
  · rw [hpte x hx]
    exact h.kern x hx v hv

theorem Confined.of_pgdir (h : Confined G X s) (hdir : t.pgdir = s.pgdir)
    (hfree : ∀ f ∈ t.freelist, f ∈ G) : Confined G X t :=
  h.of_pte (fun x _ => pte_of_pgdir (congrFun hdir x)) hfree

theorem Confined.mono {Y : Set ℕ} (h : Confined G X s) (hY : Y ⊆ X) : Confined G Y s :=
  ⟨h.free, fun x hx => h.user x (hY hx), fun x hx => h.kern x (hY hx)⟩

theorem pgdir_setPte_of_none (h : s.tab x (v / nptentries) = none) (e : Pte) : s.setPte x v e = s := by
  unfold Vm.setPte
  rw [h]

theorem Confined.setPte (h : Confined G X s) (hv : v < kernpage) {e : Pte}
    (he : e.p = true → e.frame ∈ G) :
    Confined G X (s.setPte x v e) ∧ Edits G x s (s.setPte x v e) := by
  by_cases htab : s.tab x (v / nptentries) = none
  · rw [pgdir_setPte_of_none htab]
    exact ⟨h, .refl G x s⟩
  have hpte := Vm.pte_setPte htab e
  have hkern : ∀ y v', kernpage ≤ v' → (s.setPte x v e).pte y v' = s.pte y v' := fun y v' hv' => by
    rw [hpte, if_neg]
    rintro ⟨-, rfl⟩
    exact absurd hv (not_lt.2 hv')
  refine ⟨⟨?_, fun y hy v' hv' hp => ?_, fun y hy v' hv' => ?_⟩,
    ⟨fun v' hv' => hkern x v' hv', fun i _ => ?_⟩,
    fun y hy => pgdir_setPte e hy, ?_, .of_mem (Vm.setPte_mem ..)⟩
  · rw [Vm.setPte_freelist]
    exact h.free
  · rw [hpte] at hp ⊢
    split_ifs at hp ⊢
    · exact he hp
    · exact h.user y hy v' hv' hp
  · rw [hkern y v' hv']
    exact h.kern y hy v' hv'
  · rw [Vm.tabFrame_setPte]
  · intro i f hf
    rw [Vm.tabFrame_setPte] at hf
    exact .inl hf

theorem kalloc_confined (h : Confined G X s) :
    wp kalloc (fun r t => Confined G X t ∧ t.pgdir = s.pgdir ∧ Writes G s t ∧ ∀ f, r = some f →
      f ∈ G) AnyPanic s := by
  refine wp_imp kalloc_takes ?_
  rintro (_ | f) t ⟨hdir, -, hmem, hfree⟩
  · refine ⟨h.of_pgdir hdir fun g hg => ?_, hdir, .of_mem hmem, nofun⟩
    rw [hfree] at hg
    exact h.free g hg
  refine ⟨h.of_pgdir hdir fun g hg => ?_, hdir, .of_mem hmem, ?_⟩
  · refine h.free g ?_
    rw [hfree]
    exact List.mem_cons_of_mem _ hg
  intro g hg
  refine h.free g ?_
  rw [hfree, Option.some.inj hg]
  exact List.mem_cons_self

theorem walkpgdir_confined (h : Confined G X s) (hv : v < kernpage) :
    wp (walkpgdir x v true) (fun _ t => Confined G X t ∧ Edits G x s t) AnyPanic s := by
  simp only [walkpgdir, wp_run]
  cases hs : s.tab x (v / nptentries) with
  | some tb => exact ⟨h, .refl G x s⟩
  | none =>
    simp only [wp_bind]
    refine wp_imp (kalloc_confined h) ?_
    rintro (_ | f) t ⟨hsp, hdir, hw, hf⟩
    · exact ⟨hsp, .of_pgdir hdir hw⟩
    have ht : t.tab x (v / nptentries) = none := by rw [tab_of_pgdir (congrFun hdir x), hs]
    have hpte : (t.setTab x (v / nptentries) (some ⟨f, fun _ => .zero⟩)).pte = s.pte := by
      funext y v'
      rw [Vm.pte_newTab ht, pte_of_pgdir (congrFun hdir y)]
    have htab := Vm.tab_setTab t x (v / nptentries) (some ⟨f, fun _ => .zero⟩)
    refine ⟨h.of_pte (fun y _ => by rw [hpte]) hsp.free, ⟨fun v' _ => by rw [hpte], fun i hi => ?_⟩,
      fun y hy => ?_, fun i g hg => ?_, hw⟩
    · have hne : i ≠ v / nptentries := by
        rintro rfl
        simp only [kernpage, nptentries] at hi hv
        omega
      rw [Vm.tabFrame, htab, if_neg (fun hc => hne hc.2.1), tab_of_pgdir (congrFun hdir x), Vm.tabFrame]
    · rw [pgdir_setTab _ hy, hdir]
    · simp only [Vm.tabFrame, htab] at hg
      split_ifs at hg with hc
      · exact .inr (Option.some.inj hg ▸ hf f rfl)
      · rw [tab_of_pgdir (congrFun hdir x)] at hg
        exact .inl hg

theorem mapOne_confined (w u : Bool) (h : Confined G X s) (hv : v < kernpage) (hf : f ∈ G) :
    wp (mappagesLoop x w u 0 v f) (fun _ t => Confined G X t ∧ Edits G x s t) AnyPanic s := by
  simp only [mappagesLoop, wp_bind]
  refine wp_imp (walkpgdir_confined h hv) ?_
  rintro (_ | _) t ⟨hsp, he⟩
  · exact ⟨hsp, he⟩
  simp only [wp_run]
  split_ifs with hp
  · trivial
  · obtain ⟨hsp', he'⟩ := hsp.setPte (x := x) hv (e := ⟨f, true, w, u⟩) fun _ => hf
    exact ⟨hsp', he.trans he'⟩

theorem mappages_confined (w u : Bool) (h : Confined G X s) (hv : v < kernpage) (hf : f ∈ G) :
    wp (mappages x (v * pgsize) pgsize (f * pgsize) w u)
      (fun _ t => Confined G X t ∧ Edits G x s t) AnyPanic s := by
  rw [mappages_page (by simp only [kernpage] at hv; omega)]
  exact mapOne_confined w u h hv hf

section Link

variable [Link]

theorem mem_frames (h : ¬ (kernbase + f * pgsize < Link.kend ∨ phystop ≤ f * pgsize)) : f ∈ frames := by
  simp only [frames, Set.mem_Ico, firstFrame, v2p, pgsize, phystop, kernbase] at *
  omega

theorem kfree_confined (h : Confined G X s) (hf : f ∈ frames → f ∈ G) :
    wp (kfree f) (fun _ t => Confined G X t ∧ t.pgdir = s.pgdir ∧ Writes G s t) AnyPanic s := by
  unfold kfree
  rw [wp_ite]
  split_ifs with hpanic
  · trivial
  have hfG := hf (mem_frames hpanic)
  refine ⟨h.of_pgdir rfl fun g hg => ?_, rfl, .setMem hfG _⟩
  rcases List.mem_cons.1 hg with rfl | hg
  · exact hfG
  · exact h.free g hg

theorem deallocuvmLoop_confined {sz : ℕ} (hsz : sz ≤ kernbase) {s : Vm} (h : Confined G X s)
    (hx : x ∈ X) (v : ℕ) :
    wp (deallocuvmLoop x sz v) (fun _ t => Confined G X t ∧ Edits G x s t) AnyPanic s := by
  rw [deallocuvmLoop]
  split_ifs with hlt
  · have hv : v < kernpage := by
      simp only [kernpage, kernbase, pgsize] at *
      omega
    simp only [wp_bind, wp_walkpgdir_false]
    split_ifs with htab
    · have hdrop : Edits G x s (s.addRef (s.pte x v).frame (-1)) := .of_pgdir rfl (.of_mem rfl)
      have hsp : Confined G X (s.addRef (s.pte x v).frame (-1)) := h.of_pgdir rfl h.free
      simp only [wp_run, wp_addRef]
      split_ifs with hp hzero href
      · trivial
      · -- the last mapping: the page is freed
        refine wp_imp (kfree_confined hsp fun _ => h.user x hx v hv hp) ?_
        rintro _ t ⟨ht, hdir, hw⟩
        obtain ⟨hsp', he⟩ := ht.setPte (x := x) hv (e := .zero) (by rintro ⟨⟩)
        refine wp_imp (deallocuvmLoop_confined hsz hsp' hx (v + 1)) ?_
        rintro _ t' ⟨ht', he'⟩
        exact ⟨ht', hdrop.trans ((Edits.of_pgdir hdir hw).trans (he.trans he'))⟩
      · obtain ⟨hsp', he⟩ := hsp.setPte (x := x) hv (e := .zero) (by rintro ⟨⟩)
        refine wp_imp (deallocuvmLoop_confined hsz hsp' hx (v + 1)) ?_
        rintro _ t' ⟨ht', he'⟩
        exact ⟨ht', hdrop.trans (he.trans he')⟩
      · exact deallocuvmLoop_confined hsz h hx (v + 1)
    · exact deallocuvmLoop_confined hsz h hx (v + (nptentries - 1) + 1)
  · exact ⟨h, .refl G x s⟩
termination_by sz - v * pgsize
decreasing_by all_goals
  simp only [pgsize, nptentries] at *
  omega

variable {oldsz newsz : ℕ}

theorem deallocuvm_confined (hsz : oldsz ≤ kernbase) (h : Confined G X s) (hx : x ∈ X) :
    wp (deallocuvm x oldsz newsz) (fun _ t => Confined G X t ∧ Edits G x s t) AnyPanic s := by
  unfold deallocuvm
  split_ifs
  · exact ⟨h, .refl G x s⟩
  · simp only [wp_run]
    exact deallocuvmLoop_confined hsz h hx _

theorem allocuvmLoop_confined (hsz : newsz < kernbase) {s : Vm} (h : Confined G X s) (hx : x ∈ X)
    (v : ℕ) : wp (allocuvmLoop x oldsz newsz v)
    (fun _ t => Confined G X t ∧ Edits G x s t) AnyPanic s := by
  rw [allocuvmLoop]
  split_ifs with hlt
  · have hv : v < kernpage := by
      simp only [kernpage, kernbase, pgsize] at *
      omega
    rw [wp_bind]
    refine wp_imp (kalloc_confined h) ?_
    rintro (_ | f) t ⟨ht, hdir, hw, hf⟩
    · simp only [wp_run]
      refine wp_imp (deallocuvm_confined hsz.le ht hx) ?_
      rintro _ t' ⟨ht', he⟩
      exact ⟨ht', (Edits.of_pgdir hdir hw).trans he⟩
    simp only [wp_run, wp_addRef]
    have ht' : Confined G X (t.setMem f fun _ => 0) := ht.of_pgdir rfl ht.free
    refine wp_imp (mappages_confined true true ht' hv (hf f rfl)) ?_
    rintro _ t2 ⟨ht2, he2⟩
    have ht3 : Confined G X (t2.addRef f 1) := ht2.of_pgdir rfl ht2.free
    refine wp_imp (allocuvmLoop_confined hsz ht3 hx (v + 1)) ?_
    rintro _ t4 ⟨ht4, he4⟩
    have he0 : Edits G x s (t.setMem f fun _ => 0) := .of_pgdir hdir (hw.trans (.setMem (hf f rfl) _))
    have he3 : Edits G x t2 (t2.addRef f 1) := .of_pgdir rfl (.of_mem rfl)
    exact ⟨ht4, he0.trans (he2.trans (he3.trans he4))⟩
  · exact ⟨h, .refl G x s⟩
termination_by newsz - v * pgsize
decreasing_by
  simp only [pgsize] at *
  omega

theorem allocuvm_confined (h : Confined G X s) (hx : x ∈ X) :
    wp (allocuvm x oldsz newsz) (fun _ t => Confined G X t ∧ Edits G x s t) AnyPanic s := by
  unfold allocuvm
  split_ifs with hbig
  · exact ⟨h, .refl G x s⟩
  · exact ⟨h, .refl G x s⟩
  · exact allocuvmLoop_confined (not_le.1 hbig) h hx _

omit [Link] in
theorem pagefault_confined {va : ℕ} (h : Confined G X s) (hx : x ∈ X) :
    wp (pagefault x va) (fun _ t => Confined G X t ∧ Edits G x s t) AnyPanic s := by
  have hsame : Confined G X s ∧ Edits G x s s := ⟨h, .refl G x s⟩
  unfold pagefault
  dsimp only
  split_ifs with hbig
  · exact hsame
  have hv : va / pgsize < kernpage := by
    simp only [kernpage, kernbase, pgsize] at *
    omega
  simp only [wp_bind, wp_walkpgdir_false]
  split_ifs with htab
  · simp only [wp_run]
    split_ifs with hu hp hw hone hmore
    · exact hsame
    · exact hsame
    · trivial
    · have hp' : (s.pte x (va / pgsize)).p = true := by simpa using hp
      exact h.setPte hv fun _ => h.user x hx _ hv hp'
    · refine wp_imp (kalloc_confined h) ?_
      rintro (_ | m) t ⟨ht, hdir, hw, hm⟩
      · exact ⟨ht, .of_pgdir hdir hw⟩
      simp only [wp_run, wp_addRef]
      generalize hu : ((t.setMem m (t.mem (s.pte x (va / pgsize)).frame)).addRef
        (s.pte x (va / pgsize)).frame (-1)).addRef m 1 = t'
      have hdir' : t'.pgdir = s.pgdir := by
        rw [← hu]
        exact hdir
      have ht' : Confined G X t' := by
        refine ht.of_pgdir (by rw [← hu]; rfl) ?_
        rw [← hu]
        exact ht.free
      have hw' : Writes G s t' := by
        refine hw.trans ?_
        rw [← hu]
        exact .setMem (hm m rfl) _
      obtain ⟨h2, he2⟩ := ht'.setPte (x := x) hv (e := ⟨m, true, true, true⟩) fun _ => hm m rfl
      exact ⟨h2, (Edits.of_pgdir hdir' hw').trans he2⟩
    · trivial
  · exact hsame

omit [Link] in
/-- `clearpteu`, also of an address in the kernel half, where no entry has `PTE_U`. -/
theorem clearpteu_confined {uva : ℕ} (h : Confined G X s) (hx : x ∈ X) :
    wp (clearpteu x uva) (fun _ t => Confined G X t ∧ Edits G x s t) AnyPanic s := by
  simp only [clearpteu, wp_bind, wp_walkpgdir_false]
  split_ifs with htab
  · have htab' : s.tab x (uva / pgsize / nptentries) ≠ none := Option.isSome_iff_ne_none.1 htab
    rw [wp_modify]
    by_cases hv : uva / pgsize < kernpage
    · exact h.setPte hv fun hp => h.user x hx _ hv hp
    have hsame : ({ s.pte x (uva / pgsize) with u := false } : Pte) = s.pte x (uva / pgsize) := by
      have hclear := h.kern x hx _ (not_lt.1 hv)
      cases hpte : s.pte x (uva / pgsize) with
      | mk f p w u =>
        rw [hpte] at hclear
        rw [Pte.mk.injEq]
        exact ⟨rfl, rfl, rfl, hclear.symm⟩
    rw [hsame]
    have hpte : (s.setPte x (uva / pgsize) (s.pte x (uva / pgsize))).pte = s.pte := by
      funext y v'
      rw [Vm.pte_setPte htab']
      split_ifs with hc
      · rw [hc.1, hc.2]
      · rfl
    refine ⟨h.of_pte (fun y _ => by rw [hpte]) ?_,
      ⟨fun v' _ => by rw [hpte], fun i _ => by rw [Vm.tabFrame_setPte]⟩,
      fun y hy => pgdir_setPte _ hy, fun i f hf => .inl ?_, .of_mem (Vm.setPte_mem ..)⟩
    · rw [Vm.setPte_freelist]
      exact h.free
    · rwa [Vm.tabFrame_setPte] at hf
  · trivial

/-! ## Copies -/

/-- Directory `c` is gone, and nothing else has changed but pages in `G`. -/
structure Gone (G : Set ℕ) (c : ℕ) (s t : Vm) : Prop where
  other : ∀ y, y ≠ c → t.pgdir y = s.pgdir y
  writes : Writes G s t

/-- A directory whose page and page tables are in `G`, as far as `kfree` accepts them. -/
structure Child (G : Set ℕ) (c : ℕ) (s : Vm) : Prop where
  mem : c ∈ frames → c ∈ G
  tables : ∀ i f, i < nptentries → s.tabFrame c i = some f → f ∈ frames → f ∈ G

theorem Child.edits (h : Child G c s) (he : Edits G c s t) : Child G c t := by
  refine ⟨h.mem, fun i f hi hf hframe => ?_⟩
  rcases he.tables i f hf with hf | hf
  · exact h.tables i f hi hf hframe
  · exact hf

theorem Child.other (h : Child G c s) (hdir : t.pgdir c = s.pgdir c) : Child G c t := by
  refine ⟨h.mem, fun i f hi hf => h.tables i f hi ?_⟩
  rwa [Vm.tabFrame, tab_of_pgdir hdir] at hf

omit [Link] in
theorem Confined.setTab_none (h : Confined G X s) : Confined G X (s.setTab c i none) := by
  refine ⟨h.free, fun y hy v hv hp => ?_, fun y hy v hv => ?_⟩
  · rw [Vm.pte_dropTab] at hp ⊢
    split_ifs at hp ⊢
    · cases hp
    · exact h.user y hy v hv hp
  · rw [Vm.pte_dropTab]
    split_ifs
    · rfl
    · exact h.kern y hy v hv

omit [Link] in
theorem Confined.setDir_none (h : Confined G X s) : Confined G X (s.setDir c none) := by
  have hpte : ∀ y v, (s.setDir c none).pte y v = if y = c then .zero else s.pte y v := fun y v => by
    by_cases hy : y = c
    · subst hy
      simp [Vm.pte, Vm.tab, Vm.setDir]
    · rw [if_neg hy, pte_of_pgdir (pgdir_setDir _ hy)]
  refine ⟨h.free, fun y hy v hv hp => ?_, fun y hy v hv => ?_⟩
  · rw [hpte] at hp ⊢
    split_ifs at hp ⊢
    · cases hp
    · exact h.user y hy v hv hp
  · rw [hpte]
    split_ifs
    · rfl
    · exact h.kern y hy v hv

theorem freeTables_confined (n : ℕ) : ∀ {s : Vm} {i : ℕ}, i + n ≤ nptentries → Confined G X s →
    Child G c s → wp (freeTables c n i) (fun _ t => Confined G X t ∧ Gone G c s t) AnyPanic s := by
  induction n with
  | zero =>
    intro s i _ h _
    exact ⟨h, fun _ _ => rfl, .refl G s⟩
  | succ n ih =>
    intro s i hi h hc
    simp only [freeTables, wp_run]
    rcases ht : s.tab c i with _ | tb
    · exact ih (by omega) h hc
    have hmem := hc.tables i tb.frame (by omega) (by rw [Vm.tabFrame, ht]; rfl)
    simp only [wp_run]
    refine wp_imp (kfree_confined h hmem) ?_
    rintro _ t ⟨hsp, hdir, hw⟩
    have hc' : Child G c (t.setTab c i none) := by
      refine ⟨hc.mem, fun j f hj hf => ?_⟩
      simp only [Vm.tabFrame, Vm.tab_setTab] at hf
      split_ifs at hf
      · cases hf
      · rw [tab_of_pgdir (congrFun hdir c)] at hf
        exact hc.tables j f hj hf
    refine wp_imp (ih (by omega) hsp.setTab_none hc') ?_
    rintro _ t' ⟨h', hg⟩
    refine ⟨h', fun y hy => ?_, hw.trans hg.writes⟩
    rw [hg.other y hy, pgdir_setTab _ hy, hdir]

theorem freevm_confined (h : Confined G X s) (hcX : c ∈ X) (hc : Child G c s) :
    wp (freevm c) (fun _ t => Confined G X t ∧ Gone G c s t) AnyPanic s := by
  simp only [freevm, wp_bind]
  refine wp_imp (deallocuvm_confined le_rfl h hcX) ?_
  rintro _ t ⟨ht, he⟩
  refine wp_imp (freeTables_confined nptentries (Nat.zero_add _).le ht (hc.edits he)) ?_
  rintro _ t' ⟨ht', hg⟩
  refine wp_imp (kfree_confined ht' hc.mem) ?_
  rintro _ t2 ⟨ht2, hdir2, hw2⟩
  rw [wp_modify]
  refine ⟨ht2.setDir_none, fun y hy => ?_, he.writes.trans (hg.writes.trans hw2)⟩
  rw [pgdir_setDir _ hy, hdir2, hg.other y hy, he.other y hy]

theorem copyuvmLoop_confined {sz : ℕ} {s : Vm} (h : Confined G X s) (hd : d ∈ X) (hcX : c ∈ X)
    (hdc : d ≠ c)
    (hc : Child G c s) (hk : (s.pte c kernpage).p = true) {v : ℕ} (hv : v ≤ kernpage) :
    wp (copyuvmLoop d c sz v) (fun _ t => Confined G X t ∧ Steady d s t ∧ Writes G s t) AnyPanic s := by
  rw [copyuvmLoop]
  split_ifs with hlt
  · simp only [wp_bind, wp_walkpgdir_false]
    split_ifs with htab
    · have htab' : s.tab d (v / nptentries) ≠ none := Option.isSome_iff_ne_none.1 htab
      simp only [wp_bind, wp_get, wp_ite, wp_throw, wp_modify]
      split_ifs with hp
      · have hpte : (s.setPte d v { s.pte d v with w := false }).pte d v =
          { s.pte d v with w := false } := by
          rw [Vm.pte_setPte htab', if_pos ⟨rfl, rfl⟩]
        rw [hpte]
        rcases hv.lt_or_eq with hv | rfl
        · obtain ⟨h1, he1⟩ := h.setPte (x := d) hv (e := { s.pte d v with w := false }) fun hp =>
            h.user d hd v hv hp
          have hc1 := hc.other (he1.other c hdc.symm)
          refine wp_imp (mappages_confined _ _ h1 hv (h.user d hd v hv hp)) ?_
          rintro r t2 ⟨h2, he2⟩
          have hc2 := hc1.edits he2
          have hst2 : Steady d s t2 := he1.toSteady.trans (he2.steady d)
          have hw2 : Writes G s t2 := he1.writes.trans he2.writes
          split_ifs
          · have h3 : Confined G X (t2.addRef (s.pte d v).frame 1) := h2.of_pgdir rfl h2.free
            have hc3 : Child G c (t2.addRef (s.pte d v).frame 1) := hc2.other rfl
            have hk3 : ((t2.addRef (s.pte d v).frame 1).pte c kernpage).p = true := by
              rw [Vm.pte_addRef, he2.pte kernpage le_rfl, pte_of_pgdir (he1.other c hdc.symm)]
              exact hk
            have hst3 : Steady d s (t2.addRef (s.pte d v).frame 1) := hst2.trans (.of_pgdir rfl)
            simp only [wp_addRef]
            refine wp_imp (copyuvmLoop_confined h3 hd hcX hdc hc3 hk3 hv) ?_
            rintro _ t4 ⟨h4, hst4, hw4⟩
            exact ⟨h4, hst3.trans hst4, hw2.trans hw4⟩
          · simp only [wp_pure]
            refine wp_imp (freevm_confined h2 hcX hc2) ?_
            rintro _ t4 ⟨h4, hg4⟩
            exact ⟨h4, hst2.trans (.of_pgdir (hg4.other d hdc)), hw2.trans hg4.writes⟩
        · -- the copy has its own mapping of the first page of the kernel half
          rw [mappages_page (by decide)]
          generalize hu : s.setPte d kernpage { s.pte d kernpage with w := false } = s1
          have hk1 : (s1.pte c kernpage).p = true := by
            rw [← hu, pte_of_pgdir (pgdir_setPte _ hdc.symm)]
            exact hk
          obtain ⟨tb, htb⟩ := Option.ne_none_iff_exists'.1 (Vm.tab_of_pte hk1)
          simp only [mappagesLoop, walkpgdir, wp_bind, wp_get, htb, wp_pure, if_true, hk1, wp_throw]
          trivial
      · trivial
    · trivial
  · exact ⟨h, .refl d s, .refl G s⟩
termination_by sz - v * pgsize
decreasing_by
  simp only [pgsize] at *
  omega

theorem setupkvm_confined (hG : G ⊆ frames) (h : Confined G X s) :
    wp setupkvm (fun r t => Writes G s t ∧
      match r with
      | none => Confined G X t ∧ ∀ y, y ∉ G → t.pgdir y = s.pgdir y
      | some c => c ∈ G ∧ Confined G (insert c X) t ∧ Child G c t ∧
          (∀ y, y ≠ c → t.pgdir y = s.pgdir y) ∧ ∀ v, t.pte c v = kernelPte v) AnyPanic s := by
  refine wp_lax (setupkvm_books fun f hf => hG (h.free f hf)) ?_
  rintro r t ⟨-, hmem, hres⟩
  have hw : Writes G s t := fun f hf => hmem f fun hfree => hf (h.free f hfree)
  refine ⟨hw, ?_⟩
  cases r with
  | none =>
    obtain ⟨hperm, hdir⟩ := hres
    refine ⟨⟨fun f hf => h.free f (hperm.mem_iff.1 hf), fun y hy v hv hp => ?_, fun y hy v hv =>
      ?_⟩, fun y hy => ?_⟩
    · rcases hdir y with hsame | ⟨-, hnone⟩
      · rw [pte_of_pgdir hsame] at hp ⊢
        exact h.user y hy v hv hp
      · simp [Vm.pte, Vm.tab, hnone, Pte.zero] at hp
    · rcases hdir y with hsame | ⟨-, hnone⟩
      · rw [pte_of_pgdir hsame]
        exact h.kern y hy v hv
      · simp [Vm.pte, Vm.tab, hnone, Pte.zero]
    · exact (hdir y).resolve_right fun hfree => hy (h.free y hfree.1)
  | some c =>
    obtain ⟨hperm, -, hother, hpte⟩ := hres
    have hall : ∀ f ∈ c :: (t.tables c ++ t.freelist), f ∈ G := fun f hf =>
      h.free f (hperm.mem_iff.1 hf)
    have hfree : ∀ f ∈ t.freelist, f ∈ G :=
      fun f hf => hall f (List.mem_cons_of_mem _ (List.mem_append_right _ hf))
    have hc : c ∈ G := hall c List.mem_cons_self
    refine ⟨hc, ⟨hfree, fun y hy v hv hp => ?_, fun y hy v hv => ?_⟩,
      ⟨fun _ => hc, fun i f hi hf _ => ?_⟩, hother, hpte⟩
    · by_cases hyc : y = c
      · subst hyc
        rw [hpte, kernelPte_user hv] at hp
        cases hp
      · rw [pte_of_pgdir (hother y hyc)] at hp ⊢
        exact h.user y ((Set.mem_insert_iff.1 hy).resolve_left hyc) v hv hp
    · by_cases hyc : y = c
      · subst hyc
        rw [hpte]
        exact kernelPte_u v
      · rw [pte_of_pgdir (hother y hyc)]
        exact h.kern y ((Set.mem_insert_iff.1 hy).resolve_left hyc) v hv
    · exact hall f (List.mem_cons_of_mem _ (List.mem_append_left _ (mem_tables hi hf)))

theorem copyuvm_confined {sz : ℕ} (hG : G ⊆ frames) (hdX : d ∈ X) (h : Confined G X s) :
    wp (copyuvm d sz) (fun _ t => Confined G X t ∧ Writes G s t ∧
      (d ∉ G → Steady d s t)) AnyPanic s := by
  simp only [copyuvm, wp_bind]
  refine wp_imp (setupkvm_confined hG h) ?_
  rintro (_ | c) t ⟨hw, hres⟩
  · exact ⟨hres.1, hw, fun hd => .of_pgdir (hres.2 d hd)⟩
  obtain ⟨hc, ht, hchild, hother, hpte⟩ := hres
  by_cases hdc : d = c
  · -- a directory that is on the free list itself has no page to copy
    subst hdc
    have hp : ¬ (t.pte d 0).p = true := by
      rw [hpte, kernelPte_user (by decide)]
      exact Bool.false_ne_true
    show wp (copyuvmLoop d d sz 0) _ _ _
    rw [copyuvmLoop]
    simp only [wp_run, wp_walkpgdir_false, if_neg hp]
    split_ifs
    · trivial
    · trivial
    · exact ⟨ht.mono (Set.subset_insert d X), hw, fun hd => absurd hc hd⟩
  · have hk : (t.pte c kernpage).p = true := by
      rw [hpte]
      exact kernelPte_kernpage
    refine wp_imp (copyuvmLoop_confined ht (Set.mem_insert_of_mem c hdX)
      (Set.mem_insert c X) hdc hchild hk (Nat.zero_le _)) ?_
    rintro _ t' ⟨h', hst', hw'⟩
    exact ⟨h'.mono (Set.subset_insert c X), hw.trans hw',
      fun _ => (Steady.of_pgdir (hother d hdc)).trans hst'⟩

/-! ## Runs -/

/-- The calls that work on the user half of directory `d`.  The old size that `deallocuvm` is given is at
most `KERNBASE`. -/
def VmOp.On (d : ℕ) : VmOp → Prop
  | .allocuvm d' _ _ | .clearpteu d' _ | .copyuvm d' _ | .pagefault d' _ => d' = d
  | .deallocuvm d' oldsz _ => d' = d ∧ oldsz ≤ kernbase
  | .setupkvm | .inituvm _ _ _ | .freevm _ => False

/-- A call on `d` that returns, with any of its allocations failing. -/
def callOn (d : ℕ) (s : Vm) (l : VmCall) (t : Vm) : Prop := l.op.On d ∧ l.exec s = .ok () t

theorem callOn_confined {l : VmCall} (hG : G ⊆ frames) (hd : d ∉ G) (h : Confined G {d} s)
    (hcall : callOn d s l t) : Confined G {d} t ∧ Steady d s t := by
  obtain ⟨hon, hret⟩ := hcall
  obtain ⟨op, fails⟩ := l
  have hdd : d ∈ ({d} : Set ℕ) := rfl
  have h' : Confined G {d} { s with oom := fails } := h.of_pgdir rfl h.free
  have hedits : ∀ u, Confined G {d} u ∧ Edits G d { s with oom := fails } u → Confined G {d} u ∧
    Steady d s u := fun u hu => ⟨hu.1, hu.2.pte, hu.2.frame⟩
  suffices hwp : wp op.run (fun _ u => Confined G {d} u ∧ Steady d s u) AnyPanic
    { s with oom := fails } from wp_ok hwp hret
  cases op with
  | allocuvm d' oldsz newsz =>
    obtain rfl : d' = d := hon
    simp only [VmOp.run, wp_run]
    exact wp_imp (allocuvm_confined h' hdd) fun _ u hu => hedits u hu
  | deallocuvm d' oldsz newsz =>
    obtain ⟨rfl, hsz⟩ : d' = d ∧ oldsz ≤ kernbase := hon
    simp only [VmOp.run, wp_run]
    exact wp_imp (deallocuvm_confined hsz h' hdd) fun _ u hu => hedits u hu
  | clearpteu d' uva =>
    obtain rfl : d' = d := hon
    exact wp_imp (clearpteu_confined h' hdd) fun _ u hu => hedits u hu
  | copyuvm d' sz =>
    obtain rfl : d' = d := hon
    simp only [VmOp.run, wp_run]
    exact wp_imp (copyuvm_confined hG hdd h') fun _ _ hu => ⟨hu.1, (hu.2.2 hd).pte, (hu.2.2 hd).frame⟩
  | pagefault d' va =>
    obtain rfl : d' = d := hon
    simp only [VmOp.run, wp_run]
    exact wp_imp (pagefault_confined h' hdd) fun _ u hu => hedits u hu
  | setupkvm => exact hon.elim
  | inituvm _ _ _ => exact hon.elim
  | freevm _ => exact hon.elim

theorem run_confined {calls : List VmCall} (hG : G ⊆ frames) (hd : d ∉ G) (h : Confined G {d} s)
    (hrun : Run (callOn d) s calls t) : Confined G {d} t ∧ Steady d s t := by
  refine hrun.invariant (I := fun t => Confined G {d} t ∧ Steady d s t) ⟨h, .refl d s⟩ ?_
  rintro t l u ⟨ht, hst⟩ hcall
  obtain ⟨ht', hst'⟩ := callOn_confined hG hd ht hcall
  exact ⟨ht', hst.trans hst'⟩

/-- A free list without duplicates, of frames that `kfree` accepts. -/
structure FreeList (s : Vm) : Prop where
  nodup : s.freelist.Nodup
  mem : ∀ f ∈ s.freelist, f ∈ frames

/-- The pages that the translation of the kernel half goes through. -/
def Vm.kernelFrames (s : Vm) (d : ℕ) : Set ℕ :=
  {f | f = d ∨ ∃ i, kernpage / nptentries ≤ i ∧ i < nptentries ∧ s.tabFrame d i = some f}

theorem made_confined (hs : FreeList s) (hperm : (d :: (t.tables d ++ t.freelist)).Perm s.freelist)
    (hpte : ∀ v, t.pte d v = kernelPte v) : Confined (frames \ t.kernelFrames d) {d} t := by
  have hnd := hperm.nodup_iff.2 hs.nodup
  obtain ⟨hd, hnd⟩ := List.nodup_cons.1 hnd
  have hdis := (List.nodup_append'.1 hnd).2.2
  refine ⟨fun f hf => ⟨hs.mem f
    (hperm.mem_iff.1 (List.mem_cons_of_mem _ (List.mem_append_right _ hf))), ?_⟩, ?_, ?_⟩
  · rintro (rfl | ⟨i, -, hi, hfi⟩)
    · exact hd (List.mem_append_right _ hf)
    · exact hdis (mem_tables hi hfi) hf
  · rintro _ rfl v hv hp
    rw [hpte, kernelPte_user hv] at hp
    cases hp
  · rintro _ rfl v _
    rw [hpte]
    exact kernelPte_u v

/-- `setupkvm` gives all pages back or maps the kernel half, which no later call changes. -/
theorem kernel_half {steps : ℕ} (hsteps : 2 ^ 20 ≤ steps) (hs : FreeList s) :
    wp (setupkvmIn steps) (fun r t =>
      match r with
      | none => t.freelist.Perm s.freelist
      | some d => (∀ v, v < kernpage → (t.pte d v).p = false) ∧ t.KernelHalf d ∧
          ∀ calls u, Run (callOn d) t calls u →
            u.KernelHalf d ∧ ∀ f ∈ u.kernelFrames d, f ∉ u.freelist) NoPanic s := by
  rw [setupkvmIn_eq hsteps]
  refine wp_imp (setupkvm_books hs.mem) ?_
  rintro (_ | d) t ⟨-, -, hres⟩
  · exact hres.1
  obtain ⟨hperm, -, -, hpte⟩ := hres
  have hd : d ∉ frames \ t.kernelFrames d := fun hmem => hmem.2 (.inl rfl)
  refine ⟨fun v hv => ?_, kernelHalf_of_pte fun v _ => hpte v, fun calls u hrun => ?_⟩
  · rw [hpte]
    exact kernelPte_user hv
  obtain ⟨hsp, hst⟩ := run_confined Set.sdiff_subset hd (made_confined hs hperm hpte) hrun
  refine ⟨kernelHalf_of_pte fun v hv => (hst.pte v hv).trans (hpte v), fun f hf hfree => ?_⟩
  refine (hsp.free f hfree).2 ?_
  rcases hf with rfl | ⟨i, hlo, hi, hfi⟩
  · exact .inl rfl
  · exact .inr ⟨i, hlo, hi, (hst.frame i hlo).symm.trans hfi⟩

theorem setupkvm_room (hs : FreeList s) (hroom : Roomy (0 + 69) s) : ∃ d t,
    setupkvmIn (2 ^ 20) s = .ok (some d) t ∧ t.refcount = s.refcount ∧ ∀ v,
      t.pte d v = kernelPte v := by
  obtain ⟨r, t, hret, ⟨href, -, hres⟩, ⟨d, rfl⟩, -⟩ :=
    wp_returns (wp_mono (wp_and (setupkvm_books hs.mem) (setupkvm_total hroom)) (fun _ _ => id)
      (fun _ _ he => he.2))
  rw [setupkvmIn_eq le_rfl]
  exact ⟨d, t, hret, href, hres.2.2.2⟩

end Link

/-! ## A machine with a hundred free pages -/

def roomyVm : Vm := { Vm.start with freelist := List.range' 1024 100 }

theorem roomyVm_freeList : FreeList roomyVm := by
  refine ⟨List.nodup_range', fun f hf => ?_⟩
  have hlow : firstFrame ≤ 1024 := by decide
  have hhigh : 1124 ≤ phystop / pgsize := by decide
  obtain ⟨i, hi, rfl⟩ := List.mem_range'.1 hf
  exact ⟨by omega, by omega⟩

theorem roomyVm_roomy : Roomy (0 + 69) roomyVm := ⟨rfl, by decide⟩

theorem kernel_half_roomyVm : ∃ d t, setupkvmIn (2 ^ 20) roomyVm = .ok (some d) t ∧ FreeList roomyVm ∧
    (∀ v, v < kernpage → (t.pte d v).p = false) ∧ t.KernelHalf d ∧
    ∀ calls u, Run (callOn d) t calls u → u.KernelHalf d ∧ ∀ f ∈ u.kernelFrames d, f ∉ u.freelist := by
  have hhalf : ∀ s, FreeList s → ∀ d t, setupkvmIn (2 ^ 20) s = .ok (some d) t → _ :=
    fun s hs d t hret => wp_ok (kernel_half le_rfl hs) hret
  obtain ⟨d, t, hret, -⟩ := setupkvm_room roomyVm_freeList roomyVm_roomy
  exact ⟨d, t, hret, roomyVm_freeList, hhalf _ roomyVm_freeList d t hret⟩

/-- Given an old size above `KERNBASE`, `deallocuvm` unmaps a page of the kernel half. -/
theorem deallocuvm_unmaps_kernel : ∃ d t u, setupkvmIn (2 ^ 20) roomyVm = .ok (some d) t ∧
    deallocuvm d (kernbase + 2 * pgsize) (kernbase + pgsize) t = .ok (kernbase + pgsize) u ∧
    t.translate d (kernbase + pgsize) = some (pgsize, true, false) ∧
      u.translate d (kernbase + pgsize) = none := by
  obtain ⟨d, t, hret, href, hpte⟩ := setupkvm_room roomyVm_freeList roomyVm_roomy
  have hpage : (kernbase + pgsize) / pgsize = 0x80001 := by decide
  have hentry : t.pte d 0x80001 = ⟨1, true, true, false⟩ := by
    rw [hpte]
    decide
  have htab : t.tab d (0x80001 / nptentries) ≠ none := Vm.tab_of_pte (by rw [hentry])
  have hcount : (t.addRef 1 (-1)).refcount 1 ≠ 0 := by
    simp [Vm.addRef, href, roomyVm, Vm.start, toChar]
  have hloop : wp (deallocuvm d (kernbase + 2 * pgsize) (kernbase + pgsize))
    (fun r u => r = kernbase + pgsize ∧
      u = (t.addRef 1 (-1)).setPte d 0x80001 .zero) NoPanic t := by
    have hlt : ¬ kernbase + 2 * pgsize ≤ kernbase + pgsize := by decide
    have hfirst : pgroundup (kernbase + pgsize) = 0x80001 := by decide
    have hin : 0x80001 * pgsize < kernbase + 2 * pgsize := by decide
    have hend : ¬ (0x80001 + 1) * pgsize < kernbase + 2 * pgsize := by decide
    rw [deallocuvm, if_neg hlt, hfirst, deallocuvmLoop, if_pos hin]
    simp only [wp_run, wp_walkpgdir_false, Option.isSome_iff_ne_none.2 htab, hentry,
      Nat.one_ne_zero, wp_addRef, hcount]
    rw [deallocuvmLoop, if_neg hend]
    exact ⟨trivial, rfl⟩
  obtain ⟨_, u, hdealloc, rfl, rfl⟩ := wp_returns hloop
  refine ⟨d, t, _, hret, hdealloc, ?_, ?_⟩
  · simp only [Vm.translate, hpage, hentry, if_true]
    rfl
  · simp only [Vm.translate, hpage, Vm.pte_setPte (s := t.addRef 1 (-1)) htab]
    rfl

end Xv6

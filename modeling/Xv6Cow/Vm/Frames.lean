import Xv6Cow.Lib.Pool
import Xv6Cow.Vm.Uvm

/-!
# Who uses which frame

Every frame taken from the allocator has a use: it is a page directory, a page table, a user page
mapped by some entry, a page some caller holds (a kernel stack, or a page between `kalloc` and its
first use), or a page that `allocuvm` or `inituvm` counted and could not map.  The uses, the free
list and `pg_refcount` form a reference-counted pool (`Lts.Pool`).
-/

namespace Xv6

open Function Lts Prog

namespace Vm

/-- A directory is live. -/
def live (s : Vm) (d : ℕ) : Bool := (s.pgdir d).isSome

/-- The frame of a page table. -/
def tabFrame (s : Vm) (d i : ℕ) : Option ℕ := (s.tab d i).map PgTab.frame

/-- The user mapping of page `v` in directory `d`: its frame and its `PTE_W`. -/
def upage (s : Vm) (d v : ℕ) : Option (ℕ × Bool) :=
  if v < kernpage ∧ (s.pte d v).p = true then some ((s.pte d v).frame, (s.pte d v).w) else none

/-- What user code can read of page `v` under directory `d`. -/
def view (s : Vm) (d v : ℕ) : Option Page :=
  if v < kernpage ∧ (s.pte d v).p = true ∧ (s.pte d v).u = true
  then some (s.mem (s.pte d v).frame) else none

/-! ### What the updates do to these observations -/

section Updates

variable (s : Vm) (d i v f : ℕ)

section

variable (t : Option PgTab)

theorem tab_setTab (d' j : ℕ) :
    (s.setTab d i t).tab d' j = if d' = d ∧ j = i ∧ s.live d = true then t else s.tab d' j := by
  by_cases hd : d' = d
  · subst hd
    rcases h : s.pgdir d' with _ | D
    · simp [tab, setTab, live, h]
    by_cases hj : j = i
    · subst hj
      simp [tab, setTab, live, h]
    · simp [tab, setTab, live, h, hj]
  · simp [tab, setTab, hd]

@[simp] theorem live_setTab : (s.setTab d i t).live = s.live := by
  funext d'
  by_cases hd : d' = d
  · subst hd
    cases h : s.pgdir d' <;> simp [live, setTab, h]
  · simp [live, setTab, hd]

@[simp] theorem setTab_mem : (s.setTab d i t).mem = s.mem := rfl
@[simp] theorem setTab_freelist : (s.setTab d i t).freelist = s.freelist := rfl

end

theorem live_of_tab {s : Vm} {d i : ℕ} (h : s.tab d i ≠ none) : s.live d = true := by
  cases hd : s.pgdir d with
  | none => simp [tab, hd] at h
  | some D => simp [live, hd]

theorem tab_of_pte {s : Vm} {d v : ℕ} (h : (s.pte d v).p = true) :
    s.tab d (v / nptentries) ≠ none := by
  intro hn
  simp [pte, hn, Pte.zero] at h

@[simp] theorem setPte_mem (e : Pte) : (s.setPte d v e).mem = s.mem := by
  unfold setPte
  split <;> rfl

@[simp] theorem setPte_refcount (e : Pte) : (s.setPte d v e).refcount = s.refcount := by
  unfold setPte
  split <;> rfl

@[simp] theorem setPte_freelist (e : Pte) : (s.setPte d v e).freelist = s.freelist := by
  unfold setPte
  split <;> rfl

@[simp] theorem setPte_oom (e : Pte) : (s.setPte d v e).oom = s.oom := by
  unfold setPte
  split <;> rfl

@[simp] theorem setPte_wrapped (e : Pte) : (s.setPte d v e).wrapped = s.wrapped := by
  unfold setPte
  split <;> rfl

@[simp] theorem live_setPte (e : Pte) : (s.setPte d v e).live = s.live := by
  unfold setPte
  split
  · rfl
  · exact live_setTab ..

@[simp] theorem tabFrame_setPte (e : Pte) : (s.setPte d v e).tabFrame = s.tabFrame := by
  unfold setPte
  split
  · rfl
  next t h =>
    funext d' j
    simp only [tabFrame, tab_setTab]
    split_ifs with hc
    · obtain ⟨rfl, rfl, -⟩ := hc
      simp [h]
    · rfl

theorem pte_setPte {s : Vm} {d v : ℕ} (h : s.tab d (v / nptentries) ≠ none) (e : Pte) (d' v' : ℕ) :
    (s.setPte d v e).pte d' v' = if d' = d ∧ v' = v then e else s.pte d' v' := by
  have hl := live_of_tab h
  obtain ⟨t, ht⟩ := Option.ne_none_iff_exists'.1 h
  simp only [setPte, ht, pte, tab_setTab, hl, and_true]
  by_cases hd : d' = d
  · subst hd
    by_cases hi : v' / nptentries = v / nptentries
    · simp only [hi, and_self, if_true, ht]
      by_cases hv : v' = v
      · simp [hv]
      have : v' % nptentries ≠ v % nptentries := by
        simp only [nptentries] at *
        omega
      simp [hv, this]
    · have hv : v' ≠ v := fun hv => hi (by rw [hv])
      simp [hi, hv]
  · simp [hd]

theorem pte_dropTab (d' v : ℕ) : (s.setTab d i none).pte d' v =
    if d' = d ∧ v / nptentries = i then .zero else s.pte d' v := by
  simp only [pte, tab_setTab]
  by_cases hc : d' = d ∧ v / nptentries = i
  · obtain ⟨rfl, rfl⟩ := hc
    by_cases hl : s.live d' = true
    · simp [hl]
    · have : s.pgdir d' = none := by simpa [live] using hl
      simp [hl, tab, this]
  · rw [if_neg hc, if_neg (fun h => hc ⟨h.1, h.2.1⟩)]

theorem pte_newTab {s : Vm} {d i : ℕ} (h : s.tab d i = none) (f d' v : ℕ) :
    (s.setTab d i (some ⟨f, fun _ => .zero⟩)).pte d' v = s.pte d' v := by
  simp only [pte, tab_setTab]
  split_ifs with hc
  · obtain ⟨rfl, rfl, -⟩ := hc
    simp [h]
  · rfl

@[simp] theorem pte_addRef (k : ℤ) : (s.addRef f k).pte = s.pte := rfl
@[simp] theorem live_addRef (k : ℤ) : (s.addRef f k).live = s.live := rfl
@[simp] theorem tab_addRef (k : ℤ) : (s.addRef f k).tab = s.tab := rfl
@[simp] theorem tabFrame_addRef (k : ℤ) : (s.addRef f k).tabFrame = s.tabFrame := rfl
@[simp] theorem addRef_mem (k : ℤ) : (s.addRef f k).mem = s.mem := rfl
@[simp] theorem addRef_freelist (k : ℤ) : (s.addRef f k).freelist = s.freelist := rfl

@[simp] theorem pte_freed : (s.freed f).pte = s.pte := rfl
@[simp] theorem tab_freed : (s.freed f).tab = s.tab := rfl
@[simp] theorem live_freed : (s.freed f).live = s.live := rfl
@[simp] theorem tabFrame_freed : (s.freed f).tabFrame = s.tabFrame := rfl
@[simp] theorem freed_refcount : (s.freed f).refcount = s.refcount := rfl
@[simp] theorem freed_freelist : (s.freed f).freelist = f :: s.freelist := rfl

@[simp] theorem pte_setMem (pg : Page) : (s.setMem f pg).pte = s.pte := rfl
@[simp] theorem live_setMem (pg : Page) : (s.setMem f pg).live = s.live := rfl
@[simp] theorem tab_setMem (pg : Page) : (s.setMem f pg).tab = s.tab := rfl
@[simp] theorem setMem_refcount (pg : Page) : (s.setMem f pg).refcount = s.refcount := rfl
@[simp] theorem setMem_freelist (pg : Page) : (s.setMem f pg).freelist = s.freelist := rfl

theorem live_setDir (D : Option PgDir) (d' : ℕ) :
    (s.setDir d D).live d' = if d' = d then D.isSome else s.live d' := by
  by_cases hd : d' = d
  · subst hd
    simp [live, setDir]
  · simp [live, setDir, hd]

theorem tab_setDir {s : Vm} {d : ℕ} (h : ∀ i, s.tab d i = none) {D : Option PgDir}
    (hD : ∀ E, D = some E → ∀ i, E i = none) : (s.setDir d D).tab = s.tab := by
  funext d' i
  by_cases hd : d' = d
  · subst hd
    rw [h]
    cases D with
    | none => simp [tab, setDir]
    | some E => simp [tab, setDir, hD E rfl i]
  · simp [tab, setDir, hd]

end Updates

theorem pte_congr {s t : Vm} (h : t.tab = s.tab) : t.pte = s.pte := by
  funext d v
  simp only [pte, h]

theorem tabFrame_congr {s t : Vm} (h : t.tab = s.tab) : t.tabFrame = s.tabFrame := by
  funext d i
  simp only [tabFrame, h]

end Vm

/-! ## Uses -/

/-- The uses of a frame. -/
inductive Use
  | dir (d : ℕ)
  | table (d i : ℕ)
  | page (d v : ℕ)
  | held (f : ℕ)
  | leaked (f : ℕ)
deriving DecidableEq

/-- `pg_refcount` counts user mappings. -/
def Use.counted : Use → Prop
  | page _ _ | leaked _ => True
  | _ => False

open scoped Classical in
/-- The frame of each use, given the pages that are held and those that leaked. -/
noncomputable def Vm.owner (H L : Set ℕ) (s : Vm) : Use → Option (ℕ × Bool)
  | .dir d => if s.live d = true then some (d, true) else none
  | .table d i => (s.tabFrame d i).map (·, true)
  | .page d v => s.upage d v
  | .held f => if f ∈ H then some (f, true) else none
  | .leaked f => if f ∈ L then some (f, true) else none

noncomputable def Vm.pool (H L : Set ℕ) (s : Vm) : Pool Use ℕ where
  own := s.owner H L
  free := s.freelist
  cnt := s.refcount

/-- The frame invariant. -/
structure Inv (A H L : Set ℕ) (s : Vm) : Prop where
  wf : (s.pool H L).Wf Use.counted A
  inj : ∀ {d v v' f b b'}, s.upage d v = some (f, b) → s.upage d v' = some (f, b') → v = v'
  small : ∀ f, s.refcount f ≤ 127
  bound : ∀ d i, nptentries ≤ i → s.tabFrame d i = none
  exact : s.wrapped = false

variable {A H L : Set ℕ} {s t : Vm} {d c i v f : ℕ} {b : Bool}

section Owner

open scoped Classical

theorem owner_hold : s.owner (insert f H) L = update (s.owner H L) (.held f) (some (f, true)) := by
  funext u
  cases u with
  | held g =>
    by_cases e : g = f
    · simp [Vm.owner, e]
    · simp [Vm.owner, e, update]
  | _ => simp [Vm.owner, update]

theorem owner_release (hf : f ∉ H) :
    s.owner H L = update (s.owner (insert f H) L) (.held f) none := by
  funext u
  cases u with
  | held g =>
    by_cases e : g = f
    · simp [Vm.owner, e, hf]
    · simp [Vm.owner, e, update]
  | _ => simp [Vm.owner, update]

theorem owner_leak : s.owner H (insert f L) =
    update (s.owner H L) (.leaked f) (some (f, true)) := by
  funext u
  cases u with
  | leaked g =>
    by_cases e : g = f
    · simp [Vm.owner, e]
    · simp [Vm.owner, e, update]
  | _ => simp [Vm.owner, update]

theorem owner_unleak (hf : f ∉ L) :
    s.owner H L = update (s.owner H (insert f L)) (.leaked f) none := by
  funext u
  cases u with
  | leaked g =>
    by_cases e : g = f
    · simp [Vm.owner, e, hf]
    · simp [Vm.owner, e, update]
  | _ => simp [Vm.owner, update]

theorem owner_leaked (h : s.owner H L (.leaked i) = some (f, b)) : i = f ∧ b = true := by
  by_cases hi : i ∈ L
  · simp only [Vm.owner, hi, if_true, Option.some.injEq, Prod.mk.injEq] at h
    exact ⟨h.1, h.2.symm⟩
  · simp [Vm.owner, hi] at h

/-- Two states with the same directories, page tables and user mappings use the same frames. -/
theorem owner_congr (hl : t.live = s.live) (ht : t.tabFrame = s.tabFrame)
    (hu : t.upage = s.upage) : t.owner H L = s.owner H L := by
  funext u
  cases u <;> simp [Vm.owner, hl, ht, hu]

theorem owner_page (hl : t.live = s.live) (ht : t.tabFrame = s.tabFrame) {x : Option (ℕ × Bool)}
    (hu : ∀ d' v', t.upage d' v' = if d' = d ∧ v' = v then x else s.upage d' v') :
    t.owner H L = update (s.owner H L) (.page d v) x := by
  funext u
  cases u with
  | page d' v' =>
    simp only [Vm.owner, hu, update_apply, Use.page.injEq]
  | _ => simp [Vm.owner, hl, ht, update]

theorem owner_table (hl : t.live = s.live) (hu : t.upage = s.upage) {x : Option ℕ}
    (ht : ∀ d' j, t.tabFrame d' j = if d' = d ∧ j = i then x else s.tabFrame d' j) :
    t.owner H L = update (s.owner H L) (.table d i) (x.map (·, true)) := by
  funext u
  cases u with
  | table d' j =>
    simp only [Vm.owner, ht, update_apply, Use.table.injEq]
    split_ifs <;> rfl
  | _ => simp [Vm.owner, hl, hu, update]

theorem owner_dir (ht : t.tabFrame = s.tabFrame) (hu : t.upage = s.upage) {x : Bool}
    (hl : ∀ d', t.live d' = if d' = d then x else s.live d') :
    t.owner H L = update (s.owner H L) (.dir d) (if x then some (d, true) else none) := by
  funext u
  cases u with
  | dir d' =>
    by_cases e : d' = d
    · simp [Vm.owner, hl, e]
    · simp [Vm.owner, hl, e]
  | _ => simp [Vm.owner, ht, hu, update]

end Owner

/-! ## Moves that keep the invariant -/

@[simp] theorem counted_page : Use.counted (.page d v) := trivial
@[simp] theorem not_counted_held : ¬ Use.counted (.held f) := id
@[simp] theorem not_counted_dir : ¬ Use.counted (.dir d) := id
@[simp] theorem not_counted_table : ¬ Use.counted (.table d i) := id

section

variable (h : s.tab d (v / nptentries) ≠ none)

include h

theorem upage_setPte (e : Pte) (d' v' : ℕ) : (s.setPte d v e).upage d' v' =
      if d' = d ∧ v' = v then
        if v < kernpage ∧ e.p = true then some (e.frame, e.w) else none
      else s.upage d' v' := by
  simp only [Vm.upage, Vm.pte_setPte h]
  split_ifs <;> simp_all

theorem owner_setPte (e : Pte) : (s.setPte d v e).owner H L = update (s.owner H L) (.page d v)
      (if v < kernpage ∧ e.p = true then some (e.frame, e.w) else none) :=
  owner_page (Vm.live_setPte ..) (Vm.tabFrame_setPte ..) (upage_setPte h e)

theorem upage_clear (d' v' : ℕ) :
    (s.setPte d v .zero).upage d' v' = if d' = d ∧ v' = v then none else s.upage d' v' := by
  rw [upage_setPte h]
  simp [Pte.zero]

theorem owner_clear : (s.setPte d v .zero).owner H L = update (s.owner H L) (.page d v) none :=
  owner_page (Vm.live_setPte ..) (Vm.tabFrame_setPte ..) (upage_clear h)

end

@[simp] theorem upage_addRef (k : ℤ) : (s.addRef f k).upage = s.upage := rfl
@[simp] theorem owner_addRef (k : ℤ) : (s.addRef f k).owner H L = s.owner H L :=
  owner_congr rfl rfl rfl

theorem upage_congr (h : t.pte = s.pte) : t.upage = s.upage := by
  funext d v
  simp only [Vm.upage, h]

theorem upage_eq_some {s : Vm} {d v f : ℕ} {b : Bool} (h : s.upage d v = some (f, b)) :
    v < kernpage ∧ (s.pte d v).p = true ∧ (s.pte d v).frame = f ∧ (s.pte d v).w = b := by
  unfold Vm.upage at h
  split_ifs at h with hc
  simp only [Option.some.injEq, Prod.mk.injEq] at h
  exact ⟨hc.1, hc.2, h.1, h.2⟩

theorem tab_of_upage (h : s.upage d v = some (f, b)) : s.tab d (v / nptentries) ≠ none :=
  Vm.tab_of_pte (upage_eq_some h).2.1

theorem upage_dropTab (f : ℕ) (hu : ∀ v, v / nptentries = i → s.upage d v = none) :
    ((s.freed f).setTab d i none).upage = s.upage := by
  funext d' v'
  simp only [Vm.upage, Vm.pte_dropTab]
  by_cases hc : d' = d ∧ v' / nptentries = i
  · obtain ⟨rfl, hi⟩ := hc
    have := hu v' hi
    unfold Vm.upage at this
    rw [this]
    simp [hi, Pte.zero]
  · rw [if_neg hc]
    rfl

namespace Inv

section

variable (h : Inv A H L s)

include h

theorem congr (hl : t.live = s.live) (ht : t.tabFrame = s.tabFrame)
    (hu : t.upage = s.upage) (hf : t.freelist = s.freelist) (hc : t.refcount = s.refcount)
    (hw : t.wrapped = s.wrapped) : Inv A H L t where
  wf := by
    have := h.wf
    simpa only [Vm.pool, owner_congr hl ht hu, hf, hc] using this
  inj := by
    rw [hu]
    exact h.inj
  small := by
    rw [hc]
    exact h.small
  bound := by
    rw [ht]
    exact h.bound
  exact := by rw [hw, h.exact]

theorem setMem (f : ℕ) (pg : Page) : Inv A H L (s.setMem f pg) := h.congr rfl rfl rfl rfl rfl rfl

theorem nonneg (f : ℕ) : 0 ≤ s.refcount f := by
  have : s.refcount f = _ := h.wf.cnt_eq f
  omega

theorem held_ne (hf : f ∈ H) {u : Use} {b : Bool}
    (hu : s.owner H L u = some (f, b)) : u = .held f :=
  h.wf.alone (u := Use.held f) (by simp [Vm.pool, Vm.owner, hf]) hu

theorem not_leaked_of_held (hf : f ∈ H) : f ∉ L := fun hL => by
  have := h.held_ne (u := Use.leaked f) (b := true) hf (by simp [Vm.owner, hL])
  cases this

theorem refcount_held (hf : f ∈ H) : s.refcount f = 0 :=
  h.wf.cnt_uncounted (u := Use.held f) (b := true) not_counted_held (by simp [Vm.pool, Vm.owner, hf])

theorem refcount_pos (hu : s.upage d v = some (f, b)) : 1 ≤ s.refcount f :=
  h.wf.cnt_pos (u := Use.page d v) counted_page hu

end

theorem letGo (h : Inv A (insert f H) L s) (hf : f ∉ H) :
    (s.pool H L).Wf Use.counted A ∧ (s.pool H L).Loose A f := by
  have := h.wf.clear (u := Use.held f) (f := f) (b := true) not_counted_held
    (by simp [Vm.pool, Vm.owner])
  simpa only [Vm.pool, ← owner_release hf] using this

theorem upage_insert_ne (h : Inv A (insert f H) L s) : ∀ d v b, s.upage d v ≠ some (f, b) := by
  intro d v b hu
  have := h.held_ne (u := Use.page d v) (Set.mem_insert f H) hu
  cases this

theorem inj_setPte (h : Inv A H L s) (ht : s.tab d (v / nptentries) ≠ none)
    (hne : ∀ v' b', s.upage d v' ≠ some (f, b')) {w u : Bool} {d' v1 v2 g : ℕ} {b1 b2 : Bool}
    (h1 : (s.setPte d v ⟨f, true, w, u⟩).upage d' v1 = some (g, b1))
    (h2 : (s.setPte d v ⟨f, true, w, u⟩).upage d' v2 = some (g, b2)) : v1 = v2 := by
  rw [upage_setPte ht] at h1 h2
  split_ifs at h1 h2 with c1 c3 c2
  · rw [c1.2, c2.2]
  · simp only [Option.some.injEq, Prod.mk.injEq] at h1
    obtain ⟨rfl, -⟩ := c1
    exact absurd h2 (h1.1 ▸ hne _ _)
  · simp only [Option.some.injEq, Prod.mk.injEq] at h2
    rename_i c2 _
    obtain ⟨rfl, -⟩ := c2
    exact absurd h1 (h2.1 ▸ hne _ _)
  · exact h.inj h1 h2

theorem mapFresh (h : Inv A (insert f H) L s) (hf : f ∉ H) (ht : s.tab d (v / nptentries) ≠ none)
    (hv : s.upage d v = none) (hk : v < kernpage) (w u : Bool) :
    Inv A H L ((s.setPte d v ⟨f, true, w, u⟩).addRef f 1) := by
  obtain ⟨hwf, hloose⟩ := h.letGo hf
  have h0 : s.refcount f = 0 := h.refcount_held (Set.mem_insert f H)
  refine ⟨?_, ?_, fun g => ?_, by simpa using h.bound, by simp [Vm.addRef, h.exact, h0, toChar]⟩
  · have := hwf.count (u := Use.page d v) hloose counted_page hv w
    simp only [Vm.pool] at this ⊢
    rw [owner_addRef, owner_setPte ht]
    simpa [hk, Vm.addRef, h0, toChar] using this
  · intro d' w1 w2 g b b' h1 h2
    rw [upage_addRef] at h1 h2
    exact h.inj_setPte ht (h.upage_insert_ne d) h1 h2
  · simp only [Vm.addRef, Vm.setPte_refcount, update_apply]
    split_ifs
    · simp [h0, toChar]
    · exact h.small g

theorem leak (h : Inv A (insert f H) L s) (hf : f ∉ H) : Inv A H (insert f L) (s.addRef f 1) := by
  obtain ⟨hwf, hloose⟩ := h.letGo hf
  have h0 : s.refcount f = 0 := h.refcount_held (Set.mem_insert f H)
  have hL := h.not_leaked_of_held (Set.mem_insert f H)
  refine ⟨?_, h.inj, fun g => ?_, h.bound, by simp [Vm.addRef, h.exact, h0, toChar]⟩
  · have := hwf.count (u := Use.leaked f) hloose trivial (by simp [Vm.pool, Vm.owner, hL]) true
    simp only [Vm.pool] at this ⊢
    rw [owner_addRef, owner_leak]
    simpa [Vm.addRef, h0, toChar] using this
  · simp only [Vm.addRef, update_apply]
    split_ifs
    · simp [h0, toChar]
    · exact h.small g

theorem adopt (h : Inv A H (insert f L) s) (hf : f ∉ L) (ht : s.tab d (v / nptentries) ≠ none)
    (hv : s.upage d v = none) (hk : v < kernpage) (w u : Bool) :
    Inv A H L (s.setPte d v ⟨f, true, w, u⟩) := by
  have ho : (s.pool H (insert f L)).own (.leaked f) = some (f, true) := by
    simp [Vm.pool, Vm.owner]
  have hne : ∀ d v b, s.upage d v ≠ some (f, b) := by
    intro d' v' b' hu
    have := h.wf.alone (v := Use.page d' v') ho hu
    cases this
  have hwf := h.wf.drop (u := Use.leaked f) trivial ho
  have hloose := h.wf.loose_of_drop ho (h.wf.alone ho)
  refine ⟨?_, ?_, by simpa using h.small, by simpa using h.bound, by simpa using h.exact⟩
  · have hnone : update (s.pool H (insert f L)).own (.leaked f) none (.page d v) = none := by
      simpa [Vm.pool, Vm.owner] using hv
    have := hwf.count (u := Use.page d v) hloose counted_page hnone w
    simp only [Vm.pool] at this ⊢
    rw [owner_setPte ht, owner_unleak hf]
    simpa [hk] using this
  · intro d' v1 v2 g b1 b2 h1 h2
    exact h.inj_setPte ht (hne d) h1 h2

theorem reflag (h : Inv A H L s) (hu : s.upage d v = some (f, b)) (w u : Bool)
    (hw : w = true → b = true ∨ s.refcount f = 1) : Inv A H L (s.setPte d v ⟨f, true, w, u⟩) := by
  have ht := tab_of_upage hu
  obtain ⟨hk, -, -, -⟩ := upage_eq_some hu
  have hback : ∀ {v' g b'}, (s.setPte d v ⟨f, true, w, u⟩).upage d v' = some (g, b') →
      ∃ b'', s.upage d v' = some (g, b'') := by
    intro v' g b' h'
    rw [upage_setPte ht] at h'
    split_ifs at h' with c
    · obtain ⟨-, rfl⟩ := c
      simp only [Option.some.injEq, Prod.mk.injEq] at h'
      exact ⟨b, by rw [hu, h'.1]⟩
    · exact ⟨b', h'⟩
  refine ⟨?_, ?_, by simpa using h.small, by simpa using h.bound, by simpa using h.exact⟩
  · simp only [Vm.pool, owner_setPte ht, hk, true_and, if_true, Vm.setPte_freelist,
      Vm.setPte_refcount]
    exact h.wf.reflag (u := Use.page d v) counted_page hu w hw
  intro d' v1 v2 g b1 b2 h₁ h2
  by_cases hd : d' = d
  · subst hd
    obtain ⟨_, h₁⟩ := hback h₁
    obtain ⟨_, h2⟩ := hback h2
    exact h.inj h₁ h2
  · rw [upage_setPte ht] at h₁ h2
    simp only [hd, false_and, if_false] at h₁ h2
    exact h.inj h₁ h2

theorem share (h : Inv A H L s) (hu : s.upage d v = some (f, false))
    (ht : s.tab c (v / nptentries) ≠ none) (hv : s.upage c v = none)
    (hc : ∀ v' b', s.upage c v' ≠ some (f, b')) (hf : s.refcount f < 127) (u : Bool) :
    Inv A H L ((s.setPte c v ⟨f, true, false, u⟩).addRef f 1) := by
  obtain ⟨hk, -, -, -⟩ := upage_eq_some hu
  have hn := h.nonneg f
  have hinc : toChar (s.refcount f + 1) = s.refcount f + 1 := toChar_of_mem (by omega) (by omega)
  refine ⟨?_, ?_, fun g => ?_, by simpa using h.bound, by simp [Vm.addRef, h.exact, hinc]⟩
  · have := h.wf.share (v := Use.page d v) (u := Use.page c v) hu counted_page hv
    simp only [Vm.pool] at this ⊢
    rw [owner_addRef, owner_setPte ht]
    simpa [hk, Vm.addRef, hinc] using this
  · intro d' v1 v2 g b1 b2 h1 h2
    rw [upage_addRef] at h1 h2
    exact h.inj_setPte ht hc h1 h2
  · simp only [Vm.addRef, Vm.setPte_refcount, update_apply]
    split_ifs
    · rw [hinc]
      omega
    · exact h.small g

theorem unmap (h : Inv A H L s) (hu : s.upage d v = some (f, b)) :
    Inv A H L ((s.addRef f (-1)).setPte d v .zero) := by
  have ht : (s.addRef f (-1)).tab d (v / nptentries) ≠ none := tab_of_upage hu
  have hpos := h.refcount_pos hu
  have hsmall := h.small f
  have hdec : toChar (s.refcount f + -1) = s.refcount f - 1 := toChar_of_mem (by omega) (by omega)
  refine ⟨?_, ?_, fun g => ?_, by simpa using h.bound, ?_⟩
  · have := h.wf.drop (u := Use.page d v) counted_page hu
    simp only [Vm.pool] at this ⊢
    rw [owner_clear ht, owner_addRef]
    simpa [Vm.addRef, hdec] using this
  · intro d' v1 v2 g b1 b2 h1 h2
    rw [upage_clear ht] at h1 h2
    split_ifs at h1 h2
    exact h.inj h1 h2
  · simp only [Vm.addRef, Vm.setPte_refcount, update_apply]
    split_ifs
    · omega
    · exact h.small g
  · rw [Vm.setPte_wrapped]
    simp only [Vm.addRef, h.exact, hdec, Bool.false_or, bne_eq_false_iff_eq]
    omega

theorem unmapLast (h : Inv A H L s) (hu : s.upage d v = some (f, b)) (h1 : s.refcount f = 1) :
    Inv A H L (((s.addRef f (-1)).freed f).setPte d v .zero) := by
  have ht : (s.addRef f (-1)).tab d (v / nptentries) ≠ none := tab_of_upage hu
  have hun := h.unmap hu
  have hloose : ((((s.addRef f (-1)).setPte d v .zero)).pool H L).Loose A f := by
    have := h.wf.loose_of_drop (u := Use.page d v) hu (h.wf.alone_of_cnt_one counted_page hu h1)
    refine ⟨this.1, by simpa [Vm.pool] using this.2.1, fun u c hc => this.2.2 u c ?_⟩
    simp only [Vm.pool] at hc ⊢
    rwa [owner_clear ht, owner_addRef] at hc
  have hpush := hun.wf.push hloose
  have hu' : (((s.addRef f (-1)).freed f).setPte d v .zero).upage =
      ((s.addRef f (-1)).setPte d v .zero).upage := by
    funext d' v'
    rw [upage_clear ht, upage_clear (s := (s.addRef f (-1)).freed f) ht]
    rfl
  refine ⟨?_, ?_, ?_, by simpa using h.bound, ?_⟩
  · simp only [Vm.pool] at hpush ⊢
    rw [owner_congr (by simp) (by simp) hu']
    simpa using hpush
  · rw [hu']
    exact hun.inj
  · intro g
    simpa using hun.small g
  · have := hun.exact
    rw [Vm.setPte_wrapped] at this ⊢
    exact this

/-- A faulting mapping moves from a shared frame to a page its handler holds. -/
theorem cow {m : ℕ} (h : Inv A (insert m H) L s) (hm : m ∉ H) (hu : s.upage d v = some (f, b))
    (w u : Bool) :
    Inv A H L (((s.addRef f (-1)).addRef m 1).setPte d v ⟨m, true, w, u⟩) := by
  obtain ⟨hk, -, -, -⟩ := upage_eq_some hu
  have ht := tab_of_upage hu
  have hne : f ≠ m := fun e => h.upage_insert_ne d v b (e ▸ hu)
  have hun := h.unmap hu
  have ht' : ((s.addRef f (-1)).setPte d v .zero).tab d (v / nptentries) ≠ none := by
    have htf : ((s.addRef f (-1)).setPte d v .zero).tabFrame d (v / nptentries) ≠ none := by
      rw [Vm.tabFrame_setPte]
      simpa [Vm.tabFrame] using ht
    simpa [Vm.tabFrame] using htf
  have hv : ((s.addRef f (-1)).setPte d v .zero).upage d v = none := by
    rw [upage_clear (by exact ht)]
    simp
  have hmap := hun.mapFresh hm ht' hv hk w u
  refine hmap.congr (by simp) (by simp) ?_ (by simp) ?_ ?_
  · funext d' v'
    rw [upage_addRef, upage_setPte ht', upage_clear (by exact ht), upage_setPte (by exact ht)]
    split_ifs <;> rfl
  · simp [Vm.addRef, Vm.setPte_refcount]
  · simp [Vm.addRef, Vm.setPte_refcount, hne.symm]

theorem newTable (h : Inv A (insert f H) L s) (hf : f ∉ H) (hd : s.live d = true)
    (ht : s.tab d i = none) (hi : i < nptentries) :
    Inv A H L (s.setTab d i (some ⟨f, fun _ => .zero⟩)) := by
  obtain ⟨hwf, hloose⟩ := h.letGo hf
  have hu : (s.setTab d i (some ⟨f, fun _ => .zero⟩)).upage = s.upage := by
    refine upage_congr ?_
    funext d' v'
    exact Vm.pte_newTab ht ..
  have htf : ∀ d' j, (s.setTab d i (some ⟨f, fun _ => .zero⟩)).tabFrame d' j =
      if d' = d ∧ j = i then some f else s.tabFrame d' j := by
    intro d' j
    simp only [Vm.tabFrame, Vm.tab_setTab, hd, and_true]
    split_ifs <;> rfl
  refine ⟨?_, ?_, h.small, fun d' j hj => ?_, h.exact⟩
  · have := hwf.assign (u := Use.table d i) hloose not_counted_table
    simp only [Vm.pool] at this ⊢
    rw [owner_table (Vm.live_setTab ..) hu htf]
    exact this
  · rw [hu]
    exact h.inj
  · rw [htf, if_neg (fun hc => by omega)]
    exact h.bound _ _ hj

theorem not_live_of_held (h : Inv A H L s) (hd : d ∈ H) : s.live d = false := by
  by_contra hc
  have := h.held_ne (u := Use.dir d) (b := true) hd (by simpa [Vm.owner] using hc)
  cases this

theorem newDir (h : Inv A (insert d H) L s) (hd : d ∉ H) :
    Inv A H L (s.setDir d (some fun _ => none)) := by
  obtain ⟨hwf, hloose⟩ := h.letGo hd
  have hl : s.live d = false := h.not_live_of_held (Set.mem_insert d H)
  have htab : (s.setDir d (some fun _ => none)).tab = s.tab := by
    refine Vm.tab_setDir (fun i => ?_) (fun E hE i => ?_)
    · by_contra hc
      simp [Vm.live_of_tab hc] at hl
    · obtain rfl := Option.some.inj hE
      rfl
  have hu := upage_congr (Vm.pte_congr htab)
  refine ⟨?_, ?_, h.small, by rw [Vm.tabFrame_congr htab]; exact h.bound, h.exact⟩
  · have := hwf.assign (u := Use.dir d) hloose not_counted_dir
    simp only [Vm.pool] at this ⊢
    rw [owner_dir (s := s) (d := d) (x := true) (Vm.tabFrame_congr htab) hu
      (fun d' => by simp [Vm.live_setDir])]
    exact this
  · rw [hu]
    exact h.inj

theorem freeTable (h : Inv A H L s) {t : PgTab} (ht : s.tab d i = some t)
    (hu : ∀ v, v / nptentries = i → s.upage d v = none) :
    Inv A H L ((s.freed t.frame).setTab d i none) := by
  have hl : s.live d = true := Vm.live_of_tab (by rw [ht]; simp)
  have ho : (s.pool H L).own (.table d i) = some (t.frame, true) := by
    simp [Vm.pool, Vm.owner, Vm.tabFrame, ht]
  obtain ⟨hwf, hloose⟩ := h.wf.clear not_counted_table ho
  have hu' := upage_dropTab t.frame hu
  have htf : ∀ d' j, ((s.freed t.frame).setTab d i none).tabFrame d' j =
      if d' = d ∧ j = i then none else s.tabFrame d' j := by
    intro d' j
    simp only [Vm.tabFrame, Vm.tab_setTab, Vm.live_freed, hl, and_true]
    split_ifs <;> rfl
  refine ⟨?_, ?_, h.small, fun d' j hj => ?_, h.exact⟩
  · have := hwf.push hloose
    simp only [Vm.pool] at this ⊢
    rw [owner_table (s := s) (d := d) (i := i) (x := none) (by simp) hu' htf]
    exact this
  · rw [hu']
    exact h.inj
  · rw [htf]
    split_ifs
    · rfl
    · exact h.bound _ _ hj

theorem freeDir (h : Inv A H L s) (hl : s.live d = true) (ht : ∀ i, s.tab d i = none) :
    Inv A H L ((s.freed d).setDir d none) := by
  have ho : (s.pool H L).own (.dir d) = some (d, true) := by
    simp [Vm.pool, Vm.owner, hl]
  obtain ⟨hwf, hloose⟩ := h.wf.clear not_counted_dir ho
  have htab : ((s.freed d).setDir d none).tab = s.tab :=
    Vm.tab_setDir (s := s.freed d) ht (fun E hE => by cases hE)
  have hu := upage_congr (Vm.pte_congr htab)
  refine ⟨?_, ?_, h.small, by rw [Vm.tabFrame_congr htab]; exact h.bound, h.exact⟩
  · have := hwf.push hloose
    simp only [Vm.pool] at this ⊢
    rw [owner_dir (s := s) (d := d) (x := false) (Vm.tabFrame_congr htab) hu
      (fun d' => by simp only [Vm.live_setDir, Vm.live_freed, Option.isSome_none])]
    exact this
  · rw [hu]
    exact h.inj

theorem setKernPte (h : Inv A H L s) (hv : kernpage ≤ v) (e : Pte) : Inv A H L (s.setPte d v e) := by
  refine h.congr (by simp) (by simp) ?_ (by simp) (by simp) (by simp)
  by_cases ht : s.tab d (v / nptentries) = none
  · simp [Vm.setPte, ht]
  funext d' v'
  rw [upage_setPte ht]
  split_ifs with c1 c2
  · omega
  · obtain ⟨rfl, rfl⟩ := c1
    simp [Vm.upage, Nat.not_lt.2 hv]
  · rfl

end Inv

end Xv6

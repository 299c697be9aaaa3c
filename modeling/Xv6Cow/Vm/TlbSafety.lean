import Xv6Cow.Vm.Tlb

/-!
# Stale entries

Every function of `vm.c` that changes the directory of the running process loads `cr3` before it
returns, with two exceptions in `growproc`: where `deallocuvm` returns the new size 0, and where
`allocuvm` runs out of memory and gives back the pages it has got.
-/

namespace Xv6.Tlb

open Function Lts Cached

/-- A cached entry is good while the directory maps the page to the same frame, with the same
permissions or more. -/
def Allowed (e e' : Pte) : Prop :=
  e'.p = true ∧ e'.frame = e.frame ∧ (e.w = true → e'.w = true) ∧ (e.u = true → e'.u = true)

theorem allowed_of_present (e : Pte) (h : present e) : Allowed e e := ⟨h, rfl, id, id⟩

/-! ## What is loaded before the functions return -/

section Functions

variable {D : Dir}

/-- Nothing has been done to the directory, or it has been loaded after the last change. -/
def Space.Clean (a : Space D) : Prop := a.evs = [] ∨ ∃ es, a.evs = es ++ [.flush]

theorem Space.clean_start : (start D).Clean := .inl rfl

theorem Space.clean_lcr3 (a : Space D) : a.lcr3.Clean := .inr ⟨a.evs, rfl⟩

variable {a : Space D}

theorem pagefault_clean {va : ℕ} {count : ℤ} {mem : Option ℕ} {r : Fault}
    (h : pagefault va count mem (.start D) = .ok (a, r)) : a.Clean := by
  unfold pagefault at h
  dsimp only at h
  split_ifs at h
  all_goals first
    | cases h; done
    | cases h
      exact Space.clean_start
    | cases h
      exact Space.clean_lcr3 _
    | cases mem with
      | none =>
        cases h
        exact Space.clean_start
      | some m =>
        cases h
        exact Space.clean_lcr3 _

variable {table : ℕ → Bool}

/-- Once it has begun, `copyuvm` does not return without `lcr3`. -/
theorem copyuvmLoop_clean {sz v : ℕ} {a b : Space D} {d : Dir} {r : Option Dir}
    (h : copyuvmLoop table sz v a d = .ok (b, r)) : b.Clean := by
  fun_induction copyuvmLoop table sz v a d with
  | case1 | case2 | case3 => cases h
  | case4 _ _ _ _ _ _ _ _ _ _ ih => exact ih h
  | case5 | case6 =>
    cases h
    exact Space.clean_lcr3 _

theorem copyuvm_clean {setup : Bool} {sz : ℕ} {r : Option Dir}
    (h : copyuvm table setup sz (.start D) = .ok (a, r)) : a.Clean := by
  unfold copyuvm at h
  split_ifs at h
  · exact copyuvmLoop_clean h
  · cases h
    exact Space.clean_start

/-! ## `growproc` -/

theorem deallocuvmLoop_none {oldsz v : ℕ}
    (hnone : ∀ u, v ≤ u → u * pgsize < oldsz → (a.dir.pte u).p = false) :
    deallocuvmLoop oldsz v a = .ok a := by
  fun_induction deallocuvmLoop oldsz v a with
  | case1 v a hv _ hp | case2 v a hv _ hp =>
    rw [hnone v le_rfl hv] at hp
    cases hp
  | case3 v a hv _ _ ih => exact ih fun u hu => hnone u (Nat.le_of_succ_le hu)
  | case4 v a hv _ ih => exact ih fun u hu => hnone u (by omega)
  | case5 => rfl

variable {frame : ℕ → Option ℕ}

theorem allocuvmLoop_succeeds {oldsz newsz v : ℕ}
    {a b : Space D} {r : ℕ} (hframe : ∀ u, v ≤ u → u * pgsize < newsz → frame u ≠ none)
    (h : allocuvmLoop frame table oldsz newsz v a = .ok (b, r)) : r = newsz := by
  fun_induction allocuvmLoop frame table oldsz newsz v a with
  | case1 v a hv hf => exact absurd hf (hframe v le_rfl hv)
  | case2 v a hv f hf ih =>
    obtain ⟨⟨a', _⟩, -, hrest⟩ := Prog.ok_of_bind h
    exact ih a' (fun u hu => hframe u (Nat.le_of_succ_le hu)) hrest
  | case3 =>
    cases h
    rfl

/-- What `growproc` can be asked for: not to give up all memory, and not to grow where a page can be
had and a later one cannot. -/
structure GrowOk (frame : ℕ → Option ℕ) (sz : ℕ) (n : ℤ) (D : Dir) : Prop where
  shrink : n < 0 → addSize sz n = 0 → sz = 0
  grow : 0 < n → ∀ v, pgroundup sz ≤ v → v * pgsize < addSize sz n → frame v = none →
    v = pgroundup sz ∧
      ∀ u, pgroundup sz ≤ u → u * pgsize < addSize sz n → (D.pte u).p = false

/-- If `allocuvm` fails, it has not changed anything. -/
theorem allocuvm_fails {sz : ℕ} {n : ℤ} (hn : 0 < n) (hok : GrowOk frame sz n D)
    (h : allocuvm frame table sz (addSize sz n) (.start D) = .ok (a, 0)) : a = .start D := by
  unfold allocuvm at h
  split_ifs at h with hkern hlt
  · cases h
    rfl
  · have hsz : sz = 0 := by
      cases h
      rfl
    omega
  rw [allocuvmLoop] at h
  split_ifs at h with hv
  swap
  · obtain ⟨rfl, -⟩ := Prod.mk.inj (Except.ok.inj h)
    rfl
  cases hf : frame (pgroundup sz) with
  | none =>
    -- the first page is not to be had, and `deallocuvm` finds nothing
    obtain ⟨-, hnone⟩ := hok.grow hn _ le_rfl hv hf
    rw [hf] at h
    obtain ⟨⟨b, _⟩, hb, hrest⟩ := Prog.ok_of_bind h
    cases hrest
    unfold deallocuvm at hb
    split_ifs at hb
    · cases hb
      rfl
    · rw [deallocuvmLoop_none hnone] at hb
      cases hb
      rfl
  | some f =>
    rw [hf] at h
    obtain ⟨⟨b, _⟩, -, hrest⟩ := Prog.ok_of_bind h
    have hall : ∀ u, pgroundup sz + 1 ≤ u → u * pgsize < addSize sz n → frame u ≠ none := by
      intro u hu hlt' hnone
      have := (hok.grow hn u (by omega) hlt' hnone).1
      omega
    have := allocuvmLoop_succeeds hall hrest
    omega

theorem growproc_clean {sz : ℕ} {n : ℤ} {r : Option ℕ} (hok : GrowOk frame sz n D)
    (h : growproc frame table sz n (.start D) = .ok (a, r)) : a.Clean := by
  unfold growproc at h
  obtain ⟨⟨b, sz'⟩, hb, hrest⟩ := Prog.ok_of_bind h
  dsimp only at hrest
  split_ifs at hrest with hzero
  swap
  · cases hrest
    exact Space.clean_lcr3 _
  cases hrest
  obtain ⟨hne, rfl⟩ := hzero
  unfold resize at hb
  split_ifs at hb with hpos hneg
  · rw [allocuvm_fails hpos hok hb]
    exact Space.clean_start
  · unfold deallocuvm at hb
    split_ifs at hb with hle
    · cases hb
      exact Space.clean_start
    · obtain ⟨b', -, hb'⟩ := Prog.ok_of_bind hb
      have := hok.shrink hneg (Prod.mk.inj (Except.ok.inj hb')).2
      omega
  · omega

end Functions

/-! ## Runs -/

variable {P C : Type} [DecidableEq P] [DecidableEq C] {s s' : Sys P C} {l : C × Op P} {c : C} {p : P}
  {q : Proc}

/-- What the CPUs have cached is what the directories of their processes allow. -/
def Safe (s : Sys P C) : Prop :=
  ∀ c p q, (s.cpu c).proc = some p → s.proc p = some q → Coherent Allowed q.dir.pte (s.cpu c).tlb

structure Inv (s : Sys P C) : Prop where
  safe : Safe s
  one : ∀ c c' p, (s.cpu c).proc = some p → (s.cpu c').proc = some p → c = c'
  alive : ∀ c p, (s.cpu c).proc = some p → s.proc p ≠ none

omit [DecidableEq P] [DecidableEq C] in
theorem Call.coherent {a : Space q.dir} {tlb : Set (ℕ × Pte)} (h : Call s c p q a tlb) (hi : Inv s)
    (ha : a.Clean) : Coherent Allowed a.dir.pte tlb := by
  have hexec := h.exec
  rcases ha with hnil | ⟨es, hes⟩
  · rw [hnil] at hexec
    exact hexec.coherent_nil allowed_of_present (hi.safe c p q h.runs h.proc)
  · rw [hes] at hexec
    exact hexec.coherent_flush allowed_of_present

/-- The process of one CPU goes on, with what is cached of it. -/
theorem Inv.change (hi : Inv s) (hc : (s.cpu c).proc = some p) {q' : Proc} {tlb : Set (ℕ × Pte)}
    (hcoh : Coherent Allowed q'.dir.pte tlb) :
    Inv ((s.setProc p (some q')).setCpu c ⟨some p, tlb⟩) := by
  have hcpu : ∀ c', update s.cpu c ⟨some p, tlb⟩ c' =
      if c' = c then ⟨some p, tlb⟩ else s.cpu c' := fun c' => update_apply ..
  have hproc : ∀ c', (update s.cpu c ⟨some p, tlb⟩ c').proc = (s.cpu c').proc := by
    intro c'
    rw [hcpu]
    split_ifs with hcc
    · rw [hcc, hc]
    · rfl
  refine ⟨fun c' p' q1 hp' hq1 => ?_, fun c1 c2 p' h1 h2 => ?_, fun c' p' hp' => ?_⟩
  · have hold : (s.cpu c').proc = some p' := (hproc c').symm.trans hp'
    show Coherent Allowed q1.dir.pte (update s.cpu c ⟨some p, tlb⟩ c').tlb
    rw [hcpu]
    split_ifs with hcc
    · obtain rfl : p = p' := by
        rw [hcc, hc] at hold
        simpa using hold
      obtain rfl : q' = q1 := by
        have hq1 : update s.proc p (some q') p = some q1 := hq1
        rw [update_self] at hq1
        simpa using hq1
      exact hcoh
    · have hne : p' ≠ p := by
        rintro rfl
        exact hcc (hi.one c' c p' hold hc)
      have hq1 : update s.proc p (some q') p' = some q1 := hq1
      rw [update_of_ne hne] at hq1
      exact hi.safe c' p' q1 hold hq1
  · exact hi.one c1 c2 p' ((hproc c1).symm.trans h1) ((hproc c2).symm.trans h2)
  · show update s.proc p (some q') p' ≠ none
    by_cases hpp : p' = p
    · rw [hpp, update_self]
      nofun
    · rw [update_of_ne hpp]
      exact hi.alive c' p' ((hproc c').symm.trans hp')

omit [DecidableEq C] in
theorem Inv.setOff (hi : Inv s) (hp : ∀ c, (s.cpu c).proc ≠ some p) (q : Option Proc) :
    Inv (s.setProc p q) := by
  have hsame : ∀ c p', (s.cpu c).proc = some p' → update s.proc p q p' = s.proc p' := by
    intro c p' hc
    refine update_of_ne ?_ ..
    rintro rfl
    exact hp c hc
  refine ⟨fun c' p' q' hp' hq' => ?_, hi.one, fun c' p' hp' => ?_⟩
  · exact hi.safe c' p' q' hp' ((hsame c' p' hp').symm.trans hq')
  · show update s.proc p q p' ≠ none
    rw [hsame c' p' hp']
    exact hi.alive c' p' hp'

omit [DecidableEq P] in
theorem Inv.load (hi : Inv s) {x : Option P} (hx : ∀ p, x = some p → s.proc p ≠ none ∧
      ∀ c', c' ≠ c → (s.cpu c').proc ≠ some p) : Inv (s.setCpu c ⟨x, ∅⟩) := by
  have hcpu : ∀ c', update s.cpu c ⟨x, ∅⟩ c' = if c' = c then ⟨x, ∅⟩ else s.cpu c' :=
    fun c' => update_apply ..
  refine ⟨fun c' p q hp hq => ?_, fun c1 c2 p h1 h2 => ?_, fun c' p hp => ?_⟩
  · have hp : (update s.cpu c ⟨x, ∅⟩ c').proc = some p := hp
    show Coherent Allowed q.dir.pte (update s.cpu c ⟨x, ∅⟩ c').tlb
    rw [hcpu] at hp ⊢
    split_ifs at hp ⊢
    · exact coherent_empty
    · exact hi.safe c' p q hp hq
  · have h1 : (update s.cpu c ⟨x, ∅⟩ c1).proc = some p := h1
    have h2 : (update s.cpu c ⟨x, ∅⟩ c2).proc = some p := h2
    rw [hcpu] at h1 h2
    split_ifs at h1 h2 with hc1 hc2 hc2
    · rw [hc1, hc2]
    · exact absurd h2 ((hx p h1).2 c2 hc2)
    · exact absurd h1 ((hx p h2).2 c1 hc1)
    · exact hi.one c1 c2 p h1 h2
  · have hp : (update s.cpu c ⟨x, ∅⟩ c').proc = some p := hp
    rw [hcpu] at hp
    split_ifs at hp
    · exact (hx p hp).1
    · exact hi.alive c' p hp

/-- Every call of `sbrk` is one that `growproc` can be asked for. -/
def SbrkOk (s : Sys P C) (l : C × Op P) : Prop :=
  ∀ n frame table p q, l.2 = .sbrk n frame table → (s.cpu l.1).proc = some p → s.proc p = some q →
    GrowOk frame q.sz n q.dir

theorem Step.inv (h : Step s l s') (hok : SbrkOk s l) (hi : Inv s) : Inv s' := by
  cases h with
  | dispatch hc hp hone =>
    refine hi.load fun p' hp' => ?_
    obtain rfl := Option.some.inj hp'
    exact ⟨hp, fun c' _ => hone c'⟩
  | sched => exact hi.load nofun
  | @user c p q tlb h =>
    have hset : s.setProc p (some q) = s := by
      rw [Sys.setProc, ← h.proc, update_eq_self]
    have := hi.change h.runs (h.coherent hi Space.clean_start)
    rwa [hset] at this
  | sbrk h hr =>
    have hgrow := hok _ _ _ _ _ rfl h.runs h.proc
    exact hi.change h.runs (h.coherent hi (growproc_clean hgrow hr))
  | fault h hr => exact hi.change h.runs (h.coherent hi (pagefault_clean hr))
  | @fork c p q np setup table a d tlb h hnp hr =>
    have hch : Inv ((s.setProc p (some ⟨a.dir, q.sz⟩)).setCpu c ⟨some p, tlb⟩) :=
      hi.change h.runs (h.coherent hi (copyuvm_clean hr))
    have hne : np ≠ p := by
      rintro rfl
      rw [h.proc] at hnp
      cases hnp
    refine hch.setOff (fun c' hc' => hch.alive c' np hc' ?_) (some ⟨d, q.sz⟩)
    exact (update_of_ne hne ..).trans hnp
  | forkFails h hr => exact hi.change h.runs (h.coherent hi (copyuvm_clean hr))
  | exec hc hp => exact hi.change hc coherent_empty
  | @exit c p hc =>
    have hload : Inv (s.setCpu c ⟨none, ∅⟩) := hi.load nofun
    refine hload.setOff (fun c' hc' => ?_) none
    have hc' : (update s.cpu c ⟨none, ∅⟩ c').proc = some p := hc'
    by_cases hcc : c' = c
    · rw [hcc, update_self] at hc'
      cases hc'
    · rw [update_of_ne hcc] at hc'
      exact hcc (hi.one c' c p hc' hc)

omit [DecidableEq C] in
theorem boot_inv {init : P} {f : ℕ} : Inv (boot P C init f) := ⟨nofun, nofun, nofun⟩

/-- In a run in which every call of `sbrk` meets `SbrkOk`, whenever user code runs on a CPU, every
cached entry maps its page as the directory of the process does, and permits no more. -/
theorem tlb_safe {init : P} {f : ℕ} {ls : List (C × Op P)}
    (run : Run (given Step SbrkOk) (boot P C init f) ls s) {c : C} {p : P} {q : Proc}
    (hc : (s.cpu c).proc = some p) (hp : s.proc p = some q) {v : ℕ} {e : Pte}
    (he : (v, e) ∈ (s.cpu c).tlb) :
    (q.dir.pte v).p = true ∧ (q.dir.pte v).frame = e.frame ∧
      (e.w = true → (q.dir.pte v).w = true) ∧ (e.u = true → (q.dir.pte v).u = true) := by
  have hi : Inv s := run.invariant boot_inv fun _ _ _ hi h => h.2.inv h.1 hi
  exact hi.safe c p q hc hp (v, e) he

/-- The directory after `userinit`. -/
def firstDir : Dir := Dir.empty.map 0 ⟨1, true, true, true⟩

/-- The first process runs, and page 0 is cached. -/
def pageCached : Sys Unit Unit :=
  ((boot Unit Unit () 1).setCpu () ⟨some (), ∅⟩).setCpu () ⟨some (), {(0, ⟨1, true, true, true⟩)}⟩

theorem pageCached_run : Run Step (boot Unit Unit () 1)
    [((), .dispatch ()), ((), .user)] pageCached := by
  refine .cons (.dispatch rfl nofun nofun) (.one (.user (q := ⟨firstDir, pgsize⟩) ⟨rfl, rfl, ?_⟩))
  refine .fill 0 rfl ?_
  have hset : insert (0, firstDir.pte 0) (∅ : Set (ℕ × Pte)) = {(0, ⟨1, true, true, true⟩)} := by
    rw [insert_empty_eq]
    rfl
  show Exec present firstDir.pte (insert (0, firstDir.pte 0) ∅) [] firstDir.pte _
  rw [hset]
  exact .done ..

/-- The directory after `sbrk(4096)`. -/
def secondDir : Dir := firstDir.map 1 ⟨2, true, true, true⟩

theorem growproc_page : growproc (fun _ => some 2) (fun _ => true) pgsize 4096 (.start firstDir) =
    .ok (((Space.start firstDir).map 1 ⟨2, true, true, true⟩).lcr3, some 8192) := by
  have hloop : allocuvmLoop (fun _ => some 2) (fun _ => true) pgsize 8192 1 (.start firstDir) =
      .ok ((Space.start firstDir).map 1 ⟨2, true, true, true⟩, 8192) := by
    rw [allocuvmLoop, if_pos (by decide)]
    show allocuvmLoop _ _ _ _ 2 ((Space.start firstDir).map 1 _) = _
    rw [allocuvmLoop, if_neg (by decide)]
    rfl
  unfold growproc resize allocuvm
  rw [if_pos (by decide), show addSize pgsize 4096 =
    8192 by decide, if_neg (by decide), if_neg (by decide),
    show pgroundup pgsize = 1 by decide, hloop]
  rfl

/-- The page that `sbrk` has added is cached. -/
theorem tlb_safe_grown : ∃ s, Run (given Step SbrkOk) (boot Unit Unit () 1)
      ([((), .dispatch ()), ((), .user)] ++ [((), .sbrk 4096 (fun _ => some 2) fun _ => true)]) s ∧
    (1, ⟨2, true, true, true⟩) ∈ (s.cpu ()).tlb ∧ (secondDir.pte 1).p = true ∧
      (secondDir.pte 1).frame = 2 := by
  have run : Run (given Step SbrkOk) (boot Unit Unit () 1)
    [((), .dispatch ()), ((), .user)] pageCached := by
    refine pageCached_run.given_labels fun l hl s n frame table p q hop => ?_
    rcases List.mem_pair.1 hl with rfl | rfl <;> cases hop
  have hok : SbrkOk pageCached ((), .sbrk 4096 (fun _ => some 2) fun _ => true) := by
    rintro n frame table p q ⟨⟩ - -
    exact ⟨fun h => absurd h (by decide), fun _ _ _ _ h => absurd h (Option.some_ne_none 2)⟩
  have hstep := Step.sbrk (s := pageCached) (c := ()) (p := ()) (q := ⟨firstDir, pgsize⟩)
    ⟨rfl, rfl, .write (.flush (.fill 1 (show present (secondDir.pte 1) from rfl) (.done ..)))⟩
      growproc_page
  have hrun := run.append (.one ⟨hok, hstep⟩)
  refine ⟨_, hrun, Set.mem_insert .., ?_⟩
  obtain ⟨hp, hf, -⟩ := tlb_safe hrun (c := ()) (p := ()) (q := ⟨secondDir, 8192⟩) rfl rfl
    (Set.mem_insert ..)
  exact ⟨hp, hf⟩
/-- `sbrk(-4096)` of a process of 4096 bytes fails, after it has freed the page. -/
theorem growproc_all : growproc (fun _ => none) (fun _ => false) pgsize (-4096) (.start firstDir) =
    .ok ((Space.start firstDir).write 0 .zero, none) := by
  have hsize : addSize pgsize (-4096) = 0 := by decide
  have hloop : deallocuvmLoop pgsize 0 (.start firstDir) = .ok
    ((Space.start firstDir).write 0 .zero) := by
    rw [deallocuvmLoop, if_pos (by decide), if_pos (by decide), if_pos (by decide), if_neg (by decide),
      deallocuvmLoop, if_neg (by decide)]
    rfl
  unfold growproc resize deallocuvm
  rw [if_neg (by decide), if_pos (by decide), hsize, if_neg (by decide), show pgroundup 0 = 0 from rfl,
    hloop]
  rfl

/-- After `sbrk(-4096)`. -/
def pageFreed : Sys Unit Unit :=
  (pageCached.setProc () (some ⟨((Space.start firstDir).write 0 .zero).dir, pgsize⟩)).setCpu ()
    ⟨some (), {(0, ⟨1, true, true, true⟩)}⟩

/-- The process goes on with the freed page in the cache of its CPU. -/
theorem stale_page :
    Run Step (boot Unit Unit () 1) ([((), .dispatch ()), ((), .user)] ++
      [((), .sbrk (-4096) (fun _ => none) fun _ => false)]) pageFreed ∧
    (0, ⟨1, true, true, true⟩) ∈ (pageFreed.cpu ()).tlb ∧
      (pageFreed.proc ()).map (fun q => q.dir.pte 0) = some .zero := by
  refine ⟨pageCached_run.append
    (.one (.sbrk (q := ⟨firstDir, pgsize⟩) (r := none) ⟨rfl, rfl, ?_⟩ growproc_all)), ?_, rfl⟩
  · exact .write (.done ..)
  · exact Set.mem_singleton _

end Xv6.Tlb

import Xv6Cow.Vm.Boot
import Xv6Cow.Vm.System

/-!
# Copy-on-write refines eager copying

`SysInv` ties the frame invariant to the process table: the pages the kernel holds are the kernel
stacks, and every process has a page directory of its own.  `Rel s m` says that what a process can
read is what its own pages in the reference state `m` hold.
-/

namespace Xv6

open Function Lts Prog

/-- The kernel stacks in use. -/
def Sys.kstacks (s : Sys) : Set ℕ := {k | ∃ p q, s.proc p = some q ∧ q.kstack = k}

/-- What user code of process `q` can read of page `v`. -/
def Sys.view (s : Sys) (q : Proc) (v : ℕ) : Option Page := s.vm.view q.pgdir v

/-- The byte that user code of process `q` reads at `va`, if the address is present and accessible. -/
def Sys.read (s : Sys) (q : Proc) (va : ℕ) : Option UInt8 :=
  (s.view q (va / pgsize)).map (· (va % pgsize))

/-- The address spaces as the reference starts with them. -/
def Sys.spaces (s : Sys) : Spaces := fun p => (s.proc p).map fun q => ⟨s.view q, q.sz⟩

/-- The invariant of the process table and its memory; `k` is the kernel's own directory. -/
structure SysInv [Link] (k : Option ℕ) (s : Sys) : Prop where
  inv : ∃ L, Inv frames s.kstacks L s.vm
  live : ∀ {p q}, s.proc p = some q → s.vm.live q.pgdir = true
  dirs : ∀ {d}, s.vm.live d = true → k = some d ∨ ∃ p q, s.proc p = some q ∧ q.pgdir = d
  pgdir_inj : ∀ {p q p' q'}, s.proc p = some q → s.proc p' = some q' → q.pgdir = q'.pgdir → p = p'
  kstack_inj : ∀ {p q p' q'}, s.proc p = some q → s.proc p' = some q' → q.kstack = q'.kstack →
    p = p'
  size : ∀ {p q}, s.proc p = some q → q.sz < kernbase

/-- Besides, the kernel's own directory is nobody's and maps no user page. -/
structure KernInv [Link] (k : Option ℕ) (s : Sys) : Prop extends SysInv k s where
  kern : ∀ {d}, k = some d → s.vm.live d = true
  nobody : ∀ {d p q}, k = some d → s.proc p = some q → d ≠ q.pgdir
  empty : ∀ {d}, k = some d → ∀ v, s.vm.upage d v = none

/-- A panic: the machine stops. -/
def Stops (_ : String) (_ : Sys) : Prop := True

section Link

variable [Link] {k : Option ℕ} {s t : Sys} {p : Fin nproc} {q : Proc}

theorem SysInv.userDirs_lt (h : SysInv k s) : s.vm.userDirs.ncard < 127 := by
  have hsub : s.vm.userDirs ⊆ {d | k = some d} ∪
      Set.range (fun p : Fin nproc => ((s.proc p).map Proc.pgdir).getD 0) := by
    intro d hd
    rcases h.dirs (userDirs_subset_dirs s.vm hd) with hk | ⟨p, q, hp, rfl⟩
    · exact .inl hk
    · exact .inr ⟨p, by simp [hp]⟩
  have hk : ({d | k = some d} : Set ℕ).ncard ≤ 1 := by
    rcases k with _ | d
    · simp
    have : ({d' | some d = some d'} : Set ℕ) = {d} := by
      ext d'
      simp [eq_comm]
    rw [this, Set.ncard_singleton]
  have hfin : ({d | k = some d} : Set ℕ).Finite := by
    refine Set.Subsingleton.finite fun d hd d' hd' => ?_
    have h1 : k = some d := hd
    have h2 : k = some d' := hd'
    exact Option.some.inj (h1.symm.trans h2)
  have hr : (Set.range (fun p : Fin nproc => ((s.proc p).map Proc.pgdir).getD 0)).ncard ≤ nproc := by
    rw [← Set.image_univ]
    refine (Set.ncard_image_le Set.finite_univ).trans ?_
    simp [Set.ncard_univ]
  have hcard := (Set.ncard_le_ncard hsub (hfin.union (Set.finite_range _))).trans
    (Set.ncard_union_le _ _)
  simp only [nproc] at *
  omega

/-! ### The bookkeeping

`Booked` is the part of the invariant that reads the memory only through its live directories; a
slot is emptied or filled there, and every operation is one of the two or both. -/

structure Booked (k : Option ℕ) (proc : Fin nproc → Option Proc) (used : ℕ → Bool) : Prop where
  live : ∀ {p q}, proc p = some q → used q.pgdir = true
  dirs : ∀ {d}, used d = true → k = some d ∨ ∃ p q, proc p = some q ∧ q.pgdir = d
  pgdir_inj : ∀ {p q p' q'}, proc p = some q → proc p' = some q' → q.pgdir = q'.pgdir → p = p'
  kstack_inj : ∀ {p q p' q'}, proc p = some q → proc p' = some q' → q.kstack = q'.kstack → p = p'
  size : ∀ {p q}, proc p = some q → q.sz < kernbase
  kern : ∀ {d}, k = some d → used d = true
  nobody : ∀ {d p q}, k = some d → proc p = some q → d ≠ q.pgdir

theorem KernInv.booked (h : KernInv k s) : Booked k s.proc s.vm.live :=
  ⟨h.live, h.dirs, h.pgdir_inj, h.kstack_inj, h.size, h.kern, h.nobody⟩

theorem Booked.kernInv (h : Booked k s.proc s.vm.live) (hI : ∃ L, Inv frames s.kstacks L s.vm)
    (he : ∀ {d}, k = some d → ∀ v, s.vm.upage d v = none) : KernInv k s :=
  ⟨⟨hI, h.live, h.dirs, h.pgdir_inj, h.kstack_inj, h.size⟩, h.kern, h.nobody, he⟩

section Slots

variable {proc : Fin nproc → Option Proc} {live : ℕ → Bool} {v : Vm}

omit [Link] in
theorem Booked.pgdir_ne (h : Booked k proc live) (hp : proc p = some q) {d : ℕ}
    (hd : live d = false) : q.pgdir ≠ d := by
  rintro rfl
  rw [h.live hp] at hd
  cases hd

omit [Link] in
theorem Booked.kern_ne (h : Booked k proc live) {d d' : ℕ} (hk : k = some d')
    (hd : live d = false) : d' ≠ d := by
  rintro rfl
  rw [h.kern hk] at hd
  cases hd

omit [Link] in
theorem update_none_some {p1 : Fin nproc} {q1 : Proc} (h : update proc p none p1 = some q1) :
    p1 ≠ p ∧ proc p1 = some q1 := by
  have hne : p1 ≠ p := by
    rintro rfl
    simp at h
  exact ⟨hne, by rwa [update_of_ne hne] at h⟩

omit [Link] in
theorem Booked.remove (h : Booked k proc live) (hp : proc p = some q) :
    Booked k (update proc p none) (update live q.pgdir false) ∧
      Sys.kstacks ⟨update proc p none, v⟩ = Sys.kstacks ⟨proc, v⟩ \ {q.kstack} := by
  have hforth : ∀ {p1 q1}, proc p1 = some q1 → q1 ≠ q → update proc p none p1 = some q1 := by
    intro p1 q1 h1 hne
    rwa [update_of_ne]
    rintro rfl
    exact hne (Option.some.inj (h1.symm.trans hp))
  refine ⟨⟨fun h1 => ?_, fun {d} hd => ?_, fun h1 h2 => ?_, fun h1 h2 => ?_,
    fun h1 => h.size (update_none_some h1).2, fun hk => ?_,
    fun hk h1 => h.nobody hk (update_none_some h1).2⟩, ?_⟩
  · obtain ⟨hne, h1⟩ := update_none_some h1
    rw [update_of_ne (fun e => hne (h.pgdir_inj h1 hp e)), h.live h1]
  · by_cases e : d = q.pgdir
    · rw [e, update_self] at hd
      cases hd
    rw [update_of_ne e] at hd
    refine (h.dirs hd).imp_right ?_
    rintro ⟨p1, q1, h1, rfl⟩
    exact ⟨p1, q1, hforth h1 (fun e' => e (by rw [e'])), rfl⟩
  · exact h.pgdir_inj (update_none_some h1).2 (update_none_some h2).2
  · exact h.kstack_inj (update_none_some h1).2 (update_none_some h2).2
  · rw [update_of_ne (h.nobody hk hp), h.kern hk]
  · ext x
    constructor
    · rintro ⟨p1, q1, h1, rfl⟩
      obtain ⟨hne, h1⟩ := update_none_some h1
      exact ⟨⟨p1, q1, h1, rfl⟩, fun e => hne (h.kstack_inj h1 hp e)⟩
    · rintro ⟨⟨p1, q1, h1, rfl⟩, hne⟩
      exact ⟨p1, q1, hforth h1 (fun e => hne (by rw [e]; rfl)), rfl⟩

omit [Link] in
theorem Booked.add (h : Booked k proc live) (hp : proc p = none) (hd : live q.pgdir = false)
    (hks : q.kstack ∉ Sys.kstacks ⟨proc, v⟩) (hsz : q.sz < kernbase) :
    Booked k (update proc p (some q)) (update live q.pgdir true) ∧
      Sys.kstacks ⟨update proc p (some q), v⟩ = insert q.kstack (Sys.kstacks ⟨proc, v⟩) := by
  have hold : ∀ {p1 q1}, proc p1 = some q1 → update proc p (some q) p1 = some q1 := by
    intro p1 q1 h1
    rwa [update_of_ne]
    rintro rfl
    rw [hp] at h1
    cases h1
  refine ⟨⟨fun h1 => ?_, fun {d} hd1 => ?_, inj_update_some h.pgdir_inj fun _ h1 => h.pgdir_ne h1 hd,
    inj_update_some h.kstack_inj ?_, fun h1 => ?_, fun hk => ?_, fun hk h1 => ?_⟩, ?_⟩
  · rcases of_update_some h1 with ⟨-, rfl⟩ | ⟨-, h1⟩
    · exact update_self ..
    · rw [update_of_ne (h.pgdir_ne h1 hd), h.live h1]
  · by_cases e : d = q.pgdir
    · exact .inr ⟨p, q, update_self .., e.symm⟩
    rw [update_of_ne e] at hd1
    refine (h.dirs hd1).imp_right ?_
    rintro ⟨p1, q1, h1, rfl⟩
    exact ⟨p1, q1, hold h1, rfl⟩
  · exact fun _ h1 e => hks ⟨_, _, h1, e⟩
  · rcases of_update_some h1 with ⟨-, rfl⟩ | ⟨-, h1⟩
    · exact hsz
    · exact h.size h1
  · rw [update_of_ne (h.kern_ne hk hd), h.kern hk]
  · rcases of_update_some h1 with ⟨-, rfl⟩ | ⟨-, h1⟩
    · exact h.kern_ne hk hd
    · exact h.nobody hk h1
  · ext x
    constructor
    · rintro ⟨p1, q1, h1, rfl⟩
      rcases of_update_some h1 with ⟨-, rfl⟩ | ⟨-, h1⟩
      · exact .inl rfl
      · exact .inr ⟨p1, q1, h1, rfl⟩
    · rintro (rfl | ⟨p1, q1, h1, rfl⟩)
      · exact ⟨p, q, update_self .., rfl⟩
      · exact ⟨p1, q1, hold h1, rfl⟩

omit [Link] in
theorem mem_kstacks (hp : proc p = some q) : q.kstack ∈ Sys.kstacks ⟨proc, v⟩ := ⟨p, q, hp, rfl⟩

omit [Link] in
/-- A process that keeps its kernel stack: its slot is emptied and filled again. -/
theorem Booked.replace (h : Booked k proc live) (hp : proc p = some q) {r : Proc}
    (hd : update live q.pgdir false r.pgdir = false) (hk : r.kstack = q.kstack)
    (hsz : r.sz < kernbase) :
    Booked k (update proc p (some r)) (update (update live q.pgdir false) r.pgdir true) ∧
      Sys.kstacks ⟨update proc p (some r), v⟩ = Sys.kstacks ⟨proc, v⟩ := by
  obtain ⟨h1, hks⟩ := h.remove (v := v) hp
  have hout : r.kstack ∉ Sys.kstacks ⟨update proc p none, v⟩ := by
    rw [hks, hk]
    exact fun hm => hm.2 rfl
  have h2 := h1.add (update_self ..) hd hout hsz
  rwa [update_idem, hks, hk, Set.insert_sdiff_singleton, Set.insert_eq_of_mem (mem_kstacks hp)] at h2

end Slots

variable {v : Vm}

theorem KernInv.setVm (h : KernInv k s) (hI : ∃ L, Inv frames s.kstacks L v)
    (hl : v.live = s.vm.live) (ho : ∀ {d}, k = some d → v.upage d = s.vm.upage d) :
    KernInv k { s with vm := v } :=
  Booked.kernInv (hl ▸ h.booked) hI fun hk v' => (congrFun (ho hk) v').trans (h.empty hk v')

theorem KernInv.setProc (h : KernInv k s) (hp : s.proc p = some q) {q' : Proc}
    (hd : q'.pgdir = q.pgdir) (hk : q'.kstack = q.kstack) (hsz : q'.sz < kernbase) :
    KernInv k { s with proc := update s.proc p (some q') } := by
  obtain ⟨hb, hks⟩ := h.booked.replace (v := s.vm) hp (by rw [hd, update_self]) hk hsz
  rw [hd, update_idem, ← h.live hp, update_eq_self] at hb
  exact hb.kernInv (hks ▸ h.inv) h.empty

theorem KernInv.addProc (h : KernInv k s) {c : Fin nproc} (hc : s.proc c = none) {d ks sz : ℕ}
    (hd : s.vm.live d = false) (hks : ks ∉ s.kstacks) (hsz : sz < kernbase)
    (hI : ∃ L, Inv frames (insert ks s.kstacks) L v) (hl : v.live = update s.vm.live d true)
    (ho : ∀ {d}, k = some d → v.upage d = s.vm.upage d) :
    KernInv k { proc := update s.proc c (some ⟨d, sz, ks, false⟩), vm := v } := by
  obtain ⟨hb, hks⟩ := h.booked.add (v := v) (q := ⟨d, sz, ks, false⟩) hc hd hks hsz
  exact Booked.kernInv (hl ▸ hb) (hks ▸ hI) fun hk v' => (congrFun (ho hk) v').trans (h.empty hk v')

theorem KernInv.removeProc (h : KernInv k s) (hp : s.proc p = some q)
    (hI : ∃ L, Inv frames (s.kstacks \ {q.kstack}) L v)
    (hl : v.live = update s.vm.live q.pgdir false) (ho : Others q.pgdir s.vm v) :
    KernInv k { proc := update s.proc p none, vm := v } := by
  obtain ⟨hb, hks⟩ := h.booked.remove (v := v) hp
  refine Booked.kernInv (hl ▸ hb) (hks ▸ hI) fun hk v' => ?_
  exact (congrFun (ho _ (h.nobody hk hp)) v').trans (h.empty hk v')

/-! ## What the operations do -/

omit [Link] in
theorem Inv.unhold {A H L : Set ℕ} {f : ℕ} (h : Inv A (insert f H) L v) (hf : f ∉ H) :
    Inv A H L (v.freed f) ∧ Quiet v (v.freed f) := by
  obtain ⟨hwf, hloose⟩ := h.letGo hf
  refine ⟨⟨?_, h.inj, h.small, h.bound, h.exact⟩, rfl, rfl, view_freed h.upage_insert_ne⟩
  have := hwf.push hloose
  simp only [Vm.pool] at this ⊢
  rwa [owner_congr (t := v.freed f) (s := v) rfl rfl rfl]

theorem kfree_stops {f : ℕ} {Q : Unit → Vm → Prop} {E : String → Vm → Prop}
    (h : Q () (v.freed f)) (hE : ∀ e v, E e v) : wp (kfree f) Q E v := by
  unfold kfree
  rw [wp_ite]
  split_ifs
  · exact hE _ _
  · exact h

/-- The effect of `fork`. -/
inductive Forked (q : Proc) (s t : Sys) : Option (Fin nproc) → Prop
  | failed (hproc : t.proc = s.proc) (hview : t.vm.view = s.vm.view) : Forked q s t none
  | child {c : Fin nproc} {q' : Proc} (hc : s.proc c = none)
      (hproc : t.proc = update s.proc c (some q')) (hsz : q'.sz = q.sz)
      (hchild : ∀ v, t.view q' v = none ∨ t.view q' v = s.view q v)
      (hview : ∀ {p₁ q₁}, s.proc p₁ = some q₁ → t.view q₁ = s.view q₁) : Forked q s t (some c)

theorem fork_spec (h : KernInv k s) (hp : s.proc p = some q) :
    wp (fork q) (fun r t => KernInv k t ∧ Forked q s t r) Stops s := by
  obtain ⟨L, hI⟩ := h.inv
  simp only [fork, wp_run]
  rcases hc : s.unused with _ | c
  · exact ⟨h, .failed rfl rfl⟩
  have hcn : s.proc c = none := by
    have := List.find?_some hc
    simpa using this
  simp only [wp_bind, wp_onVm]
  refine wp_lax (kalloc_spec hI) ?_
  rintro (_ | ks) v ⟨hg, -, hI1⟩
  · exact ⟨h.setVm ⟨L, hI1⟩ hg.live fun _ => by rw [hg.quiet.upage], .failed rfl hg.quiet.view⟩
  obtain ⟨hks, hI1⟩ := hI1
  have hud : v.userDirs.ncard < 127 := by
    have : v.userDirs = s.vm.userDirs := by
      unfold Vm.userDirs
      rw [hg.quiet.upage]
    rw [this]
    exact h.userDirs_lt
  simp only [wp_bind, wp_onVm]
  refine wp_lax (copyuvm_spec (h.size hp).le hI1 (by rw [hg.live]; exact h.live hp) hud) ?_
  rintro (_ | d) v2 ⟨hI2, ho, hr⟩ <;>
    have hkern : ∀ {d'}, k = some d' → v2.upage d' = s.vm.upage d' := fun hk => by
      rw [ho _ (h.nobody hk hp) (by rw [hg.live, h.kern hk]), hg.quiet.upage]
  · simp only [wp_bind, wp_onVm]
    refine kfree_stops ?_ (fun _ _ => trivial)
    obtain ⟨hI3, hq3⟩ := hI2.unhold hks
    refine ⟨h.setVm ⟨L, hI3⟩ ?_ fun hk => ?_, .failed rfl ?_⟩
    · rw [hq3.live, hr.1, hg.live]
    · rw [hq3.upage, hkern hk]
    · rw [hq3.view, hr.2, hg.quiet.view]
  · obtain ⟨hfresh, hlive, hchild, hview, -⟩ := hr
    have hne {p1 q1} (h1 : s.proc p1 = some q1) := h.booked.pgdir_ne h1 (hg.live ▸ hfresh)
    refine ⟨h.addProc hcn (by rw [← hg.live]; exact hfresh) hks (h.size hp) ⟨L, hI2⟩
      (by rw [hlive, hg.live]) hkern, .child hcn rfl rfl (fun v' => ?_) (fun {p1 q1} h1 => ?_)⟩
    · have := hchild v'
      rwa [hg.quiet.view] at this
    funext v'
    show v2.view _ v' = _
    rw [hview _ _ (hne h1), hg.quiet.view]
    rfl

omit [Link] in
theorem between_of_grew {sz sz' v : ℕ} (hsz : sz < kernbase) (hv : pgroundup sz ≤ v)
    (hlt : v * pgsize < sz') : Between sz sz' v := by
  have hle : sz ≤ sz' := by
    simp only [pgroundup, pgsize, word, kernbase] at *
    omega
  exact ⟨by rwa [Nat.min_eq_left hle], by rwa [Nat.max_eq_right hle]⟩

/-- The effect of `sbrk(n)`. -/
structure Resized (p : Fin nproc) (q : Proc) (n : ℤ) (s t : Sys) (r : Bool) : Prop where
  proc : t.proc = if r then update s.proc p (some { q with
    sz := if 0 < n then max q.sz (addSize q.sz n) else min q.sz (addSize q.sz n) }) else s.proc
  view : ∀ d v, t.vm.view d v = s.vm.view d v ∨ d = q.pgdir ∧ Between q.sz (addSize q.sz n) v ∧
    (t.vm.view d v = none ∨ 0 < n ∧ t.vm.view d v = some fun _ => 0)

theorem growproc_end (h : KernInv k s) (hp : s.proc p = some q) {n : ℤ} {sz : ℕ}
    (hI : ∃ L, Inv frames s.kstacks L v) (hl : v.live = s.vm.live) (ho : Others q.pgdir s.vm v)
    (hview : ∀ d v', v.view d v' = s.vm.view d v' ∨ d = q.pgdir ∧
      Between q.sz (addSize q.sz n) v' ∧ (v.view d v' = none ∨ 0 < n ∧ v.view d v' = some fun _ => 0))
    (hsz : n ≠ 0 ∧ sz = 0 ∨ sz < kernbase ∧
      sz = if 0 < n then max q.sz (addSize q.sz n) else min q.sz (addSize q.sz n)) :
    wp (if n ≠ 0 ∧ sz = 0 then pure false else do
        setProc p (some { q with sz })
        pure true) (fun r t => KernInv k t ∧ Resized p q n s t r) Stops { s with vm := v } := by
  have hs := h.setVm hI hl fun hk => ho _ (h.nobody hk hp)
  split_ifs with hc
  · exact ⟨hs, rfl, hview⟩
  · obtain ⟨hlt, rfl⟩ := hsz.resolve_left hc
    exact ⟨hs.setProc hp rfl rfl hlt, by simp, hview⟩

theorem growproc_spec (h : KernInv k s) (hp : s.proc p = some q) (n : ℤ) :
    wp (growproc p q n) (fun r t => KernInv k t ∧ Resized p q n s t r) Stops s := by
  obtain ⟨L, hI⟩ := h.inv
  have hq := h.size hp
  rw [growproc]
  split_ifs with h1 h2
  · rw [wp_bind, wp_onVm]
    refine wp_lax (allocuvm_spec hI (h.live hp)) ?_
    rintro sz v ⟨hsz, hI', hG⟩
    refine growproc_end h hp hI' hG.live hG.others (fun d v' => ?_) ?_
    · rcases hG.page d v' with hv | ⟨hd, hle, hlt, hv⟩
      · exact .inl hv
      refine .inr ⟨hd, between_of_grew hq hle hlt, ?_⟩
      rcases hv with hv | hv
      · exact .inl hv
      · exact .inr ⟨h1, hv⟩
    · rcases hsz with rfl | ⟨hk, rfl⟩
      · exact .inl ⟨by omega, rfl⟩
      · rw [if_pos h1]
        exact .inr ⟨by omega, rfl⟩
  · rw [wp_bind, wp_onVm]
    refine wp_lax (deallocuvm_spec hq.le hI) ?_
    rintro sz v ⟨rfl, hI', hS⟩
    refine growproc_end h hp ⟨L, hI'⟩ hS.live hS.others (fun d v' => ?_) ?_
    · rcases hS.page d v' with ⟨-, hv⟩ | ⟨hd, hle, hlt, -, hv⟩
      · exact .inl hv
      · exact .inr ⟨hd, ⟨hle, lt_of_lt_of_le hlt (le_max_left ..)⟩, .inl hv⟩
    · rw [if_neg h1]
      exact .inr ⟨by omega, rfl⟩
  · have hn : n = 0 := by omega
    have hadd : addSize q.sz 0 = q.sz := by
      simp only [addSize, word, kernbase] at *
      omega
    rw [wp_bind, wp_pure]
    refine growproc_end h hp ⟨L, hI⟩ rfl (.of_upage rfl) (fun _ _ => .inl rfl) (.inr ⟨hq, ?_⟩)
    rw [if_neg h1, hn, hadd, min_self]

/-! ### Stores and loads -/

omit [Link] in
theorem upage_of_writable {d va : ℕ} {user : Bool} (h : v.writable d va user = true) :
    v.upage d (va / pgsize) = some ((v.pte d (va / pgsize)).frame, true) := by
  simp only [Vm.writable, Bool.and_eq_true, decide_eq_true_eq] at h
  obtain ⟨⟨⟨hva, hp⟩, hw⟩, -⟩ := h
  have hk : va / pgsize < kernpage := by
    simp only [pgsize, kernpage, kernbase] at *
    omega
  simp [Vm.upage, hk, hp, hw]

omit [Link] in
/-- A byte written through a writable entry is seen through no other. -/
theorem writeByte_view {A H L : Set ℕ} {d va : ℕ} {b : UInt8} (h : Inv A H L v)
    (hu : v.upage d (va / pgsize) = some ((v.pte d (va / pgsize)).frame, true)) (d' v' : ℕ) :
    (v.setMem (v.pte d (va / pgsize)).frame
      (Page.write (v.mem (v.pte d (va / pgsize)).frame) (va % pgsize) b)).view d' v' =
      if d' = d ∧ v' = va / pgsize then (v.view d' v').map fun pg => Page.write pg (va % pgsize) b
      else v.view d' v' := by
  split_ifs with hc
  · obtain ⟨rfl, rfl⟩ := hc
    rw [view_setMem_self hu]
    obtain ⟨hk, hp, -, -⟩ := upage_eq_some hu
    by_cases huu : (v.pte d' (va / pgsize)).u = true
    · simp [Vm.view, hk, hp, huu]
    · simp [Vm.view, huu]
  · refine view_setMem_apply (fun b' hb' => hc ?_) _
    have := h.wf.alone (u := Use.page d (va / pgsize)) (v := Use.page d' v') hu hb'
    simpa using this

/-- The effect of a store. -/
inductive StoreEffect (p : Fin nproc) (q : Proc) (va : ℕ) (b : UInt8) (s t : Sys) : Stored → Prop
  | stored (hproc : t.proc = s.proc)
      (hview : ∀ d v, t.vm.view d v = if d = q.pgdir ∧ v = va / pgsize then
        (s.vm.view d v).map fun pg => Page.write pg (va % pgsize) b else s.vm.view d v) :
      StoreEffect p q va b s t .stored
  | killed (hproc : t.proc = update s.proc p (some { q with killed := true }))
      (hview : t.vm.view = s.vm.view) : StoreEffect p q va b s t .killed

theorem store_spec (h : KernInv k s) (hp : s.proc p = some q) (user : Bool) (va : ℕ) (b : UInt8) :
    wp (store p q user va b) (fun r t => KernInv k t ∧ StoreEffect p q va b s t r) Stops s := by
  obtain ⟨L, hI⟩ := h.inv
  simp only [store, wp_run, wp_onVm, writeByte]
  split_ifs with hw
  · exact ⟨h.setVm ⟨L, hI.setMem _ _⟩ rfl fun _ => rfl, .stored rfl
      (writeByte_view hI (upage_of_writable hw))⟩
  refine wp_lax (pagefault_spec hI) ?_
  rintro r v ⟨hI', hF⟩
  have ho : ∀ {d}, k = some d → v.upage d = s.vm.upage d := fun hk => hF.others _ (h.nobody hk hp)
  have hs := h.setVm ⟨L, hI'⟩ hF.live ho
  cases r with
  | killed =>
    exact ⟨hs.setProc hp rfl rfl (show q.sz < kernbase from h.size hp), .killed rfl hF.view⟩
  | handled =>
    simp only [wp_run, wp_onVm]
    split_ifs with hw'
    · refine ⟨h.setVm ⟨L, hI'.setMem _ _⟩ hF.live ho, .stored rfl fun d v' => ?_⟩
      show Vm.view (v.setMem _ _) d v' = _
      rw [writeByte_view hI' (upage_of_writable hw'), hF.view]
    · trivial

/-- The effect of a load. -/
inductive LoadEffect (p : Fin nproc) (q : Proc) (va : ℕ) (s t : Sys) : Option UInt8 → Prop
  | byte (pg : Page) (hst : t = s) (hpg : s.view q (va / pgsize) = some pg) :
      LoadEffect p q va s t (some (pg (va % pgsize)))
  | killed (hproc : t.proc = update s.proc p (some { q with killed := true }))
      (hview : t.vm.view = s.vm.view) : LoadEffect p q va s t none

theorem load_spec (h : KernInv k s) (hp : s.proc p = some q) (va : ℕ) :
    wp (load p q va) (fun r t => KernInv k t ∧ LoadEffect p q va s t r) Stops s := by
  obtain ⟨L, hI⟩ := h.inv
  simp only [load, wp_run, wp_onVm]
  split_ifs with hr
  · simp only [Bool.and_eq_true, decide_eq_true_eq] at hr
    obtain ⟨⟨hva, hpp⟩, hu⟩ := hr
    have hk : va / pgsize < kernpage := by
      simp only [pgsize, kernpage, kernbase] at *
      omega
    refine ⟨h, .byte (s.vm.mem (s.vm.pte q.pgdir (va / pgsize)).frame) rfl ?_⟩
    simp [Sys.view, Vm.view, hk, hpp, hu]
  · refine wp_lax (pagefault_spec hI) ?_
    rintro r v ⟨hI', hF⟩
    cases r with
    | killed =>
      have hs := h.setVm ⟨L, hI'⟩ hF.live fun hk => hF.others _ (h.nobody hk hp)
      exact ⟨hs.setProc hp rfl rfl (show q.sz < kernbase from h.size hp), .killed rfl hF.view⟩
    | handled => trivial

/-! ### Exit -/

theorem exitWait_spec (h : KernInv k s) (hp : s.proc p = some q) :
    wp (exitWait p q) (fun _ t => KernInv k t ∧ t.proc = update s.proc p none ∧
      ∀ {p1 q1}, p1 ≠ p → s.proc p1 = some q1 → t.view q1 = s.view q1) Stops s := by
  obtain ⟨L, hI⟩ := h.inv
  simp only [exitWait, wp_run, wp_onVm]
  split_ifs
  · trivial
  refine kfree_stops ?_ (fun _ _ => trivial)
  have hins : insert q.kstack (s.kstacks \ {q.kstack}) = s.kstacks := by
    rw [Set.insert_sdiff_singleton, Set.insert_eq_of_mem (mem_kstacks hp)]
  rw [← hins] at hI
  obtain ⟨hI1, hq1⟩ := hI.unhold (by simp)
  refine wp_lax (freevm_spec hI1 (by rw [hq1.live]; exact h.live hp)) ?_
  rintro _ v ⟨hI2, hF⟩
  refine ⟨h.removeProc hp ⟨L, hI2⟩ (by rw [hF.live, hq1.live])
    ((Others.of_upage hq1.upage).trans hF.others), rfl, fun {p1 q1} hne h1 => ?_⟩
  funext v'
  show v.view _ v' = _
  rw [(hF.page _ v' (fun e => hne (h.pgdir_inj h1 hp e))).2, hq1.view]
  rfl

theorem KernInv.shuffle (h : KernInv k s) {fl : List ℕ} {oom : List Bool}
    (hp : fl.Perm s.vm.freelist) : KernInv k { s with vm := { s.vm with freelist := fl, oom } } := by
  obtain ⟨L, hI⟩ := h.inv
  refine h.setVm ⟨L, ?_, hI.inj, hI.small, hI.bound, hI.exact⟩ rfl fun _ => rfl
  have := hI.wf.perm (show fl.Perm (s.vm.pool s.kstacks L).free from hp)
  simp only [Vm.pool] at this ⊢
  rwa [owner_congr (t := { s.vm with freelist := fl, oom }) (s := s.vm) rfl rfl rfl]

/-! ## Simulation -/

/-- What a process can read is in its pages in the reference. -/
def Rel (s : Sys) (m : Spaces) : Prop :=
  ∀ {p q}, s.proc p = some q → ∃ a, m p = some a ∧ a.sz = q.sz ∧
    ∀ v pg, s.view q v = some pg → a.page v = some pg

variable {m : Spaces}

omit [Link] in
theorem Rel.kill (h : Rel s m) (hp : s.proc p = some q)
    (hproc : t.proc = update s.proc p (some { q with killed := true }))
    (hview : t.vm.view = s.vm.view) : Rel t m := by
  intro p1 q1 h1
  rw [hproc] at h1
  rcases of_update_some h1 with ⟨rfl, rfl⟩ | ⟨-, h1⟩
  · obtain ⟨a, ha, hsz, hpage⟩ := h hp
    refine ⟨a, ha, hsz, fun v pg hv => hpage v pg ?_⟩
    rw [← hv]
    simp [Sys.view, hview]
  · obtain ⟨a, ha, hsz, hpage⟩ := h h1
    refine ⟨a, ha, hsz, fun v pg hv => hpage v pg ?_⟩
    rw [← hv]
    simp [Sys.view, hview]

omit [Link] in
theorem sim_fork {r : Option (Fin nproc)} (hR : Rel s m) (hp : s.proc p = some q)
    (hF : Forked q s t r) : ∃ m', EagerStep m (.fork p, .child r) m' ∧ Rel t m' := by
  cases hF with
  | failed hproc hview =>
    refine ⟨m, .forkFailed, fun {p1 q1} h1 => ?_⟩
    rw [hproc] at h1
    obtain ⟨a, ha, hsz, hpage⟩ := hR h1
    refine ⟨a, ha, hsz, fun v pg hv => hpage v pg ?_⟩
    rw [← hv]
    simp [Sys.view, hview]
  | @child c q' hc hproc hsz hchild hview =>
    obtain ⟨a, ha, hasz, hpage⟩ := hR hp
    refine ⟨_, .fork ha, fun {p1 q1} h1 => ?_⟩
    rw [hproc] at h1
    rcases of_update_some h1 with ⟨rfl, rfl⟩ | ⟨e, h1⟩
    · refine ⟨a, update_self .., by rw [hasz, hsz], fun v pg hv => hpage v pg ?_⟩
      rcases hchild v with hn | hn
      · rw [hn] at hv
        cases hv
      · rw [← hn, hv]
    · obtain ⟨a', ha', hsz', hpage'⟩ := hR h1
      refine ⟨a', by rwa [update_of_ne e], hsz', fun v pg hv => hpage' v pg ?_⟩
      rw [← hview h1, hv]

omit [Link] in
theorem Rel.update (h : Rel s m) (q' : Proc) (a' : Space)
    (hproc : t.proc = update s.proc p (some q')) (hsz : a'.sz = q'.sz)
    (hown : ∀ v pg, t.view q' v = some pg → a'.page v = some pg)
    (hother : ∀ {p1 q1}, p1 ≠ p → s.proc p1 = some q1 → t.view q1 = s.view q1) :
    Rel t (update m p (some a')) := by
  intro p1 q1 h1
  rw [hproc] at h1
  rcases of_update_some h1 with ⟨rfl, rfl⟩ | ⟨e, h1⟩
  · exact ⟨a', update_self .., hsz, hown⟩
  · obtain ⟨a, ha, hasz, hpage⟩ := h h1
    refine ⟨a, by rwa [update_of_ne e], hasz, fun v pg hv => hpage v pg ?_⟩
    rw [← hother e h1, hv]

open scoped Classical in
/-- The pages after `sbrk`: those that changed are what the process can now read. -/
noncomputable def resizedPage (a : Space) (q : Proc) (s t : Sys) (v : ℕ) : Option Page :=
  if t.view q v = s.view q v then a.page v else t.view q v

omit [Link] in
theorem resizedPage_cases {a : Space} {n : ℤ} {r : Bool} (h : Resized p q n s t r) (v : ℕ) :
    resizedPage a q s t v = a.page v ∨ Between q.sz (addSize q.sz n) v ∧
      (resizedPage a q s t v = none ∨ 0 < n ∧ resizedPage a q s t v = some fun _ => 0) := by
  unfold resizedPage
  split_ifs with hc
  · exact .inl rfl
  · exact .inr ((h.view q.pgdir v).resolve_left hc).2

omit [Link] in
theorem resizedPage_own {a : Space} (hpage : ∀ v pg, s.view q v = some pg → a.page v = some pg)
    (v : ℕ) (pg : Page) (hv : t.view q v = some pg) : resizedPage a q s t v = some pg := by
  unfold resizedPage
  split_ifs with hc
  · exact hpage v pg (hc ▸ hv)
  · exact hv

theorem sim_sbrk {n : ℤ} {r : Bool} (h : SysInv k s) (hR : Rel s m)
    (hp : s.proc p = some q) (hS : Resized p q n s t r) :
    ∃ m', EagerStep m (.sbrk p n, .ok r) m' ∧ Rel t m' := by
  obtain ⟨a, ha, hasz, hpage⟩ := hR hp
  have hcases := resizedPage_cases (a := a) hS
  rw [← hasz] at hcases
  have hown := resizedPage_own (t := t) hpage
  have hother : ∀ {p1 q1}, p1 ≠ p → s.proc p1 = some q1 → t.view q1 = s.view q1 := by
    intro p1 q1 hne h1
    funext v
    rcases hS.view q1.pgdir v with hv | ⟨hd, -⟩
    · exact hv
    · exact absurd (h.pgdir_inj h1 hp hd) hne
  have hproc := hS.proc
  cases r with
  | false =>
    refine ⟨update m p (some ⟨resizedPage a q s t, a.sz⟩), .sbrkFailed ha fun v => ?_,
      hR.update q ⟨resizedPage a q s t, a.sz⟩ ?_ hasz hown hother⟩
    · rcases hcases v with hv | ⟨hb, hv⟩
      · exact .inl hv
      · exact .inr ⟨hb, hv.imp_right And.right⟩
    · rw [update_eq_self_iff.2 hp.symm]
      simpa using hproc
  | true =>
    by_cases hn : 0 < n
    · refine ⟨update m p (some ⟨resizedPage a q s t, _⟩), .grown ha hn fun v => ?_,
        hR.update _ ⟨resizedPage a q s t, _⟩ hproc ?_ (fun v pg hv => hown v pg hv) hother⟩
      · rcases hcases v with hv | ⟨hb, hv⟩
        · exact .inl hv
        · exact .inr ⟨hb, hv.imp_right And.right⟩
      · simp [hn, hasz]
    · refine ⟨update m p (some ⟨resizedPage a q s t, _⟩),
        .shrunk ha (by omega) fun v => ?_, hR.update _ ⟨resizedPage a q s t, _⟩ hproc ?_
          (fun v pg hv => hown v pg hv) hother⟩
      · rcases hcases v with hv | ⟨hb, hv | hv⟩
        · exact .inl hv
        · exact .inr ⟨hb, hv⟩
        · exact absurd hv.1 hn
      · simp [hn, hasz]

theorem sim_store {user : Bool} {va : ℕ} {b : UInt8} {r : Stored} (h : SysInv k s)
    (hR : Rel s m) (hp : s.proc p = some q) (hS : StoreEffect p q va b s t r) :
    ∃ m', EagerStep m (.store p user va b, .stored r) m' ∧ Rel t m' := by
  cases hS with
  | killed hproc hview => exact ⟨m, .killed, hR.kill hp hproc hview⟩
  | stored hproc hview =>
    obtain ⟨a, ha, hasz, hpage⟩ := hR hp
    refine ⟨_, .stored ha, hR.update q (a.store va b) ?_ hasz (fun v pg hv => ?_)
      (fun {p1 q1} hne h1 => ?_)⟩
    · rw [hproc, update_eq_self_iff.2 hp.symm]
    · have hv' := hview q.pgdir v
      have hv0 : t.vm.view q.pgdir v = some pg := hv
      rw [hv0] at hv'
      by_cases hc : v = va / pgsize
      · rw [if_pos ⟨rfl, hc⟩] at hv'
        obtain ⟨pg0, hpg0, rfl⟩ := Option.map_eq_some_iff.1 hv'.symm
        subst hc
        simp [Space.store, hpage _ _ hpg0]
      · rw [if_neg (fun hc' => hc hc'.2)] at hv'
        simp only [Space.store, update_of_ne hc]
        exact hpage v pg hv'.symm
    · funext v
      show t.vm.view _ v = _
      rw [hview, if_neg (fun hc => hne (h.pgdir_inj h1 hp hc.1))]
      rfl

omit [Link] in
theorem sim_load {va : ℕ} {r : Option UInt8} (hR : Rel s m)
    (hp : s.proc p = some q) (hL : LoadEffect p q va s t r) :
    ∃ m', EagerStep m (.load p va, .byte r) m' ∧ Rel t m' := by
  cases hL with
  | killed hproc hview => exact ⟨m, .loadKilled, hR.kill hp hproc hview⟩
  | byte pg hst hpg =>
    subst hst
    obtain ⟨a, ha, -, hpage⟩ := hR hp
    exact ⟨m, .load ha (hpage _ _ hpg) rfl, hR⟩

/-- Every step keeps the invariant and is matched by a step of the reference. -/
theorem sim_step {l : SysOp × SysRes} (h : KernInv k s) (hR : Rel s m)
    (hs : SysStep s l t) : KernInv k t ∧ ∃ m', EagerStep m l m' ∧ Rel t m' := by
  cases hs with
  | fork hp hrun =>
    obtain ⟨ht, hF⟩ := wp_ok (fork_spec h hp) hrun
    exact ⟨ht, sim_fork hR hp hF⟩
  | sbrk hp hrun =>
    obtain ⟨ht, hS⟩ := wp_ok (growproc_spec h hp _) hrun
    exact ⟨ht, sim_sbrk h.toSysInv hR hp hS⟩
  | store hp hrun =>
    obtain ⟨ht, hS⟩ := wp_ok (store_spec h hp _ _ _) hrun
    exact ⟨ht, sim_store h.toSysInv hR hp hS⟩
  | load hp hrun =>
    obtain ⟨ht, hL⟩ := wp_ok (load_spec h hp _) hrun
    exact ⟨ht, sim_load hR hp hL⟩
  | exitWait hp hrun =>
    obtain ⟨ht, hproc, hview⟩ := wp_ok (exitWait_spec h hp) hrun
    refine ⟨ht, _, .exitWait, fun {p1 q1} h1 => ?_⟩
    rw [hproc] at h1
    rename_i p _
    have hne : p1 ≠ p := by
      rintro rfl
      simp at h1
    rw [update_of_ne hne] at h1
    obtain ⟨a, ha, hasz, hpage⟩ := hR h1
    refine ⟨a, by rwa [update_of_ne hne], hasz, fun v pg hv => hpage v pg ?_⟩
    rw [← hview hne h1, hv]
  | shuffle hp => exact ⟨h.shuffle hp, m, .shuffle, fun h1 => hR h1⟩

theorem sim_run {ls : List (SysOp × SysRes)} (hrun : Run SysStep s ls t) : ∀ {m : Spaces},
    KernInv k s → Rel s m → KernInv k t ∧ ∃ m', Run EagerStep m ls m' ∧ Rel t m' := by
  induction hrun with
  | nil s => exact fun h hR => ⟨h, _, .nil _, hR⟩
  | cons head _ ih =>
    intro m h hR
    obtain ⟨h1, m1, hm1, hR1⟩ := sim_step h hR head
    obtain ⟨h2, m2, hm2, hR2⟩ := ih h1 hR1
    exact ⟨h2, m2, .cons hm1 hm2, hR2⟩

/-- An operation of process `p` that ran out of memory, or whose access was refused. -/
def Fails (p : Fin nproc) : SysOp × SysRes → Prop
  | (.fork p', .child none) | (.sbrk p' _, .ok false) | (.store p' _ _ _, .stored .killed)
  | (.load p' _, .byte none) => p' = p
  | _ => False

/-- A failed operation changes nothing for any other process. -/
theorem fails_keeps {l : SysOp × SysRes} {p1 : Fin nproc} {q1 : Proc} (h : KernInv k s)
    (hs : SysStep s l t) (hl : Fails p l) (hne : p1 ≠ p) (h1 : s.proc p1 = some q1) :
    t.proc p1 = some q1 ∧ t.view q1 = s.view q1 := by
  cases hs with
  | @fork _ p' q' r hp hrun =>
    obtain ⟨-, hF⟩ := wp_ok (fork_spec h hp) hrun
    cases hF with
    | failed hproc hview => exact ⟨by rw [hproc, h1], by unfold Sys.view; rw [hview]⟩
    | child => exact hl.elim
  | @sbrk _ p' q' n r hp hrun =>
    cases r with
    | true => exact hl.elim
    | false =>
      obtain rfl : p' = p := hl
      obtain ⟨-, hS⟩ := wp_ok (growproc_spec h hp _) hrun
      refine ⟨by rw [hS.proc]; simpa using h1, ?_⟩
      funext v
      rcases hS.view q1.pgdir v with hv | ⟨hd, -⟩
      · exact hv
      · exact absurd (h.pgdir_inj h1 hp hd) hne
  | @store _ p' q' user va b r hp hrun =>
    obtain ⟨-, hS⟩ := wp_ok (store_spec h hp _ _ _) hrun
    cases hS with
    | stored => exact hl.elim
    | killed hproc hview =>
      obtain rfl : p' = p := hl
      exact ⟨by rw [hproc, update_of_ne hne, h1], by unfold Sys.view; rw [hview]⟩
  | @load _ p' q' va r hp hrun =>
    obtain ⟨-, hL⟩ := wp_ok (load_spec h hp _) hrun
    cases hL with
    | byte => exact hl.elim
    | killed hproc hview =>
      obtain rfl : p' = p := hl
      exact ⟨by rw [hproc, update_of_ne hne, h1], by unfold Sys.view; rw [hview]⟩
  | exitWait => exact hl.elim
  | shuffle => exact hl.elim

/-- The machine after `main` has called `userinit`. -/
def BootsTo (k : Option ℕ) (s0 : Sys) : Prop :=
  ∃ v0 init n, mainInit Vm.start = .ok k v0 ∧ n < pgsize ∧
    userinit init n ⟨fun _ => none, v0⟩ = .ok () s0

end Link

variable {k : Option ℕ}

theorem userinit_spec [Link] {v0 : Vm} (hI : Inv frames ∅ ∅ v0) (hb : Booted k v0)
    (init : ℕ → UInt8) (n : ℕ) :
    wp (userinit init n) (fun _ t => KernInv k t) Stops ⟨fun _ => none, v0⟩ := by
  have hks0 : Sys.kstacks ⟨fun _ => none, v0⟩ = ∅ := by
    ext x
    simp [Sys.kstacks]
  have h0 : KernInv k ⟨fun _ => none, v0⟩ := by
    refine ⟨⟨⟨∅, by rwa [hks0]⟩, fun h => ?_, fun {d} hd => .inl ((hb.live d).1 hd), fun h => ?_,
      fun h => ?_, fun h => ?_⟩, fun hk => (hb.live _).2 hk, fun _ h => ?_, fun _ =>
        hb.upage _⟩ <;> cases h
  simp only [userinit, wp_bind, wp_onVm]
  refine wp_lax (kalloc_spec hI) ?_
  rintro (_ | ks) v1 ⟨hg, -, hI1⟩
  · trivial
  obtain ⟨hks, hI1⟩ := hI1
  simp only [wp_bind, wp_onVm]
  refine wp_lax (setupkvm_spec hI1) ?_
  rintro (_ | d) v2 ⟨hI2, hm⟩
  · trivial
  have hmade : Made d v1 v2 := hm
  simp only [wp_bind, wp_onVm]
  refine wp_lax (inituvm_spec hI2 (by simp [hmade.live])) ?_
  rintro _ v3 ⟨⟨L, hI3⟩, hlive, ho⟩
  have hfresh : v0.live d = false := by rw [← hg.live, hmade.fresh]
  refine h0.addProc rfl hfresh ?_ (by decide) ⟨L, ?_⟩ ?_ fun {d'} hk => ?_
  · rw [hks0]
    exact hks
  · rw [hks0]
    exact hI3
  · rw [hlive, hmade.live, hg.live]
  · have hne : d' ≠ d := by
      rintro rfl
      rw [(hb.live d').2 hk] at hfresh
      cases hfresh
    rw [ho d' hne, hmade.upage, hg.quiet.upage]

theorem userinit_total [Link] {v0 : Vm} {m : ℕ} (hI : Inv frames ∅ ∅ v0)
    (hb : Booted k v0) (hroom : Roomy (m + 72) v0) (init : ℕ → UInt8) :
    wp (userinit init 0) (fun _ t => ∃ q f, t.proc ⟨0, by decide⟩ = some q ∧ q.sz = pgsize ∧
      t.vm.pte q.pgdir 0 = ⟨f, true, true, true⟩ ∧ Roomy m t.vm ∧
      t.proc ⟨1, by decide⟩ = none ∧ (∀ v, v ≠ 0 → t.vm.upage q.pgdir v = none) ∧
      t.vm.refcount f = 1 ∧ t.vm.mem f = fun _ => 0) (fun _ _ => False) ⟨fun _ => none, v0⟩ := by
  simp only [userinit, wp_bind, wp_onVm]
  refine wp_mono (wp_and (kalloc_spec hI) (kalloc_total (n := m + 71) hroom)) ?_
    (fun _ _ he => he.2)
  rintro _ v1 ⟨⟨hg, -, hI1⟩, ⟨ks, rfl, -⟩, hroom1, -, -⟩
  obtain ⟨-, hI1⟩ := hI1
  simp only [wp_bind, wp_onVm]
  refine wp_mono (wp_and (setupkvm_spec hI1) (setupkvm_total (m := m + 2) hroom1)) ?_
    (fun _ _ he => he.2)
  rintro _ v2 ⟨⟨hI2, hm⟩, ⟨d, rfl⟩, hroom2, -, -⟩
  have hmade : Made d v1 v2 := hm
  have hnone : ∀ v, v2.upage d v = none := fun v => by
    rw [hmade.upage, ← hb.upage d v]
    simp only [Vm.upage, hg.pte]
  simp only [wp_bind, wp_onVm]
  refine wp_imp (inituvm_total (m := m) init (show 0 < pgsize by decide) hI2
    (by simp [hmade.live]) (hnone 0) hroom2) ?_
  rintro _ v3 ⟨hroom3, hother, f, hpte, href, hmem⟩
  refine ⟨⟨d, pgsize, ks, false⟩, f, ?_, rfl, hpte, hroom3, ?_, fun v hv => ?_, href,
    by simpa using hmem⟩
  · simp
  · simp
  · rw [← hnone v]
    simp only [Vm.upage, hother d v fun hc => hv hc.2]

theorem fork_total [Link] {s : Sys} {p : Fin nproc} {q : Proc} {f : ℕ} {w : Bool}
    (h : SysInv k s) (hp : s.proc p = some q) (hsz : q.sz = pgsize)
    (hpte : s.vm.pte q.pgdir 0 = ⟨f, true, w, true⟩) (hroom : Roomy 71 s.vm)
    (hfree : s.proc ⟨1, by decide⟩ = none) :
    wp (fork q) (fun r t => (∃ c, r = some c) ∧ t.vm.pte q.pgdir 0 = ⟨f, true, false, true⟩ ∧
      t.vm.refcount f = toChar (s.vm.refcount f + 1)) (fun _ _ => False) s := by
  obtain ⟨L, hI⟩ := h.inv
  obtain ⟨c, hc⟩ : ∃ c, s.unused = some c := by
    refine Option.isSome_iff_exists.1 (List.find?_isSome.2 ⟨⟨1, by decide⟩, by simp, ?_⟩)
    simp [hfree]
  simp only [fork, wp_run, hc, wp_onVm]
  refine wp_mono (wp_and (kalloc_spec hI) (kalloc_total (n := 70) hroom)) ?_ (fun _ _ he => he.2)
  rintro _ v1 ⟨⟨hg, -, hI1⟩, ⟨ks, rfl, -⟩, hroom1, -, -⟩
  obtain ⟨-, hI1⟩ := hI1
  have hlive : v1.live q.pgdir = true := by rw [hg.live, h.live hp]
  simp only [wp_bind, wp_onVm, hsz]
  refine wp_imp (copyuvm_total (m := 0) hI1 hlive (by rw [hg.pte, hpte]) hroom1) ?_
  rintro _ v2 ⟨⟨d, rfl⟩, -, hpte2, href⟩
  exact ⟨⟨c, rfl⟩, hpte2, by rw [← hg.refcount]; exact href⟩

/-- Copy-on-write refines eager copying: from boot on, what every process reads is what it reads in a
run of the reference with the same operations and results; and an operation that fails changes
nothing for the other processes. -/
theorem cow_refines_eager [Image] {k : Option ℕ} {s0 s : Sys} {ls : List (SysOp × SysRes)}
    (hboot : BootsTo k s0) (hrun : Run SysStep s0 ls s) :
    (∃ m, Run EagerStep s0.spaces ls m ∧ ∀ p q, s.proc p = some q → ∃ a, m p = some a ∧
      ∀ va b, s.read q va = some b → a.read va = some b) ∧
    ∀ p l t, SysStep s l t → Fails p l → ∀ p1 q1, p1 ≠ p → s.proc p1 = some q1 →
      t.proc p1 = some q1 ∧ ∀ va, t.read q1 va = s.read q1 va := by
  obtain ⟨v0, init, n, hmain, -, hinit⟩ := hboot
  obtain ⟨hI0, hb0⟩ := wp_ok mainInit_spec hmain
  have h0 : KernInv k s0 := wp_ok (userinit_spec hI0 hb0 init n) hinit
  have hR0 : Rel s0 s0.spaces := by
    intro p q hp
    exact ⟨⟨s0.view q, q.sz⟩, by simp [Sys.spaces, hp], rfl, fun v pg hv => hv⟩
  obtain ⟨h, m, hm, hR⟩ := sim_run hrun h0 hR0
  refine ⟨⟨m, hm, fun p q hp => ?_⟩, fun p l t hs hl p1 q1 hne h1 => ?_⟩
  · obtain ⟨a, ha, -, hpage⟩ := hR hp
    refine ⟨a, ha, fun va b hb => ?_⟩
    obtain ⟨pg, hpg, hb⟩ := Option.map_eq_some_iff.1 hb
    simp [Space.read, hpage _ _ hpg, hb]
  · obtain ⟨hproc, hview⟩ := fails_keeps h hs hl hne h1
    exact ⟨hproc, fun va => by unfold Sys.read; rw [hview]⟩

theorem cow_refines_eager_fork : ∃ k s0 s c, BootsTo k s0 ∧
    Run SysStep s0 [(.fork ⟨0, by decide⟩, .child (some c))] s ∧
    ∃ m, Run EagerStep s0.spaces [(.fork ⟨0, by decide⟩, .child (some c))] m ∧
      ∀ p q, s.proc p = some q → ∃ a, m p = some a ∧
        ∀ va b, s.read q va = some b → a.read va = some b := by
  obtain ⟨k, v0, hmain, hI0, hb0, hroom0⟩ := boot_room
  obtain ⟨_, s0, hinit, h0, q, f, hp, hsz, hpte, hroom, hfree, -⟩ :=
    wp_returns (wp_mono (wp_and (userinit_spec hI0 hb0 (fun _ => 0) 0)
      (userinit_total (m := 71) hI0 hb0 (hroom0.mono (by omega)) _)) (fun _ _ => id)
      (fun _ _ he => he.2))
  obtain ⟨_, s, hfork, ⟨c, rfl⟩, -⟩ := wp_returns (fork_total h0.toSysInv hp hsz hpte hroom hfree)
  have hboot : BootsTo k s0 := ⟨v0, _, 0, hmain, by decide, hinit⟩
  have hrun : Run SysStep s0 [(.fork ⟨0, by decide⟩, .child (some c))] s := .one (.fork hp hfork)
  exact ⟨k, s0, s, c, hboot, hrun, (cow_refines_eager hboot hrun).1⟩

end Xv6

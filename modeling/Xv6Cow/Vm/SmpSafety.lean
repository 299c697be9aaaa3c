import Xv6Cow.Vm.Smp
import Xv6Cow.Vm.Spec

/-!
# No frame is lost while every swap is of a shared frame

The user entries, the page a process holds between two sections and the other frames are the uses
of a reference-counted pool (`Lts.Pool`).  A frame handed out for user memory is free or has a use; the
second section of `pagefault` keeps this only if some other process still maps the frame.
-/

namespace Xv6

open Function Lts Pool Prog

/-- What a frame is used for. -/
inductive SmpUse
  | page (p : Fin nproc) (v : ℕ)
  | held (p : Fin nproc)
  | other (f : ℕ)
deriving DecidableEq

/-- `pg_refcount` counts the user entries. -/
def SmpUse.counted : SmpUse → Prop
  | .page _ _ => True
  | _ => False

theorem SmpUse.counted_page (p : Fin nproc) (v : ℕ) : (SmpUse.page p v).counted := trivial

/-- Uses for user memory. -/
def SmpUse.user : SmpUse → Prop
  | .other _ => False
  | _ => True

/-! ## The pool -/

/-- The invariant of the frames. -/
structure PoolOk (user : ℕ → Bool) (P : Pool SmpUse ℕ) : Prop where
  wf : Wf SmpUse.counted Set.univ P
  same : ∀ {p v p' v' f b b'}, P.own (.page p v) = some (f, b) →
    P.own (.page p' v') = some (f, b') → v = v'
  used : ∀ {f}, user f = true → f ∈ P.free ∨ ∃ u b, u.user ∧ P.own u = some (f, b)

namespace PoolOk

variable {user : ℕ → Bool} {P : Pool SmpUse ℕ} {p c : Fin nproc} {v f m : ℕ} {fs : List ℕ}

theorem cnt_mem (h : PoolOk user P) (f : ℕ) : 0 ≤ P.cnt f ∧ P.cnt f ≤ 64 := by
  have hinj : Set.InjOn (fun u => match u with
      | .page p _ => p
      | .held p => p
      | .other _ => ⟨0, by decide⟩) (holders SmpUse.counted P.own f) := by
    rintro (⟨p, v⟩ | p | g) ⟨hc, b, hu⟩ (⟨p', v'⟩ | p' | g') ⟨hc', b', hu'⟩ e
    · obtain rfl := h.same hu hu'
      exact congrArg (SmpUse.page · v) e
    all_goals first | exact hc.elim | exact hc'.elim
  have hcard := Set.ncard_le_ncard_of_injOn _ (fun u _ => Set.mem_univ (_ : Fin nproc)) hinj
    Set.finite_univ
  have huniv : (Set.univ : Set (Fin nproc)).ncard = 64 := by simp [Set.ncard_univ, nproc]
  have hcnt := h.wf.cnt_eq f
  omega

theorem same_update (h : PoolOk user P) (hf : ∀ p' v' b, P.own (.page p' v') = some (f, b) → v' = v)
    {p' p1 : Fin nproc} {v' v1 g : ℕ} {b b1 b2 : Bool}
    (h1 : update P.own (.page p v) (some (f, b)) (.page p' v') = some (g, b1))
    (h2 : update P.own (.page p v) (some (f, b)) (.page p1 v1) = some (g, b2)) :
    v' = v1 := by
  rw [update_apply] at h1 h2
  split_ifs at h1 h2 with e1 e2 e2
  · cases e1
    cases e2
    rfl
  · cases e1
    cases h1
    exact (hf _ _ _ h2).symm
  · cases e2
    cases h2
    exact hf _ _ _ h1
  · exact h.same h1 h2

theorem same_clear (h : PoolOk user P) {u : SmpUse} {p' p1 : Fin nproc} {v' v1 g : ℕ}
    {b1 b2 : Bool} (h1 : update P.own u none (.page p' v') = some (g, b1))
    (h2 : update P.own u none (.page p1 v1) = some (g, b2)) : v' = v1 :=
  h.same (Wf.of_update_none h1).2 (Wf.of_update_none h2).2

/-! ### Moves -/

section

variable (h : PoolOk user P)

include h

theorem used_update {w : SmpUse} {g : ℕ} (hg : user g = true) (hw : w.user → ∀ b, P.own w ≠ some (g, b))
    (o : Option (ℕ × Bool)) : g ∈ P.free ∨ ∃ u b, u.user ∧ update P.own w o u = some (g, b) := by
  rcases h.used hg with hfree | ⟨u, b, hu, ho⟩
  · exact .inl hfree
  have hne : u ≠ w := by
    rintro rfl
    exact hw hu b ho
  exact .inr ⟨u, b, hu, by rwa [update_of_ne hne]⟩

theorem hold (hf : P.free = m :: fs) (hp : P.own (.held p) = none) : PoolOk (update user m true)
      { P with own := update P.own (.held p) (some (m, true)), free := fs } := by
  obtain ⟨hwf, hl⟩ := h.wf.pop hf
  refine ⟨hwf.assign hl id, fun h1 h2 => h.same (by simpa using h1) (by simpa using h2), ?_⟩
  intro g hg
  by_cases e : g = m
  · exact .inr ⟨.held p, true, trivial, by simp [e]⟩
  rw [update_of_ne e] at hg
  refine (h.used_update hg (by simp [hp]) _).imp_left fun hfree => ?_
  rw [hf] at hfree
  exact (List.mem_cons.1 hfree).resolve_left e

theorem takeOther (hf : P.free = f :: fs) : PoolOk (update user f false)
      { P with own := update P.own (.other f) (some (f, true)), free := fs } := by
  obtain ⟨hwf, hl⟩ := h.wf.pop hf
  refine ⟨hwf.assign hl id, fun h1 h2 => h.same (by simpa using h1) (by simpa using h2), ?_⟩
  intro g hg
  have e : g ≠ f := by
    rintro rfl
    simp at hg
  rw [update_of_ne e] at hg
  refine (h.used_update (w := .other f) hg False.elim _).imp_left fun hfree => ?_
  rw [hf] at hfree
  exact (List.mem_cons.1 hfree).resolve_left e

theorem giveOther (hf : P.own (.other f) = some (f, true)) :
    PoolOk user { P with own := update P.own (.other f) none, free := f :: P.free } := by
  obtain ⟨hwf, hl⟩ := h.wf.clear id hf
  refine ⟨hwf.push hl, fun h1 h2 => h.same (by simpa using h1) (by simpa using h2), ?_⟩
  intro g hg
  exact (h.used_update (w := .other f) hg False.elim _).imp_left (List.mem_cons_of_mem _)

theorem drop (hp : P.own (.page p v) = some (f, false)) (hc : P.cnt f ≠ 1) :
    PoolOk user { P with own := update P.own (.page p v) none
                         cnt := update P.cnt f (P.cnt f - 1) } := by
  have hwf := h.wf.drop (SmpUse.counted_page p v) hp
  have hpos := h.wf.cnt_pos (SmpUse.counted_page p v) hp
  refine ⟨hwf, h.same_clear, fun {g} hg => ?_⟩
  rcases h.used hg with hfree | ⟨u, b, hu, ho⟩
  · exact .inl hfree
  by_cases e : u = .page p v
  · -- the frame of the entry is still mapped, since its count is not 0
    rw [e, hp] at ho
    cases ho
    have hne : (holders SmpUse.counted (update P.own (.page p v) none) f).Nonempty := by
      have hcard := hwf.cnt_eq f
      simp only [update_self] at hcard
      refine (Set.ncard_pos (finite_holders hwf.finite f)).1 (Int.natCast_pos.1 ?_)
      rw [← hcard]
      omega
    obtain ⟨u', hc', b', hu'⟩ := hne
    refine .inr ⟨u', b', ?_, hu'⟩
    rcases u' with _ | _ | _
    · trivial
    · trivial
    · exact hc'.elim
  · exact .inr ⟨u, b, hu, by simpa [update_of_ne e] using ho⟩

theorem dropLast (hp : P.own (.page p v) = some (f, false)) (hc : P.cnt f = 1) :
    PoolOk user { own := update P.own (.page p v) none
                  free := f :: P.free
                  cnt := update P.cnt f (P.cnt f - 1) } := by
  have hl := h.wf.loose_of_drop hp fun hv => h.wf.alone_of_cnt_one (SmpUse.counted_page p v) hp hc hv
  refine ⟨(h.wf.drop (SmpUse.counted_page p v) hp).push hl, h.same_clear, fun {g} hg => ?_⟩
  rcases h.used hg with hfree | ⟨u, b, hu, ho⟩
  · exact .inl (List.mem_cons_of_mem _ hfree)
  by_cases e : u = .page p v
  · rw [e, hp] at ho
    cases ho
    exact .inl List.mem_cons_self
  · exact .inr ⟨u, b, hu, by simpa [update_of_ne e] using ho⟩

theorem count (hm : P.own (.held p) = some (m, true)) (hp : P.own (.page p v) = none) :
    PoolOk user { P with own := update (update P.own (.held p) none) (.page p v) (some (m, false))
                         cnt := update P.cnt m (P.cnt m + 1) } := by
  obtain ⟨hwf, hl⟩ := h.wf.clear id hm
  have hno : ∀ p' v' b, P.own (.page p' v') ≠ some (m, b) := by
    intro p' v' b ho
    cases h.wf.alone hm ho
  refine ⟨hwf.count hl (SmpUse.counted_page p v) (by simpa using hp) false,
    fun {p1 v1 p2 v2 g b1 b2} h1 h2 => ?_, fun {g} hg => ?_⟩
  · dsimp only at h1 h2
    rw [update_comm (by simp), update_of_ne (by simp)] at h1 h2
    exact h.same_update (fun p' v' b ho => absurd ho (hno p' v' b)) h1 h2
  rcases h.used hg with hfree | ⟨u, b, hu, ho⟩
  · exact .inl hfree
  by_cases e : u = .held p
  · rw [e, hm] at ho
    cases ho
    exact .inr ⟨.page p v, false, trivial, by simp⟩
  have e' : u ≠ .page p v := by
    rintro rfl
    rw [hp] at ho
    cases ho
  exact .inr ⟨u, b, hu, by simpa [update_of_ne e, update_of_ne e'] using ho⟩

/-- An entry of a child shares the frame of the parent's entry. -/
theorem share (hp : P.own (.page p v) = some (f, false)) (hc : P.own (.page c v) = none) :
    PoolOk user { P with own := update P.own (.page c v) (some (f, false))
                         cnt := update P.cnt f (P.cnt f + 1) } := by
  refine ⟨h.wf.share hp (SmpUse.counted_page c v) hc, fun h1 h2 => ?_, fun {g} hg => ?_⟩
  · exact h.same_update (fun p' v' b ho => h.same ho hp) h1 h2
  · exact h.used_update hg (by simp [hc]) _

end

end PoolOk

/-! ## The invariant -/

/-- The entry of page `v`, as a use.  Sharing is all that counts here, so no use is alone. -/
def Task.own (t : Task) (v : ℕ) : Option (ℕ × Bool) :=
  if (t.dir.pte v).p then some ((t.dir.pte v).frame, false) else none

/-- The frame that the process has taken and not yet counted. -/
def Task.held (t : Task) : Option (ℕ × Bool) :=
  match t.pc with
  | .swap _ _ m => some (m, true)
  | .count _ _ f => some (f, true)
  | _ => none

def Smp.own (s : Smp) : SmpUse → Option (ℕ × Bool)
  | .page p v => (s.task p).bind (·.own v)
  | .held p => (s.task p).bind Task.held
  | .other f => if s.other f then some (f, true) else none

def Smp.pool (s : Smp) : Pool SmpUse ℕ := ⟨s.own, s.freelist, s.refcount⟩

/-- All pages below `sz` have a page table. -/
def Dir.Covers (D : Dir) (sz : ℕ) : Prop := ∀ v, v * pgsize < sz → D.tab (v / nptentries) = true

/-- What the place of a process in the code says about its directory. -/
def Task.AtPc (t : Task) : Prop :=
  match t.pc with
  | .idle | .copy _ _ => t.dir.Covers t.sz
  | .embryo => True
  | .alloc v f | .swap v f _ =>
      t.dir.Covers t.sz ∧ (t.dir.pte v).p = true ∧ (t.dir.pte v).frame = f
  | .grow v newsz => newsz < kernbase ∧ ∀ v' < v, t.dir.tab (v' / nptentries) = true
  | .count v newsz _ =>
      v < kernpage ∧ newsz < kernbase ∧ ∀ v' < v, t.dir.tab (v' / nptentries) = true
  | .dealloc _ _ newsz .growproc => t.dir.Covers t.sz ∧ newsz < t.sz
  | .dealloc v oldsz _ .freevm => oldsz = kernbase ∧ ∀ v' < v, (t.dir.pte v').p = false

/-- The invariant of one process. -/
structure TaskOk (t : Task) : Prop where
  low : ∀ {v}, (t.dir.pte v).p = true → v < kernpage ∧ t.dir.tab (v / nptentries) = true
  down : ∀ {i j}, t.dir.tab i = true → j ≤ i → t.dir.tab j = true
  size : t.sz < kernbase
  pc : t.AtPc

theorem TaskOk.atPc {t : Task} (h : TaskOk t) {pc : Pc} (hpc : t.pc = pc) :
    Task.AtPc ⟨t.dir, t.sz, pc⟩ := by
  subst hpc
  exact h.pc

structure SmpInv (s : Smp) : Prop where
  pool : PoolOk s.user s.pool
  task : ∀ {p t}, s.task p = some t → TaskOk t
  child : ∀ {p t c v}, s.task p = some t → t.pc = .copy c v →
    ∃ k, s.task c = some k ∧ k.pc = .embryo ∧ ∀ v' < v, k.dir.tab (v' / nptentries) = true
  child_inj : ∀ {p t p' t' c v v'}, s.task p = some t → s.task p' = some t' →
    t.pc = .copy c v → t'.pc = .copy c v' → p = p'

section Own

variable {s : Smp} {p : Fin nproc} {t t' : Task} {v f : ℕ}

theorem own_page (hp : s.task p = some t) (v : ℕ) : s.own (.page p v) = t.own v := by
  simp [Smp.own, hp]

theorem own_held (hp : s.task p = some t) : s.own (.held p) = t.held := by simp [Smp.own, hp]

theorem Task.own_of_p (h : (t.dir.pte v).p = true) :
    t.own v = some ((t.dir.pte v).frame, false) := by
  simp [Task.own, h]

theorem Task.own_of_not_p (h : (t.dir.pte v).p = false) : t.own v = none := by
  simp [Task.own, h]

theorem own_setTask (hp : s.task p = some t) (hv : ∀ v' ≠ v, t'.own v' = t.own v') :
    (s.setTask p (some t')).own =
      update (update s.own (.held p) t'.held) (.page p v) (t'.own v) := by
  funext u
  rcases u with ⟨p', v'⟩ | p' | g
  · by_cases e : p' = p
    · subst e
      by_cases e' : v' = v
      · simp [Smp.own, Smp.setTask, e']
      · simp [Smp.own, Smp.setTask, e', hv v' e', hp]
    · simp [Smp.own, Smp.setTask, e]
  · by_cases e : p' = p
    · simp [Smp.own, Smp.setTask, e]
    · simp [Smp.own, Smp.setTask, e]
  · rw [update_of_ne (by simp), update_of_ne (by simp)]
    rfl

theorem own_setPc (hp : s.task p = some t) (hv : t'.own = t.own) :
    (s.setTask p (some t')).own = update s.own (.held p) t'.held := by
  rw [own_setTask (v := 0) hp fun v' _ => congrFun hv v', hv, ← own_page hp 0,
    update_comm (by simp), update_eq_self]

theorem own_setTask_same (hp : s.task p = some t) (hv : t'.own = t.own) (hh : t'.held = t.held) :
    (s.setTask p (some t')).own = s.own := by
  rw [own_setPc hp hv, hh, ← own_held hp, update_eq_self]

theorem own_setTask_empty {x y : Option Task} (hx : s.task p = x)
    (hxo : ∀ t ∈ x, (∀ v, t.own v = none) ∧ t.held = none)
    (hyo : ∀ t ∈ y, (∀ v, t.own v = none) ∧ t.held = none) : (s.setTask p y).own = s.own := by
  have hnone : ∀ z : Option Task, (∀ t ∈ z, (∀ v, t.own v = none) ∧ t.held = none) →
      (∀ v, z.bind (·.own v) = none) ∧ z.bind Task.held = none := by
    intro z hz
    cases z with
    | none => simp
    | some t => simpa using hz t rfl
  funext u
  rcases u with ⟨p', v'⟩ | p' | g
  · by_cases e : p' = p
    · subst e
      simp [Smp.own, Smp.setTask, hx, (hnone x hxo).1, (hnone y hyo).1]
    · simp [Smp.own, Smp.setTask, e]
  · by_cases e : p' = p
    · subst e
      simp [Smp.own, Smp.setTask, hx, (hnone x hxo).2, (hnone y hyo).2]
    · simp [Smp.own, Smp.setTask, e]
  · rfl

end Own

/-! ## Steps -/

section Step

variable {s s' : Smp} {p : Fin nproc} {t t' : Task} {v f : ℕ}

/-- A process has moved on; the others are as they were. -/
theorem SmpInv.setTask (h : SmpInv s) (hp : s.task p = some t) (hpc : t.pc ≠ .embryo)
    (hs : s'.task = update s.task p (some t')) (ht : TaskOk t')
    (hnc : ∀ c v, t'.pc ≠ .copy c v) (hpool : PoolOk s'.user s'.pool) : SmpInv s' := by
  have hback : ∀ {p1 t1}, s'.task p1 = some t1 → p1 = p ∧ t1 = t' ∨ p1 ≠ p ∧ s.task p1 = some t1 := by
    intro p1 t1 h1
    rw [hs] at h1
    exact of_update_some h1
  refine ⟨hpool, fun {p1 t1} h1 => ?_, fun {p1 t1 c v} h1 hc => ?_,
    fun {p1 t1 p2 t2 c v v'} h1 h2 hc1 hc2 => ?_⟩
  · rcases hback h1 with ⟨-, rfl⟩ | ⟨-, h1⟩
    · exact ht
    · exact h.task h1
  · rcases hback h1 with ⟨-, rfl⟩ | ⟨-, h1⟩
    · exact absurd hc (hnc c v)
    obtain ⟨k, hk, he, htab⟩ := h.child h1 hc
    have hne : c ≠ p := by
      rintro rfl
      rw [hp, Option.some.injEq] at hk
      exact hpc (hk ▸ he)
    exact ⟨k, by rw [hs, update_of_ne hne, hk], he, htab⟩
  · rcases hback h1 with ⟨-, rfl⟩ | ⟨-, h1⟩
    · exact absurd hc1 (hnc c v)
    rcases hback h2 with ⟨-, rfl⟩ | ⟨-, h2⟩
    · exact absurd hc2 (hnc c v')
    exact h.child_inj h1 h2 hc1 hc2

theorem PoolOk.of_eq {user : ℕ → Bool} {P Q : Pool SmpUse ℕ} (h : PoolOk user P)
    (ho : Q.own = P.own) (hf : Q.free = P.free) (hc : Q.cnt = P.cnt) : PoolOk user Q := by
  obtain ⟨own, free, cnt⟩ := Q
  cases ho
  cases hf
  cases hc
  exact h

theorem addRef_eq (h : PoolOk s.user s.pool) (f : ℕ) {k : ℤ} (hk : -1 ≤ k) (hk' : k ≤ 1) :
    (s.addRef f k).refcount = update s.refcount f (s.refcount f + k) := by
  have hf : 0 ≤ s.refcount f ∧ s.refcount f ≤ 64 := h.cnt_mem f
  simp only [Smp.addRef]
  rw [toChar_of_mem (by omega) (by omega)]

theorem SmpInv.move (h : SmpInv s) (hp : s.task p = some t) (hpc : t.pc ≠ .embryo)
    (hdir : t'.own = t.own) (hheld : t.held = none) (hheld' : t'.held = none) (ht : TaskOk t')
    (hnc : ∀ c v, t'.pc ≠ .copy c v) : SmpInv (s.setTask p (some t')) :=
  h.setTask hp hpc rfl ht hnc
    (h.pool.of_eq (own_setTask_same hp hdir (by rw [hheld, hheld'])) rfl rfl)

theorem SmpInv.hold {m : ℕ} {fs : List ℕ} (h : SmpInv s) (hp : s.task p = some t)
    (hpc : t.pc ≠ .embryo) (hf : s.freelist = m :: fs) (hdir : t'.own = t.own)
    (hheld : t.held = none) (hheld' : t'.held = some (m, true)) (ht : TaskOk t')
    (hnc : ∀ c v, t'.pc ≠ .copy c v) : SmpInv ((s.take m fs).setTask p (some t')) := by
  refine h.setTask hp hpc rfl ht hnc ?_
  refine (h.pool.hold hf ((own_held hp).trans hheld)).of_eq ?_ rfl rfl
  have : (s.take m fs).task p = some t := hp
  rw [← hheld']
  exact own_setPc this hdir

theorem TaskOk.setPte (h : TaskOk t) {e : Pte} (hv : e.p = true → (t.dir.pte v).p = true) {sz : ℕ}
    (hsz : sz < kernbase) {pc : Pc} (hpc : Task.AtPc ⟨t.dir.set v e, sz, pc⟩) :
    TaskOk ⟨t.dir.set v e, sz, pc⟩ where
  low {v'} hv' := by
    by_cases e' : v' = v
    · subst e'
      exact h.low (hv (by simpa [Dir.set] using hv'))
    · exact h.low (by simpa [Dir.set, e'] using hv')
  down := h.down
  size := hsz
  pc := hpc

theorem TaskOk.map (h : TaskOk t) {e : Pte} (hv : v < kernpage)
    (htab : ∀ v' < v, t.dir.tab (v' / nptentries) = true) {pc : Pc}
    (hpc : Task.AtPc ⟨t.dir.map v e, t.sz, pc⟩) : TaskOk ⟨t.dir.map v e, t.sz, pc⟩ where
  low {v'} hv' := by
    by_cases e' : v' = v
    · subst e'
      exact ⟨hv, by simp [Dir.map]⟩
    obtain ⟨hlow, ht⟩ := h.low (v := v') (by simpa [Dir.map, e'] using hv')
    refine ⟨hlow, ?_⟩
    simp only [Dir.map, update_apply]
    split_ifs
    · rfl
    · exact ht
  down {i j} hi hji := by
    simp only [Dir.map, update_apply] at hi ⊢
    split_ifs with hj
    · rfl
    split_ifs at hi with hi'
    · -- `j` is the table of some page below `v`
      have hlt : j * nptentries < v := by
        simp only [nptentries] at *
        omega
      simpa [nptentries] using htab _ hlt
    · exact h.down hi hji
  size := h.size
  pc := hpc

theorem smpStep_swap {m : ℕ} (h : SmpInv s) (hp : s.task p = some t) (hpc : t.pc = .swap v f m)
    (hc : 1 < s.refcount f) :
    SmpInv (((s.addRef f (-1)).addRef m 1).setTask p
      (some { t with dir := t.dir.set v ⟨m, true, true, true⟩, pc := .idle })) := by
  have ht := h.task hp
  obtain ⟨hcov, hvp, hvf⟩ := ht.atPc hpc
  have hpage : s.pool.own (.page p v) = some (f, false) := by
    rw [← hvf]
    exact (own_page hp v).trans (Task.own_of_p hvp)
  have hheld : s.pool.own (.held p) = some (m, true) :=
    (own_held hp).trans (by simp only [Task.held, hpc])
  have hdrop := h.pool.drop hpage (by show s.refcount f ≠ 1; omega)
  have hcount := hdrop.count (p := p) (v := v) (m := m) (by simpa using hheld) (by simp)
  refine h.setTask hp (by simp [hpc]) rfl (ht.setPte (fun _ => hvp) ht.size hcov) (by simp) ?_
  refine hcount.of_eq ?_ rfl ?_
  · refine (own_setTask (s := (s.addRef f (-1)).addRef m 1) (v := v) hp ?_).trans ?_
    · intro v' hv'
      simp [Task.own, Dir.set, hv']
    dsimp only
    rw [update_comm (show SmpUse.page p v ≠ .held p by simp), update_idem]
    congr 1
    simp [Task.own, Dir.set]
  · have hf : 0 ≤ s.refcount f ∧ s.refcount f ≤ 64 := h.pool.cnt_mem f
    have hm : 0 ≤ s.refcount m ∧ s.refcount m ≤ 64 := h.pool.cnt_mem m
    simp only [Smp.pool, Smp.setTask, Smp.addRef]
    have hf' : toChar (s.refcount f + -1) = s.refcount f - 1 := toChar_of_mem (by omega) (by omega)
    have hm' : -128 ≤ update s.refcount f (s.refcount f - 1) m + 1 ∧
        update s.refcount f (s.refcount f - 1) m + 1 ≤ 127 := by
      rw [update_apply]
      split_ifs
      · omega
      · omega
    rw [hf', toChar_of_mem hm'.1 hm'.2]

theorem smpStep_count {newsz : ℕ} (h : SmpInv s) (hp : s.task p = some t)
    (hpc : t.pc = .count v newsz f) (he : (t.dir.pte v).p = false) :
    SmpInv ((s.addRef f 1).setTask p
      (some { t with dir := t.dir.map v ⟨f, true, true, true⟩, pc := .grow (v + 1) newsz })) := by
  have ht := h.task hp
  obtain ⟨hlow, hsz, htab⟩ := ht.atPc hpc
  have hcount := h.pool.count (p := p) (v := v) (m := f)
    ((own_held hp).trans (by simp only [Task.held, hpc]))
    ((own_page hp v).trans (Task.own_of_not_p he))
  refine h.setTask hp (by simp [hpc]) rfl (ht.map hlow htab ⟨hsz, fun v' hv' => ?_⟩) (by simp) ?_
  · simp only [Dir.map, update_apply]
    split_ifs with e
    · rfl
    · exact htab v' (lt_of_le_of_ne (by omega) fun e' => e (by rw [e']))
  refine hcount.of_eq ?_ rfl (addRef_eq h.pool f (by decide) le_rfl)
  refine (own_setTask (s := s.addRef f 1) (v := v) hp ?_).trans ?_
  · intro v' hv'
    simp [Task.own, Dir.map, hv']
  · simp [Task.own, Dir.map, Task.held]
    rfl

variable {oldsz newsz : ℕ} {caller : Caller}

theorem TaskOk.cleared (h : TaskOk t) (hpc : t.pc = .dealloc v oldsz newsz caller) :
    TaskOk ⟨t.dir.set v .zero, t.sz, .dealloc (v + 1) oldsz newsz caller⟩ := by
  refine h.setPte (fun he => by simp [Pte.zero] at he) h.size ?_
  have hat := h.pc
  simp only [Task.AtPc, hpc] at hat ⊢
  cases caller with
  | growproc => exact hat
  | freevm =>
    refine ⟨hat.1, fun v' hv' => ?_⟩
    by_cases e : v' = v
    · simp [Dir.set, e, Pte.zero]
    · simpa [Dir.set, e] using hat.2 v' (by omega)

theorem own_cleared (hp : s.task p = some t) (hpc : t.pc = .dealloc v oldsz newsz caller) :
    (s.setTask p (some ⟨t.dir.set v .zero, t.sz, .dealloc (v + 1) oldsz newsz caller⟩)).own =
      update s.own (.page p v) none := by
  refine (own_setTask (v := v) hp ?_).trans ?_
  · intro v' hv'
    simp [Task.own, Dir.set, hv']
  have hheld : s.own (.held p) = none := (own_held hp).trans (by simp only [Task.held, hpc])
  have hid := update_eq_self (SmpUse.held p) s.own
  rw [hheld] at hid
  simp [Task.own, Dir.set, Task.held, Pte.zero, hid]

section

variable (h : SmpInv s) (hp : s.task p = some t) (hpc : t.pc = .dealloc v oldsz newsz caller)
    (he : (t.dir.pte v).p = true) (hf : (t.dir.pte v).frame = f)

include h hp hpc he hf

theorem smpStep_drop (hc : (s.addRef f (-1)).refcount f ≠ 0) :
    SmpInv ((s.addRef f (-1)).setTask p (some { t with
      dir := t.dir.set v .zero, pc := .dealloc (v + 1) oldsz newsz caller })) := by
  have hpage : s.pool.own (.page p v) = some (f, false) := by
    rw [← hf]
    exact (own_page hp v).trans (Task.own_of_p he)
  have href := addRef_eq h.pool f le_rfl (by decide)
  have hne : s.pool.cnt f ≠ 1 := by
    rw [href, update_self] at hc
    intro e
    apply hc
    show s.pool.cnt f + -1 = 0
    omega
  refine h.setTask hp (by simp [hpc]) rfl ((h.task hp).cleared hpc) (by simp) ?_
  exact (h.pool.drop hpage hne).of_eq (own_cleared (s := s.addRef f (-1)) hp hpc) rfl href

theorem smpStep_dropLast (hc : (s.addRef f (-1)).refcount f = 0) :
    SmpInv ({ s.addRef f (-1) with freelist := f :: s.freelist }.setTask p
      (some { t with dir := t.dir.set v .zero, pc := .dealloc (v + 1) oldsz newsz caller })) := by
  have hpage : s.pool.own (.page p v) = some (f, false) := by
    rw [← hf]
    exact (own_page hp v).trans (Task.own_of_p he)
  have href := addRef_eq h.pool f le_rfl (by decide)
  have h1 : s.pool.cnt f = 1 := by
    rw [href, update_self] at hc
    have : s.pool.cnt f + -1 = 0 := hc
    omega
  refine h.setTask hp (by simp [hpc]) rfl ((h.task hp).cleared hpc) (by simp) ?_
  exact (h.pool.dropLast hpage h1).of_eq
    (own_cleared (s := { s.addRef f (-1) with freelist := f :: s.freelist }) hp hpc) rfl href

end

/-- At the end of `freevm` no page is left. -/
theorem smpStep_freed (h : SmpInv s) (hp : s.task p = some t)
    (hpc : t.pc = .dealloc v oldsz newsz .freevm) (hv : oldsz ≤ v * pgsize) :
    SmpInv (s.setTask p none) := by
  have ht := h.task hp
  obtain ⟨rfl, hgone⟩ := ht.atPc hpc
  have hempty : ∀ v', (t.dir.pte v').p = false := by
    intro v'
    by_contra hne
    have hlow := (ht.low (by simpa using hne)).1
    have hlt : v' < v := by
      simp only [kernbase, pgsize, kernpage] at *
      omega
    exact hne (hgone v' hlt)
  have hback : ∀ {p1 t1}, (s.setTask p none).task p1 = some t1 → p1 ≠ p ∧ s.task p1 = some t1 := by
    intro p1 t1 h1
    by_cases e : p1 = p
    · simp [Smp.setTask, e] at h1
    · exact ⟨e, by simpa [Smp.setTask, e] using h1⟩
  refine ⟨h.pool.of_eq (own_setTask_empty hp ?_ (by simp)) rfl rfl, fun h1 => h.task (hback h1).2,
    fun {p1 t1 c v1} h1 hc => ?_, fun h1 h2 => h.child_inj (hback h1).2 (hback h2).2⟩
  · rintro _ ⟨⟩
    exact ⟨fun v' => Task.own_of_not_p (hempty v'), by simp only [Task.held, hpc]⟩
  obtain ⟨k, hk, he, htab⟩ := h.child (hback h1).2 hc
  have hne : c ≠ p := by
    rintro rfl
    rw [hp, Option.some.injEq] at hk
    rw [hk, he] at hpc
    cases hpc
  exact ⟨k, by simpa [Smp.setTask, hne] using hk, he, htab⟩

variable {c : Fin nproc}

section

variable (h : SmpInv s) (hp : s.task p = some t)

include h hp

theorem SmpInv.setPair {k' : Task} (hpc : t.pc ≠ .embryo) (hne : c ≠ p)
    (hs : s'.task = update (update s.task c (some k')) p (some t'))
    (ht : TaskOk t') (hk : TaskOk k') (hkc : ∀ c' v, k'.pc ≠ .copy c' v)
    (hcopy : ∀ c' v, t'.pc = .copy c' v →
      c' = c ∧ k'.pc = .embryo ∧ ∀ v' < v, k'.dir.tab (v' / nptentries) = true)
    (honly : ∀ {p1 t1 v}, s.task p1 = some t1 → t1.pc = .copy c v → p1 = p)
    (hpool : PoolOk s'.user s'.pool) : SmpInv s' := by
  have hback : ∀ {p1 t1}, s'.task p1 = some t1 → (p1 = p ∧ t1 = t') ∨ (p1 = c ∧ t1 = k') ∨
      p1 ≠ p ∧ p1 ≠ c ∧ s.task p1 = some t1 := by
    intro p1 t1 h1
    rw [hs, update_apply, update_apply] at h1
    split_ifs at h1 with e e'
    · exact .inl ⟨e, (Option.some.inj h1).symm⟩
    · exact .inr (.inl ⟨e', (Option.some.inj h1).symm⟩)
    · exact .inr (.inr ⟨e, e', h1⟩)
  refine ⟨hpool, fun {p1 t1} h1 => ?_, fun {p1 t1 c1 v1} h1 hc => ?_,
    fun {p1 t1 p2 t2 c1 v1 v2} h1 h2 hc1 hc2 => ?_⟩
  · rcases hback h1 with ⟨-, rfl⟩ | ⟨-, rfl⟩ | ⟨-, -, h1⟩
    · exact ht
    · exact hk
    · exact h.task h1
  · rcases hback h1 with ⟨-, rfl⟩ | ⟨-, rfl⟩ | ⟨e, -, h1⟩
    · obtain ⟨rfl, he, htab⟩ := hcopy c1 v1 hc
      exact ⟨k', by rw [hs, update_of_ne hne, update_self], he, htab⟩
    · exact absurd hc (hkc c1 v1)
    obtain ⟨k1, hk1, he, htab⟩ := h.child h1 hc
    have hne1 : c1 ≠ p := by
      rintro rfl
      rw [hp, Option.some.injEq] at hk1
      exact hpc (hk1 ▸ he)
    have hne2 : c1 ≠ c := by
      rintro rfl
      exact e (honly h1 hc)
    exact ⟨k1, by rw [hs, update_of_ne hne1, update_of_ne hne2, hk1], he, htab⟩
  · -- nobody else copies into `c`
    rcases hback h1 with ⟨rfl, rfl⟩ | ⟨-, rfl⟩ | ⟨e1, -, h1⟩
    · rcases hback h2 with ⟨rfl, -⟩ | ⟨-, rfl⟩ | ⟨-, -, h2⟩
      · rfl
      · exact absurd hc2 (hkc c1 v2)
      · obtain ⟨rfl, -⟩ := hcopy c1 v1 hc1
        exact (honly h2 hc2).symm
    · exact absurd hc1 (hkc c1 v1)
    · rcases hback h2 with ⟨rfl, rfl⟩ | ⟨-, rfl⟩ | ⟨-, -, h2⟩
      · obtain ⟨rfl, -⟩ := hcopy c1 v2 hc2
        exact honly h1 hc1
      · exact absurd hc2 (hkc c1 v2)
      · exact h.child_inj h1 h2 hc1 hc2

theorem smpStep_fork (hpc : t.pc = .idle) (hc : s.task c = none) :
    SmpInv ((s.setTask c (some ⟨.empty, 0, .embryo⟩)).setTask p
      (some { t with pc := .copy c 0 })) := by
  have ht := h.task hp
  have hcov : t.dir.Covers t.sz := ht.atPc hpc
  have hne : c ≠ p := by
    rintro rfl
    rw [hc] at hp
    cases hp
  refine h.setPair hp (by simp [hpc]) hne rfl ⟨ht.low, ht.down, ht.size, hcov⟩
    ⟨fun hv => by simp [Dir.empty, Pte.zero] at hv, fun hi => by simp [Dir.empty] at hi, by decide,
      trivial⟩ (by simp) ?_ ?_ ?_
  · rintro c' v ⟨⟩
    exact ⟨rfl, rfl, fun v' hv' => absurd hv' (Nat.not_lt_zero _)⟩
  · intro p1 t1 v h1 hc1
    obtain ⟨k, hk, -⟩ := h.child h1 hc1
    rw [hc] at hk
    cases hk
  · refine h.pool.of_eq ?_ rfl rfl
    have hp' : (s.setTask c (some ⟨.empty, 0, .embryo⟩)).task p = some t := by
      simp [Smp.setTask, hne.symm, hp]
    have hsame : Task.own ⟨t.dir, t.sz, .copy c 0⟩ = t.own := rfl
    refine (own_setTask_same hp' hsame (by simp only [Task.held, hpc])).trans ?_
    refine own_setTask_empty hc (by simp) ?_
    rintro _ ⟨⟩
    exact ⟨fun v => by simp [Task.own, Dir.empty, Pte.zero], rfl⟩

theorem smpStep_copy {k : Task} {e : Pte}
    (hpc : t.pc = .copy c v) (he : t.dir.pte v = e) (hep : e.p = true) (hc : s.task c = some k)
    (hk : (k.dir.pte v).p = false) :
    SmpInv (((s.addRef e.frame 1).setTask c
      (some { k with dir := k.dir.map v { e with w := false } })).setTask p
      (some { t with dir := t.dir.set v { e with w := false }, pc := .copy c (v + 1) })) := by
  have ht := h.task hp
  have hcov : t.dir.Covers t.sz := ht.atPc hpc
  have hvp : (t.dir.pte v).p = true := by rw [he, hep]
  obtain ⟨k0, hk0, hemb, htab⟩ := h.child hp hpc
  obtain rfl : k = k0 := by rwa [hc, Option.some.injEq] at hk0
  have hne : c ≠ p := by
    rintro rfl
    rw [hp, Option.some.injEq] at hc
    rw [hc, hemb] at hpc
    cases hpc
  refine h.setPair hp (by simp [hpc]) hne rfl (ht.setPte (fun _ => hvp) ht.size hcov)
    ((h.task hc).map (ht.low hvp).1 htab (by simp [Task.AtPc, hemb])) (by simp [hemb]) ?_
    (fun h1 hc1 => h.child_inj h1 hp hc1 hpc) ?_
  · rintro c' v' ⟨⟩
    refine ⟨rfl, hemb, fun v' hv' => ?_⟩
    simp only [Dir.map, update_apply]
    split_ifs with hv
    · rfl
    · exact htab v' (lt_of_le_of_ne (by omega) fun e' => hv (by rw [e']))
  have hpage : s.pool.own (.page p v) = some (e.frame, false) := by
    rw [← he]
    exact (own_page hp v).trans (Task.own_of_p hvp)
  have hnone : s.pool.own (.page c v) = none := (own_page hc v).trans (Task.own_of_not_p hk)
  refine (h.pool.share hpage hnone).of_eq ?_ rfl (addRef_eq h.pool _ (by decide) le_rfl)
  have hp' : ((s.addRef e.frame 1).setTask c
      (some { k with dir := k.dir.map v { e with w := false } })).task p = some t := by
    simp [Smp.setTask, Smp.addRef, hne.symm, hp]
  have hsame : Task.own ⟨t.dir.set v { e with w := false }, t.sz, .copy c (v + 1)⟩ = t.own := by
    funext v'
    by_cases hv' : v' = v
    · simp [Task.own, Dir.set, hv', he]
    · simp [Task.own, Dir.set, hv']
  refine (own_setTask_same hp' hsame (by simp only [Task.held, hpc])).trans ?_
  -- the child's entry is the only use that changes
  refine (own_setTask (s := s.addRef e.frame 1) (v := v) hc ?_).trans ?_
  · intro v' hv'
    simp [Task.own, Dir.map, hv']
  have hheld : s.own (.held c) = none := (own_held hc).trans (by simp only [Task.held, hemb])
  have hid := update_eq_self (SmpUse.held c) s.own
  rw [hheld] at hid
  have hown : Task.own ⟨k.dir.map v { e with w := false }, k.sz, k.pc⟩ v =
      some (e.frame, false) := by
    simp [Task.own, Dir.map, hep]
  have hk' : Task.held ⟨k.dir.map v { e with w := false }, k.sz, k.pc⟩ = none := by
    simp only [Task.held, hemb]
  rw [hown, hk']
  show update (update s.own _ _) _ _ = _
  rw [hid]
  rfl

theorem smpStep_copied {k : Task}
    (hpc : t.pc = .copy c v) (hv : t.sz ≤ v * pgsize) (hc : s.task c = some k) :
    SmpInv ((s.setTask c (some { k with sz := t.sz, pc := .idle })).setTask p
      (some { t with pc := .idle })) := by
  have ht := h.task hp
  have hcov : t.dir.Covers t.sz := ht.atPc hpc
  obtain ⟨k0, hk0, hemb, htab⟩ := h.child hp hpc
  obtain rfl : k = k0 := by rwa [hc, Option.some.injEq] at hk0
  have hk := h.task hc
  have hne : c ≠ p := by
    rintro rfl
    rw [hp, Option.some.injEq] at hc
    rw [hc, hemb] at hpc
    cases hpc
  have hkcov : k.dir.Covers t.sz := fun v' hv' => htab v' (by
    simp only [pgsize] at *
    omega)
  refine h.setPair hp (by simp [hpc]) hne rfl ⟨ht.low, ht.down, ht.size, hcov⟩
    ⟨hk.low, hk.down, ht.size, hkcov⟩ (by simp) (by simp)
    (fun h1 hc1 => h.child_inj h1 hp hc1 hpc) ?_
  refine h.pool.of_eq ?_ rfl rfl
  have hp' : (s.setTask c (some { k with sz := t.sz, pc := .idle })).task p = some t := by
    simp [Smp.setTask, hne.symm, hp]
  have hsame : Task.own ⟨t.dir, t.sz, .idle⟩ = t.own := rfl
  have hsame' : Task.own ⟨k.dir, t.sz, .idle⟩ = k.own := rfl
  exact (own_setTask_same hp' hsame (by simp only [Task.held, hpc])).trans
    (own_setTask_same hc hsame' (by simp only [Task.held, hemb]))

end

theorem TaskOk.skipped (h : TaskOk t) (hpc : t.pc = .dealloc v oldsz newsz caller) {n : ℕ}
    (hgone : ∀ v', v ≤ v' → v' < n → (t.dir.pte v').p = false) :
    TaskOk { t with pc := .dealloc n oldsz newsz caller } := by
  refine ⟨h.low, h.down, h.size, ?_⟩
  have hat := h.pc
  simp only [Task.AtPc, hpc] at hat ⊢
  cases caller with
  | growproc => exact hat
  | freevm =>
    refine ⟨hat.1, fun v' hv' => ?_⟩
    by_cases e : v' < v
    · exact hat.2 v' e
    · exact hgone v' (by omega) hv'

variable {l : Fin nproc × SmpOp}

theorem smpStep_fault (h : SmpInv s) (hok : StillShared s l)
    (hst : SmpStep s l s') (hl : (∃ v, l.2 = .fault v) ∨ l.2 = .alloc ∨ l.2 = .swap) :
    SmpInv s' := by
  cases hst with
  | @grant p t v f hp hpc hv htab he hc =>
    have ht := h.task hp
    have hcov : t.dir.Covers t.sz := ht.atPc hpc
    have hvp : (t.dir.pte v).p = true := by rw [he]
    refine h.move hp (by simp [hpc]) ?_ (by simp only [Task.held, hpc])
      (by simp only [Task.held, hpc])
      (ht.setPte (fun _ => hvp) ht.size (by simp only [Task.AtPc, hpc]; exact hcov)) (by simp [hpc])
    funext v'
    by_cases hv' : v' = v
    · simp [Task.own, Dir.set, hv', he]
    · simp [Task.own, Dir.set, hv']
  | @shared p t v f hp hpc hv htab he hc =>
    have ht := h.task hp
    have hcov : t.dir.Covers t.sz := ht.atPc hpc
    exact h.move hp (by simp [hpc]) rfl (by simp only [Task.held, hpc]) rfl
      ⟨ht.low, ht.down, ht.size, hcov, by rw [he], by rw [he]⟩ (by simp)
  | @alloc p t v f m fs hp hpc hf =>
    have ht := h.task hp
    have hat := ht.atPc hpc
    exact h.hold hp (by simp [hpc]) hf rfl (by simp only [Task.held, hpc]) rfl
      ⟨ht.low, ht.down, ht.size, hat⟩ (by simp)
  | @swap p t v f m hp hpc => exact smpStep_swap h hp hpc (hok rfl t v f m hp hpc)
  | _ => simp at hl

theorem smpStep_grow (h : SmpInv s) (hst : SmpStep s l s')
    (hl : (∃ n, l.2 = .sbrk n) ∨ l.2 = .grow ∨ l.2 = .count) : SmpInv s' := by
  cases hst with
  | @sbrkGrow p t newsz hp hpc hsz hk =>
    have ht := h.task hp
    have hcov : t.dir.Covers t.sz := ht.atPc hpc
    refine h.move hp (by simp [hpc]) rfl (by simp only [Task.held, hpc]) rfl
      ⟨ht.low, ht.down, ht.size, hk, fun v' hv' => hcov v' ?_⟩ (by simp)
    have hsize := ht.size
    simp only [pgroundup, pgsize, word, kernbase] at *
    omega
  | @grow p t v newsz f fs hp hpc hv hf =>
    have ht := h.task hp
    have hat := ht.atPc hpc
    have hlow : v < kernpage := by
      have := hat.1
      simp only [pgsize, kernbase, kernpage] at *
      omega
    exact h.hold hp (by simp [hpc]) hf rfl (by simp only [Task.held, hpc]) rfl
      ⟨ht.low, ht.down, ht.size, hlow, hat⟩ (by simp)
  | @count p t v newsz f hp hpc he => exact smpStep_count h hp hpc he
  | @grown p t v newsz hp hpc hv =>
    have ht := h.task hp
    have hat := ht.atPc hpc
    refine h.move hp (by simp [hpc]) rfl (by simp only [Task.held, hpc]) rfl
      ⟨ht.low, ht.down, hat.1, fun v' hv' => hat.2 v' ?_⟩ (by simp)
    simp only [pgsize] at *
    omega
  | @sbrkShrink p t newsz hp hpc hsz =>
    have ht := h.task hp
    have hcov : t.dir.Covers t.sz := ht.atPc hpc
    exact h.move hp (by simp [hpc]) rfl (by simp only [Task.held, hpc]) rfl
      ⟨ht.low, ht.down, ht.size, hcov, hsz⟩ (by simp)
  | _ => simp at hl

theorem smpStep_dealloc (h : SmpInv s) (hst : SmpStep s l s')
    (hl : l.2 = .dealloc ∨ l.2 = .exitWait) : SmpInv s' := by
  cases hst with
  | @exitWait p t hp hpc h0 =>
    have ht := h.task hp
    exact h.move hp (by simp [hpc]) rfl (by simp only [Task.held, hpc]) rfl
      ⟨ht.low, ht.down, ht.size, rfl, fun v' hv' => absurd hv' (Nat.not_lt_zero _)⟩ (by simp)
  | @skipTable p t v oldsz newsz caller hp hpc hv htab =>
    have ht := h.task hp
    refine h.move hp (by simp [hpc]) rfl (by simp only [Task.held, hpc]) rfl
      (ht.skipped hpc fun v' hle _ => ?_) (by simp)
    by_contra hne
    have htab' := ht.down (ht.low (by simpa using hne)).2 (Nat.div_le_div_right (c := nptentries) hle)
    rw [htab] at htab'
    cases htab'
  | @skipPage p t v oldsz newsz caller hp hpc hv htab he =>
    refine h.move hp (by simp [hpc]) rfl (by simp only [Task.held, hpc]) rfl
      ((h.task hp).skipped hpc fun v' hle hlt => ?_) (by simp)
    obtain rfl : v' = v := by omega
    exact he
  | drop hp hpc _ _ he hf _ hc => exact smpStep_drop h hp hpc he hf hc
  | dropLast hp hpc _ _ he hf _ hc => exact smpStep_dropLast h hp hpc he hf hc
  | @shrunk p t v oldsz newsz hp hpc hv =>
    have ht := h.task hp
    obtain ⟨hcov, hlt⟩ := ht.atPc hpc
    have hle : (if newsz = 0 then t.sz else newsz) ≤ t.sz := by
      split_ifs
      · exact le_rfl
      · exact hlt.le
    exact h.move hp (by simp [hpc]) rfl (by simp only [Task.held, hpc]) rfl
      ⟨ht.low, ht.down, hle.trans_lt ht.size, fun v' hv' => hcov v' (lt_of_lt_of_le hv' hle)⟩
      (by simp)
  | freed hp hpc hv => exact smpStep_freed h hp hpc hv
  | _ => simp at hl

theorem smpStep_inv (h : SmpInv s) (hst : given SmpStep StillShared s l s') : SmpInv s' := by
  obtain ⟨hok, hst⟩ := hst
  obtain ⟨p, op⟩ := l
  cases op with
  | fault v => exact smpStep_fault h hok hst (.inl ⟨v, rfl⟩)
  | alloc => exact smpStep_fault h hok hst (.inr (.inl rfl))
  | swap => exact smpStep_fault h hok hst (.inr (.inr rfl))
  | sbrk n => exact smpStep_grow h hst (.inl ⟨n, rfl⟩)
  | grow => exact smpStep_grow h hst (.inr (.inl rfl))
  | count => exact smpStep_grow h hst (.inr (.inr rfl))
  | dealloc => exact smpStep_dealloc h hst (.inl rfl)
  | exitWait => exact smpStep_dealloc h hst (.inr rfl)
  | fork c =>
    cases hst with
    | fork hp hpc hc => exact smpStep_fork h hp hpc hc
  | copy =>
    cases hst with
    | copy hp hpc _ _ he hep hc hk => exact smpStep_copy h hp hpc he hep hc hk
    | copied hp hpc hv hc => exact smpStep_copied h hp hpc hv hc
  | kalloc =>
    cases hst with
    | @kalloc _ f fs hf =>
      refine ⟨(h.pool.takeOther hf).of_eq ?_ rfl rfl, h.task, h.child, h.child_inj⟩
      funext u
      rcases u with ⟨p', v⟩ | p' | g
      · rfl
      · rfl
      · by_cases e : g = f
        · simp [Smp.own, Smp.pool, e]
        · simp [Smp.own, Smp.pool, e]
  | kfree f =>
    cases hst with
    | kfree hf =>
      refine ⟨(h.pool.giveOther (f := f) (by simp [Smp.own, Smp.pool, hf])).of_eq ?_ rfl rfl, h.task,
        h.child, h.child_inj⟩
      funext u
      rcases u with ⟨p', v⟩ | p' | g
      · rfl
      · rfl
      · by_cases e : g = f
        · simp [Smp.own, Smp.pool, e]
        · simp [Smp.own, Smp.pool, e]

/-- The uses before the first process: the kernel has the pages in `other`. -/
@[simp] def kernelUses (other : List ℕ) : SmpUse → Option (ℕ × Bool)
  | .other g => if g ∈ other then some (g, true) else none
  | _ => none

theorem of_kernelUses {other : List ℕ} {u : SmpUse} {g : ℕ} {b : Bool}
    (h : kernelUses other u = some (g, b)) : u = .other g ∧ g ∈ other ∧ b = true := by
  rcases u with _ | _ | g'
  · cases h
  · cases h
  · obtain ⟨hg, rfl, rfl⟩ : g' ∈ other ∧ g' = g ∧ true = b := by simpa using h
    exact ⟨rfl, hg, rfl⟩

theorem PoolOk.kernelUses {l other : List ℕ} (hnd : (l ++ other).Nodup) :
    PoolOk (fun _ => false) ⟨kernelUses other, l, fun _ => 0⟩ := by
  obtain ⟨hfs, -, hdisj⟩ := List.nodup_append'.1 hnd
  refine ⟨⟨fun _ => trivial, fun _ => trivial, ?_, hfs, fun hu hg => hdisj hg (of_kernelUses hu).2.1,
    fun hu hu' => (of_kernelUses hu').1.trans (of_kernelUses hu).1.symm,
    fun hu _ => (of_kernelUses hu).2.2, fun g => ?_⟩, nofun, nofun⟩
  · refine ((List.finite_toSet other).image SmpUse.other).subset fun u hu => ?_
    obtain ⟨⟨g, b⟩, hg⟩ := Option.ne_none_iff_exists'.1 hu
    exact ⟨g, (of_kernelUses hg).2.1, (of_kernelUses hg).1.symm⟩
  have hset : holders SmpUse.counted (Xv6.kernelUses other) g = ∅ := by
    refine Set.eq_empty_of_forall_notMem ?_
    rintro u ⟨hc, b, hu⟩
    rw [(of_kernelUses hu).1] at hc
    exact hc
  rw [hset, Set.ncard_empty]
  rfl

theorem SmpInv.start {freelist other : List ℕ} (hnd : (f :: (freelist ++ other)).Nodup) :
    SmpInv (Smp.start f freelist other) := by
  have htask : ∀ {p t}, (Smp.start f freelist other).task p = some t →
      p = ⟨0, by decide⟩ ∧ t = ⟨Dir.empty.map 0 ⟨f, true, true, true⟩, pgsize, .idle⟩ := by
    intro p t hp
    simp only [Smp.start, update_apply] at hp
    split_ifs at hp with e
    exact ⟨e, (Option.some.inj hp).symm⟩
  -- the first page is taken and counted, as `allocuvm` does
  have hheld := (PoolOk.kernelUses (l := f :: freelist) hnd).hold (p := ⟨0, by decide⟩) rfl rfl
  have hpool := hheld.count (p := ⟨0, by decide⟩) (v := 0) (m := f) (by simp) (by simp)
  refine ⟨?_, fun hp => ?_, fun hp hc => ?_, fun hp _ hc => ?_⟩
  · have huser : (Smp.start f freelist other).user = update (fun _ => false) f true := by
      funext g
      simp [Smp.start, update_apply]
    rw [huser]
    refine hpool.of_eq ?_ rfl ?_
    · funext u
      rcases u with ⟨p, v⟩ | p | g
      · by_cases hp : p = ⟨0, by decide⟩
        · by_cases hv : v = 0
          · simp [Smp.pool, Smp.own, Smp.start, Task.own, Dir.map, hp, hv]
          · simp [Smp.pool, Smp.own, Smp.start, Task.own, Dir.map, Dir.empty, Pte.zero, hp, hv]
        · simp [Smp.pool, Smp.own, Smp.start, hp]
      · by_cases hp : p = ⟨0, by decide⟩
        · simp [Smp.pool, Smp.own, Smp.start, Task.held, hp]
        · simp [Smp.pool, Smp.own, Smp.start, hp]
      · simp [Smp.pool, Smp.own, Smp.start]
    · funext g
      simp [Smp.pool, Smp.start, update_apply]
  · obtain ⟨-, rfl⟩ := htask hp
    have hempty : TaskOk ⟨.empty, pgsize, .embryo⟩ :=
      ⟨fun hv => by simp [Dir.empty, Pte.zero] at hv, fun hi => by simp [Dir.empty] at hi,
        by decide, trivial⟩
    refine hempty.map (by decide) (fun v' hv' => absurd hv' (Nat.not_lt_zero _)) fun v' hv' => ?_
    obtain rfl : v' = 0 := by
      simp only [pgsize] at hv'
      omega
    simp [Dir.map]
  · obtain ⟨-, rfl⟩ := htask hp
    cases hc
  · obtain ⟨-, rfl⟩ := htask hp
    cases hc

end Step

/-! ## The sections of `pagefault`, one after another, are `pagefault` -/

/-- The user half of a directory. -/
def Vm.userDir (s : Vm) (d : ℕ) : Dir where
  tab i := decide (i < kernpage / nptentries) && (s.tab d i).isSome
  pte v := if v < kernpage then s.pte d v else .zero

/-- A state between operations. -/
def Sys.smp (s : Sys) (other user : ℕ → Bool) : Smp where
  freelist := s.vm.freelist
  refcount := s.vm.refcount
  task p := (s.proc p).map fun q => ⟨s.vm.userDir q.pgdir, q.sz, .idle⟩
  other := other
  user := user

theorem Pte.eq_of_flags {e : Pte} (hp : e.p = true) (hw : e.w = false) (hu : e.u = true) :
    e = ⟨e.frame, true, false, true⟩ := by
  cases e
  cases hp
  cases hw
  cases hu
  rfl

section Sections

variable {s : Sys} {p : Fin nproc} {q : Proc} {v : ℕ}

theorem userDir_setPte {s : Vm} {d : ℕ} (htab : s.tab d (v / nptentries) ≠ none)
    (hv : v < kernpage) (e : Pte) (d' : ℕ) : (s.setPte d v e).userDir d' =
      if d' = d then (s.userDir d).set v e else s.userDir d' := by
  have hsome : ∀ i, ((s.setPte d v e).tab d' i).isSome = (s.tab d' i).isSome := by
    intro i
    have := congrFun (congrFun (Vm.tabFrame_setPte s d v e) d') i
    simpa [Vm.tabFrame] using congrArg Option.isSome this
  have hpte : ∀ v', (if v' < kernpage then (s.setPte d v e).pte d' v' else .zero) =
      if d' = d ∧ v' = v then e else if v' < kernpage then s.pte d' v' else .zero := by
    intro v'
    rw [Vm.pte_setPte htab]
    by_cases hc : d' = d ∧ v' = v
    · rw [if_pos hc, if_pos (hc.2 ▸ hv), if_pos hc]
    · rw [if_neg hc, if_neg hc]
  unfold Vm.userDir
  simp only [hsome, hpte]
  split_ifs with hd
  · subst hd
    simp only [Dir.set, Dir.mk.injEq, true_and]
    funext v'
    rw [update_apply]
  · simp [hd]

/-- A directory belongs to one process, so a write to one of its entries concerns that process. -/
theorem smp_setPte {t : Vm} {other user : ℕ → Bool} {e : Pte} (hp : s.proc p = some q)
    (hinj : ∀ p' q', s.proc p' = some q' → q'.pgdir = q.pgdir → p' = p)
    (htab : t.tab = s.vm.tab) (hte : s.vm.tab q.pgdir (v / nptentries) ≠ none) (hv : v < kernpage) :
    Sys.smp { s with vm := t.setPte q.pgdir v e } other user =
      { s.smp other user with freelist := t.freelist, refcount := t.refcount }.setTask p
        (some ⟨(s.vm.userDir q.pgdir).set v e, q.sz, .idle⟩) := by
  have hdir : t.userDir = s.vm.userDir := by
    funext d
    simp only [Vm.userDir, htab, Vm.pte_congr htab]
  simp only [Sys.smp, Smp.setTask, Vm.setPte_freelist, Vm.setPte_refcount, Smp.mk.injEq, and_true,
    true_and]
  funext p'
  rw [update_apply]
  split_ifs with e'
  · subst e'
    simp [hp, userDir_setPte (by rwa [htab]) hv, hdir]
  rcases hq : s.proc p' with _ | q'
  · rfl
  have hne : q'.pgdir ≠ q.pgdir := fun he => e' (hinj p' q' hq he)
  simp [userDir_setPte (s := t) (by rwa [htab]) hv, hne, hdir]

/-- Alone on the machine, the sections of `pagefault` do what `pagefault` does: the first one alone
if no other entry maps the frame, all three, with a new frame `m`, if the frame is shared. -/
theorem pagefault_sections [Link] {va : ℕ} (other user : ℕ → Bool) (hp : s.proc p = some q)
    (hinj : ∀ p' q', s.proc p' = some q' → q'.pgdir = q.pgdir → p' = p) :
    wp (pagefault q.pgdir va) (fun r t => r = .handled →
      let v := va / pgsize
      let count := s.vm.refcount (s.vm.pte q.pgdir v).frame
      (count = 1 ∧ Run SmpStep (s.smp other user) [(p, .fault v)]
        (Sys.smp { s with vm := t } other user)) ∨
      (1 < count ∧ ∃ m, s.vm.freelist.head? = some m ∧
        Run SmpStep (s.smp other user) [(p, .fault v), (p, .alloc), (p, .swap)]
          (Sys.smp { s with vm := t } other (update user m true)))) (fun _ _ => True) s.vm := by
  have htask : (s.smp other user).task p = some ⟨s.vm.userDir q.pgdir, q.sz, .idle⟩ := by
    simp [Sys.smp, hp]
  simp only [pagefault, wp_run, wp_walkpgdir_false]
  split_ifs with hva ht hu hpp hw h1 h2
  all_goals try (intro hr; cases hr)
  all_goals
    have hv : va / pgsize < kernpage := by
      simp only [pgsize, kernbase, kernpage] at *
      omega
    have hppp : (s.vm.pte q.pgdir (va / pgsize)).p = true := by simpa using hpp
    have hww : (s.vm.pte q.pgdir (va / pgsize)).w = false := by simpa using hw
    have huu : (s.vm.pte q.pgdir (va / pgsize)).u = true := by simpa using hu
    have hte := Vm.tab_of_pte hppp
    have he : (s.vm.userDir q.pgdir).pte (va / pgsize) =
        ⟨(s.vm.pte q.pgdir (va / pgsize)).frame, true, false, true⟩ := by
      simp only [Vm.userDir, hv, if_true]
      exact Pte.eq_of_flags hppp hww huu
    have htab : (s.vm.userDir q.pgdir).tab (va / pgsize / nptentries) = true := by
      have hlt : va / pgsize / nptentries < kernpage / nptentries := by
        simp only [kernpage, nptentries] at *
        omega
      simpa [Vm.userDir, hlt, Option.isSome_iff_ne_none] using hte
  · refine .inl ⟨h1, ?_⟩
    rw [smp_setPte hp hinj rfl hte hv, hppp, huu]
    exact .one (.grant htask rfl hv htab he h1)
  simp only [kalloc, wp_run]
  split_ifs with hoom
  · rintro ⟨⟩
  cases hfl : s.vm.freelist with
  | nil => rintro ⟨⟩
  | cons m fs =>
    simp only [wp_run, wp_addRef]
    intro _
    refine .inr ⟨h2, m, rfl, ?_⟩
    rw [smp_setPte hp hinj ?_ hte hv]
    swap
    · rfl
    have hrun := Run.cons (SmpStep.shared htask rfl hv htab he h2)
      (.cons (.alloc (update_self ..) rfl hfl) (.one (.swap (update_self ..) rfl)))
    convert hrun using 1
    simp [Smp.setTask, Smp.take, Smp.addRef, Sys.smp, Vm.addRef, Vm.setMem]

end Sections

/-- A process and its child after `fork`: both directories map frame 200, for reading. -/
def twins : Sys where
  proc p := if p.val = 0 then some ⟨7, pgsize, 8, false⟩ else
    if p.val = 1 then some ⟨8, pgsize, 9, false⟩ else none
  vm := { Vm.start with
    freelist := [300, 301]
    refcount := update (fun _ => 0) 200 2
    pgdir := fun _ => some fun _ => some ⟨9, fun _ => ⟨200, true, false, true⟩⟩ }

theorem pagefault_sections_twins : ∃ t, pagefault 7 0 twins.vm = .ok .handled t ∧
    (let p : Fin nproc := ⟨0, nproc_pos⟩
    Run SmpStep (twins.smp (fun _ => false) (· == 200)) [(p, .fault 0), (p, .alloc), (p, .swap)]
      (Sys.smp { twins with vm := t } (fun _ => false) (update (· == 200) 300 true))) := by
  have hproc : twins.proc ⟨0, nproc_pos⟩ = some ⟨7, pgsize, 8, false⟩ := rfl
  have hrun : pagefault 7 0 twins.vm = .ok .handled _ := rfl
  have hown : ∀ p q, twins.proc p = some q → q.pgdir = 7 → p = ⟨0, nproc_pos⟩ := by
    intro p q hp hq
    ext
    simp only [twins] at hp
    split_ifs at hp with h0 h1
    · exact h0
    · cases hp
      cases hq
  refine ⟨_, hrun, ?_⟩
  rcases wp_ok (pagefault_sections (fun _ => false) (· == 200) hproc hown) hrun rfl
    with ⟨hone, -⟩ | ⟨-, m, hm, hsections⟩
  · cases hone
  · cases hm
    exact hsections

/-! ## The result -/

/-- Without operations in progress, the uses of user frames are the entries. -/
theorem SmpInv.noneLost {s : Smp} (h : SmpInv s) (hq : s.Quiet) : s.NoneLost := by
  intro f hf
  rcases h.pool.used hf with hfree | ⟨u, b, hu, ho⟩
  · exact .inl hfree
  right
  have hholders : holders SmpUse.counted s.own f = (fun x => .page x.1 x.2) '' s.mappings f := by
    ext u
    constructor
    · rintro ⟨hc, b, hu⟩
      rcases u with ⟨p, v⟩ | p | g
      · obtain ⟨t, ht, hu⟩ := Option.bind_eq_some_iff.1 hu
        simp only [Task.own] at hu
        split_ifs at hu with hp
        simp only [Option.some.injEq, Prod.mk.injEq] at hu
        exact ⟨(p, v), ⟨t, ht, hp, hu.1⟩, rfl⟩
      · exact hc.elim
      · exact hc.elim
    · rintro ⟨⟨p, v⟩, ⟨t, ht, hp, rfl⟩, rfl⟩
      exact ⟨trivial, false, (own_page ht v).trans (Task.own_of_p hp)⟩
  have hcard : s.refcount f = ((s.mappings f).ncard : ℤ) := by
    have hcnt := h.pool.wf.cnt_eq f
    have hinj : Injective fun x : Fin nproc × ℕ => SmpUse.page x.1 x.2 := by
      rintro ⟨p, v⟩ ⟨p', v'⟩ e
      cases e
      rfl
    rw [show s.pool.own = s.own from rfl, hholders, Set.ncard_image_of_injective _ hinj] at hcnt
    exact hcnt
  refine ⟨?_, hcard⟩
  rcases u with ⟨p, v⟩ | p | g
  · have hpos : 1 ≤ s.refcount f := h.pool.wf.cnt_pos (SmpUse.counted_page p v) ho
    omega
  · obtain ⟨t, ht, ho⟩ := Option.bind_eq_some_iff.1 ho
    simp [Task.held, hq p t ht] at ho
  · exact hu.elim

/-- While the second section of `pagefault` only ever runs on a frame that is still shared, no frame
is lost: between operations every frame handed out for user memory is free or mapped as often as
counted, and free if its count is 0. -/
theorem no_frame_lost {f : ℕ} {freelist other : List ℕ} {s : Smp} {ls : List (Fin nproc × SmpOp)}
    (hnd : (f :: (freelist ++ other)).Nodup)
    (hrun : Run (given SmpStep StillShared) (.start f freelist other) ls s) (hq : s.Quiet) :
    s.NoneLost ∧ ∀ g, s.user g = true → s.refcount g = 0 → g ∈ s.freelist := by
  have h : SmpInv s := hrun.invariant (SmpInv.start hnd) fun _ _ _ hs hst => smpStep_inv hs hst
  have hlost := h.noneLost hq
  refine ⟨hlost, fun g hg h0 => ?_⟩
  rcases hlost g hg with hfree | ⟨hpos, hcnt⟩
  · exact hfree
  · omega

theorem quiet_of_all {s : Smp}
    (h : ∀ p, ((s.task p).all fun t => decide (t.pc = .idle)) = true) : s.Quiet := by
  intro p t hp
  simpa [hp] using h p

/-- The slots of the first process and of its child. -/
private def p0 : Fin nproc := ⟨0, nproc_pos⟩

private def p1 : Fin nproc := ⟨1, by decide⟩

theorem no_frame_lost_fork : ∃ s : Smp, s.Quiet ∧ s.NoneLost ∧ s.refcount 200 = 1 := by
  have hrun : Run (given SmpStep StillShared) (.start 200 [201, 202, 203] [])
      [(p0, .fork p1), (p0, .copy), (p0, .copy), (p1, .fault 0), (p1, .alloc), (p1, .swap)] _ :=
    .cons ⟨nofun, .fork rfl rfl rfl⟩ <|
    .cons ⟨nofun, .copy rfl rfl (by decide) rfl rfl rfl rfl rfl⟩ <|
    .cons ⟨nofun, .copied rfl rfl (by decide) rfl⟩ <|
    .cons ⟨nofun, .shared rfl rfl (by decide) rfl rfl (by decide)⟩ <|
    .cons ⟨nofun, .alloc rfl rfl rfl⟩ <|
    .one ⟨fun _ t v f m ht hpc => by cases ht; cases hpc; decide, .swap rfl rfl⟩
  refine ⟨_, ?_, (no_frame_lost (by decide) hrun ?_).1, ?_⟩
  · exact quiet_of_all (by decide)
  · exact quiet_of_all (by decide)
  · decide

/-- Two processes write to a page they share.  Both read the count 2 before either has lowered it;
each takes a copy and lowers the count, and the frame is neither mapped nor free. -/
theorem frame_lost : ∃ ls s, Run SmpStep (.start 200 [201, 202, 203] []) ls s ∧ s.Quiet ∧
    ¬ s.NoneLost := by
  have hrun : Run SmpStep (.start 200 [201, 202, 203] [])
      [(p0, .fork p1), (p0, .copy), (p0, .copy), (p0, .fault 0), (p1, .fault 0), (p0, .alloc),
        (p1, .alloc), (p0, .swap), (p1, .swap)] _ :=
    .cons (.fork rfl rfl rfl) <|
    .cons (.copy rfl rfl (by decide) rfl rfl rfl rfl rfl) <|
    .cons (.copied rfl rfl (by decide) rfl) <|
    .cons (.shared rfl rfl (by decide) rfl rfl (by decide)) <|
    .cons (.shared rfl rfl (by decide) rfl rfl (by decide)) <|
    .cons (.alloc rfl rfl rfl) <|
    .cons (.alloc rfl rfl rfl) <|
    .cons (.swap rfl rfl) <|
    .one (.swap rfl rfl)
  refine ⟨_, _, hrun, quiet_of_all (by decide), fun h => ?_⟩
  rcases h 200 (by decide) with hfree | ⟨hpos, hcnt⟩
  · exact absurd hfree (by decide)
  · rw [← Int.natCast_pos, ← hcnt] at hpos
    exact absurd hpos (by decide)

end Xv6

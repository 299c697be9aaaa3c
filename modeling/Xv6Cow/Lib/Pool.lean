import Xv6Cow.Lib.Own

/-!
# Reference-counted pools

A pool hands out elements of `F` from a free list to uses in `U`: `own u = some (f, b)` says that
`u` holds `f`, and the flag `b` that it holds `f` alone.  Some uses are counted, and `cnt f` is the
number of counted uses that hold `f`; the others hold their element alone.
-/

namespace Lts

open Function

/-- The uses of a pool's elements, its free list and its reference counts. -/
structure Pool (U F : Type) where
  own : U → Option (F × Bool)
  free : List F
  cnt : F → ℤ

namespace Pool

variable {U F : Type} {counted : U → Prop} {A : Set F}

/-- The counted uses that hold `f`. -/
def holders (counted : U → Prop) (own : U → Option (F × Bool)) (f : F) : Set U :=
  {u | counted u ∧ ∃ b, own u = some (f, b)}

/-- The invariant of a pool whose elements come from `A`. -/
structure Wf (counted : U → Prop) (A : Set F) (P : Pool U F) : Prop where
  free_mem : ∀ {f}, f ∈ P.free → f ∈ A
  own_mem : ∀ {u f b}, P.own u = some (f, b) → f ∈ A
  finite : {u | P.own u ≠ none}.Finite
  nodup : P.free.Nodup
  used : ∀ {u f b}, P.own u = some (f, b) → f ∉ P.free
  alone : ∀ {u v f b}, P.own u = some (f, true) → P.own v = some (f, b) → v = u
  uncounted : ∀ {u f b}, P.own u = some (f, b) → ¬ counted u → b = true
  cnt_eq : ∀ f, P.cnt f = ((holders counted P.own f).ncard : ℤ)

/-- Neither free nor held. -/
def Loose (A : Set F) (P : Pool U F) (f : F) : Prop :=
  f ∈ A ∧ f ∉ P.free ∧ ∀ u b, P.own u ≠ some (f, b)

theorem finite_holders {own : U → Option (F × Bool)} (h : {u | own u ≠ none}.Finite) (f : F) :
    (holders counted own f).Finite := by
  refine h.subset ?_
  rintro u ⟨-, b, hu⟩
  simp [hu]

theorem holders_diff {own : U → Option (F × Bool)} {u : U} {g : F}
    (h : ∀ b, own u ≠ some (g, b)) : holders counted own g \ {u} = holders counted own g := by
  refine Set.sdiff_singleton_eq_self ?_
  rintro ⟨-, b, hu⟩
  exact h b hu

section Update

variable [DecidableEq U] (own : U → Option (F × Bool))

theorem finite_update {own : U → Option (F × Bool)} (h : {u | own u ≠ none}.Finite) (u : U)
    (x : Option (F × Bool)) : {v | update own u x v ≠ none}.Finite := by
  refine (h.insert u).subset fun v hv => ?_
  by_cases e : v = u
  · exact Or.inl e
  · right
    simpa [update_of_ne e] using hv

theorem holders_update_of_not_counted {u : U} (hu : ¬ counted u) (x : Option (F × Bool)) (g : F) :
    holders counted (update own u x) g = holders counted own g := by
  ext v
  by_cases e : v = u
  · subst e
    simp [holders, hu]
  · simp [holders, e]

theorem holders_update_self {u : U} (hu : counted u) (f : F) (b : Bool) :
    holders counted (update own u (some (f, b))) f = insert u (holders counted own f) := by
  ext v
  by_cases e : v = u
  · subst e
    simp [holders, hu]
  · simp [holders, e]

theorem holders_update_of_ne (u : U) {x : Option (F × Bool)} {g : F} (hx : ∀ b, x ≠ some (g, b)) :
    holders counted (update own u x) g = holders counted own g \ {u} := by
  ext v
  by_cases e : v = u
  · subst e
    simp [holders, hx]
  · simp [holders, e]

end Update

variable {P : Pool U F} {u v : U} {f g : F} {b : Bool}

namespace Wf

section

variable (h : Wf counted A P)

include h

theorem cnt_eq_zero (hno : ∀ u b, counted u → P.own u ≠ some (f, b)) : P.cnt f = 0 := by
  have hempty : holders counted P.own f = ∅ := by
    refine Set.eq_empty_of_forall_notMem ?_
    rintro u ⟨hu, b, ho⟩
    exact hno u b hu ho
  rw [h.cnt_eq, hempty, Set.ncard_empty]
  rfl

theorem cnt_free (hf : f ∈ P.free) : P.cnt f = 0 := h.cnt_eq_zero fun _ _ _ hu => h.used hu hf

theorem cnt_pos (hu : counted u) (ho : P.own u = some (f, b)) : 1 ≤ P.cnt f := by
  have : 0 < (holders counted P.own f).ncard :=
    (Set.ncard_pos (finite_holders h.finite f)).2 ⟨u, hu, b, ho⟩
  rw [h.cnt_eq]
  omega

theorem cnt_uncounted (hu : ¬ counted u) (ho : P.own u = some (f, b)) : P.cnt f = 0 := by
  obtain rfl := h.uncounted ho hu
  exact h.cnt_eq_zero fun v b' hv hv' => hu (h.alone ho hv' ▸ hv)

/-- With count one, a counted use holds its element alone. -/
theorem alone_of_cnt_one (hu : counted u) (ho : P.own u = some (f, b))
    (h1 : P.cnt f = 1) {b' : Bool} (hv : P.own v = some (f, b')) : v = u := by
  by_cases hc : counted v
  · have hcard : (holders counted P.own f).ncard = 1 := by
      have := h.cnt_eq f
      omega
    obtain ⟨w, hw⟩ := Set.ncard_eq_one.1 hcard
    have hu' : u ∈ holders counted P.own f := ⟨hu, b, ho⟩
    have hv' : v ∈ holders counted P.own f := ⟨hc, b', hv⟩
    rw [hw, Set.mem_singleton_iff] at hu' hv'
    rw [hu', hv']
  · have := h.cnt_uncounted hc hv
    omega

theorem pop {fs : List F} (hf : P.free = f :: fs) :
    Wf counted A { P with free := fs } ∧ Loose A { P with free := fs } f := by
  have hnd := h.nodup
  rw [hf, List.nodup_cons] at hnd
  have hsub : ∀ {g}, g ∈ fs → g ∈ P.free := fun hg => by
    rw [hf]
    exact List.mem_cons_of_mem _ hg
  have hhead : f ∈ P.free := by simp [hf]
  refine ⟨⟨fun hg => h.free_mem (hsub hg), h.own_mem, h.finite, hnd.2,
    fun hw hm => h.used hw (hsub hm), h.alone, h.uncounted, h.cnt_eq⟩,
    h.free_mem hhead, hnd.1, fun u b hu => h.used hu hhead⟩

theorem push (hf : P.Loose A f) : Wf counted A { P with free := f :: P.free } := by
  obtain ⟨hA, hfree, hown⟩ := hf
  refine ⟨fun {g} hg => ?_, h.own_mem, h.finite, List.nodup_cons.2 ⟨hfree, h.nodup⟩,
    fun {w g c} hw hm => ?_, h.alone, h.uncounted, h.cnt_eq⟩
  · rcases List.mem_cons.1 hg with rfl | hg
    · exact hA
    · exact h.free_mem hg
  · rcases List.mem_cons.1 hm with rfl | hm
    · exact hown _ _ hw
    · exact h.used hw hm

theorem perm {fs : List F} (hp : fs.Perm P.free) : Wf counted A { P with free := fs } :=
  ⟨fun hg => h.free_mem (hp.subset hg), h.own_mem, h.finite, hp.nodup_iff.2 h.nodup,
    fun hw hm => h.used hw (hp.subset hm), h.alone, h.uncounted, h.cnt_eq⟩

theorem mono {B : Set F} (hAB : A ⊆ B) : Wf counted B P :=
  ⟨fun hg => hAB (h.free_mem hg), fun hg => hAB (h.own_mem hg), h.finite, h.nodup, h.used, h.alone,
    h.uncounted, h.cnt_eq⟩

end

/-! ### Uses -/

section Update

variable [DecidableEq U]

theorem of_update_none {own : U → Option (F × Bool)} {c : Bool}
    (hv : update own u none v = some (g, c)) : v ≠ u ∧ own v = some (g, c) := by
  by_cases e : v = u
  · rw [e, update_self] at hv
    cases hv
  · exact ⟨e, by rwa [update_of_ne e] at hv⟩

/-- The shape part of taking what a use holds. -/
private theorem update_none (h : Wf counted A P) (cnt' : F → ℤ)
    (hcnt : ∀ g, cnt' g = ((holders counted (update P.own u none) g).ncard : ℤ)) :
    Wf counted A { P with own := update P.own u none, cnt := cnt' } :=
  ⟨h.free_mem, fun hw => h.own_mem (of_update_none hw).2, finite_update h.finite _ _, h.nodup,
    fun hw => h.used (of_update_none hw).2,
    fun hw hw' => h.alone (of_update_none hw).2 (of_update_none hw').2,
    fun hw => h.uncounted (of_update_none hw).2, hcnt⟩

theorem clear (h : Wf counted A P) (hu : ¬ counted u) (ho : P.own u = some (f, b)) :
    Wf counted A { P with own := update P.own u none } ∧
      Loose A { P with own := update P.own u none } f := by
  obtain rfl := h.uncounted ho hu
  refine ⟨h.update_none _ fun g => ?_, h.own_mem ho, h.used ho, fun w c hw => ?_⟩
  · rw [holders_update_of_not_counted _ hu]
    exact h.cnt_eq g
  · obtain ⟨hne, hw⟩ := of_update_none hw
    exact hne (h.alone ho hw)

theorem drop [DecidableEq F] (h : Wf counted A P) (hu : counted u) (ho : P.own u = some (f, b)) :
    Wf counted A { P with own := update P.own u none
                          cnt := update P.cnt f (P.cnt f - 1) } := by
  refine h.update_none _ fun g => ?_
  rw [holders_update_of_ne _ _ (by simp)]
  by_cases e : g = f
  · subst e
    have hmem : u ∈ holders counted P.own g := ⟨hu, b, ho⟩
    have hpos := h.cnt_pos hu ho
    have := Set.ncard_sdiff_singleton_of_mem hmem
    rw [update_self, this, h.cnt_eq g]
    have := h.cnt_eq g
    omega
  · rw [update_of_ne e, holders_diff, h.cnt_eq]
    intro c hc
    rw [ho] at hc
    exact e (by simpa using (congrArg (Option.map Prod.fst) hc).symm)

theorem loose_of_drop [DecidableEq F] (h : Wf counted A P) (ho : P.own u = some (f, b))
    (h1 : ∀ {v c}, P.own v = some (f, c) → v = u) :
    Loose A { P with own := update P.own u none
                     cnt := update P.cnt f (P.cnt f - 1) } f := by
  refine ⟨h.own_mem ho, h.used ho, fun w c hw => ?_⟩
  obtain ⟨hne, hw⟩ := of_update_none hw
  exact hne (h1 hw)

/-- The shape part of giving `f` to a use that held nothing. -/
private theorem update_some (h : Wf counted A P) (hA : f ∈ A) (hfree : f ∉ P.free)
    (hb : ∀ w c, P.own w = some (f, c) → b = false ∧ c = false)
    (huc : ¬ counted u → b = true) (cnt' : F → ℤ)
    (hcnt : ∀ g, cnt' g = ((holders counted (update P.own u (some (f, b))) g).ncard : ℤ)) :
    Wf counted A { P with own := update P.own u (some (f, b)), cnt := cnt' } := by
  refine ⟨h.free_mem, ?_, finite_update h.finite _ _, h.nodup, ?_, ?_, ?_, hcnt⟩
  · intro w g c hw
    rcases of_update_some hw with ⟨-, e⟩ | ⟨-, hw⟩
    · cases e
      exact hA
    · exact h.own_mem hw
  · intro w g c hw
    rcases of_update_some hw with ⟨-, e⟩ | ⟨-, hw⟩
    · cases e
      exact hfree
    · exact h.used hw
  · intro w w' g c hw hw'
    rcases of_update_some hw with ⟨rfl, e⟩ | ⟨-, hw⟩
    · cases e
      rcases of_update_some hw' with ⟨rfl, -⟩ | ⟨-, hw'⟩
      · rfl
      · cases (hb w' c hw').1
    · rcases of_update_some hw' with ⟨-, e⟩ | ⟨-, hw'⟩
      · cases e
        cases (hb w true hw).2
      · exact h.alone hw hw'
  · intro w g c hw hc
    rcases of_update_some hw with ⟨rfl, e⟩ | ⟨-, hw⟩
    · cases e
      exact huc hc
    · exact h.uncounted hw hc

theorem assign (h : Wf counted A P) (hf : P.Loose A f) (hu : ¬ counted u) :
    Wf counted A { P with own := update P.own u (some (f, true)) } := by
  refine h.update_some hf.1 hf.2.1 (fun w c hw => absurd hw (hf.2.2 w c))
    (fun _ => rfl) P.cnt fun g => ?_
  rw [holders_update_of_not_counted _ hu]
  exact h.cnt_eq g

private theorem ncard_update_some [DecidableEq F] (h : Wf counted A P) (hu : counted u)
    (hn : P.own u = none) (g : F) : update P.cnt f (P.cnt f + 1) g =
      ((holders counted (update P.own u (some (f, b))) g).ncard : ℤ) := by
  by_cases e : g = f
  · subst e
    have hmem : u ∉ holders counted P.own g := by
      rintro ⟨-, c, hc⟩
      rw [hn] at hc
      cases hc
    rw [update_self, holders_update_self _ hu,
      Set.ncard_insert_of_notMem hmem (finite_holders h.finite g), h.cnt_eq]
    push_cast
    rfl
  · rw [update_of_ne e, holders_update_of_ne, holders_diff, h.cnt_eq]
    · simp [hn]
    · intro c hc
      simp only [Option.some.injEq, Prod.mk.injEq] at hc
      exact e hc.1.symm

theorem count [DecidableEq F] (h : Wf counted A P) (hf : P.Loose A f) (hu : counted u)
    (hn : P.own u = none) (b : Bool) :
    Wf counted A { P with own := update P.own u (some (f, b))
                          cnt := update P.cnt f (P.cnt f + 1) } :=
  h.update_some hf.1 hf.2.1 (fun w c hw => absurd hw (hf.2.2 w c)) (fun hc => absurd hu hc) _
    (h.ncard_update_some hu hn)

/-- A second counted use shares the element of a counted use that does not hold it alone. -/
theorem share [DecidableEq F] (h : Wf counted A P) (ho : P.own v = some (f, false))
    (hu : counted u) (hn : P.own u = none) :
    Wf counted A { P with own := update P.own u (some (f, false))
                          cnt := update P.cnt f (P.cnt f + 1) } := by
  refine h.update_some (h.own_mem ho) (h.used ho) (fun w c hw => ⟨rfl, ?_⟩) (fun hc => absurd hu hc) _
    (h.ncard_update_some hu hn)
  cases c with
  | false => rfl
  | true =>
    obtain rfl := h.alone hw ho
    rw [ho] at hw
    simp at hw

private theorem holders_reflag (ho : P.own u = some (f, b)) (c : Bool) (g : F) :
    holders counted (update P.own u (some (f, c))) g = holders counted P.own g := by
  ext w
  by_cases e : w = u
  · subst e
    have hex : ∀ d : Bool, (∃ d', some (f, d) = some (g, d')) ↔ f = g := by simp
    simp only [holders, Set.mem_ofPred_eq, update_self, ho, hex]
  · simp [holders, e]

theorem reflag (h : Wf counted A P) (hu : counted u) (ho : P.own u = some (f, b)) (c : Bool)
    (hc : c = true → b = true ∨ P.cnt f = 1) :
    Wf counted A { P with own := update P.own u (some (f, c)) } := by
  have hback : ∀ {w g d}, update P.own u (some (f, c)) w = some (g, d) → ∃ d',
    P.own w = some (g, d') := by
    intro w g d hw
    rcases of_update_some hw with ⟨rfl, e⟩ | ⟨-, hw⟩
    · cases e
      exact ⟨b, ho⟩
    · exact ⟨d, hw⟩
  refine ⟨h.free_mem, fun hw => ?_, finite_update h.finite _ _, h.nodup, fun hw => ?_, fun hw hw' => ?_,
    fun {w g d} hw hd => ?_, fun g => ?_⟩
  · exact h.own_mem (hback hw).choose_spec
  · exact h.used (hback hw).choose_spec
  · obtain ⟨d, hown⟩ := hback hw'
    rcases of_update_some hw with ⟨rfl, e⟩ | ⟨-, hw⟩
    · cases e
      rcases hc rfl with rfl | h1
      · exact h.alone ho hown
      · exact h.alone_of_cnt_one hu ho h1 hown
    · exact h.alone hw hown
  · have e : w ≠ u := fun e => hd (e ▸ hu)
    dsimp only at hw
    rw [update_of_ne e] at hw
    exact h.uncounted hw hd
  · rw [holders_reflag ho]
    exact h.cnt_eq g

end Update

end Wf

end Pool

end Lts

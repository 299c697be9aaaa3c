import Xv6Cow.Vm.Args

/-!
# Reference counts never wrap

A count is kept in a signed `char`, and `Inv` says that it is the number of entries that map the
frame.  No directory maps a frame twice, and every directory that maps user pages belongs to a
process, because no operation touches the directories of others.  So a frame is mapped at most
`NPROC` times.
-/

namespace Xv6

open Lts

variable {k : Option ℕ} {s : Sys}

/-- The processes that map frame `f`. -/
def Sys.mappers (s : Sys) (f : ℕ) : Set (Fin nproc) :=
  {p | ∃ q v b, s.proc p = some q ∧ s.vm.upage q.pgdir v = some (f, b)}

/-- The directory of a process, by its slot. -/
def Sys.pgdirOf (s : Sys) (p : Fin nproc) : ℕ := ((s.proc p).map Proc.pgdir).getD 0

/-- A directory that maps a page is the directory of a process. -/
theorem KernInv.owner_of_upage [Link] (h : KernInv k s) {d v f : ℕ} {b : Bool}
    (hu : s.vm.upage d v = some (f, b)) : ∃ p ∈ s.mappers f, s.pgdirOf p = d := by
  rcases h.dirs (live_of_upage hu) with hd | ⟨p, q, hp, rfl⟩
  · rw [h.empty hd] at hu
    cases hu
  · exact ⟨p, ⟨q, v, b, hp, hu⟩, by simp [Sys.pgdirOf, hp]⟩

/-- The directories that map a frame are as many as the processes that do. -/
theorem KernInv.ncard_mappers [Link] (h : KernInv k s) (f : ℕ) :
    ({d | ∃ v b, s.vm.upage d v = some (f, b)} : Set ℕ).ncard = (s.mappers f).ncard := by
  have himage : ({d | ∃ v b, s.vm.upage d v = some (f, b)} : Set ℕ) = s.pgdirOf '' s.mappers f := by
    ext d
    constructor
    · rintro ⟨v, b, hu⟩
      exact h.owner_of_upage hu
    · rintro ⟨p, ⟨q, v, b, hp, hu⟩, rfl⟩
      exact ⟨v, b, by simpa [Sys.pgdirOf, hp] using hu⟩
  rw [himage, Set.InjOn.ncard_image]
  rintro p ⟨q, -, -, hp, -⟩ p' ⟨q', -, -, hp', -⟩ he
  exact h.pgdir_inj hp hp' (by simpa [Sys.pgdirOf, hp, hp'] using he)

/-- A frame that nothing maps is counted at most once: `allocuvm` counted it and could not map it. -/
theorem Inv.refcount_unmapped {A H L : Set ℕ} {v : Vm} {f : ℕ} (h : Inv A H L v)
    (hf : ∀ d w b, v.upage d w ≠ some (f, b)) : v.refcount f ≤ 1 := by
  have hcnt : v.refcount f = ((Pool.holders Use.counted (v.owner H L) f).ncard : ℤ) := h.wf.cnt_eq f
  have hsub : Pool.holders Use.counted (v.owner H L) f ⊆ {.leaked f} := by
    rintro u ⟨hc, b, hb⟩
    cases u with
    | page d w => exact absurd hb (hf d w b)
    | leaked g =>
      rw [(owner_leaked hb).1]
      exact Set.mem_singleton _
    | dir _ => exact hc.elim
    | table _ _ => exact hc.elim
    | held _ => exact hc.elim
  have := Set.ncard_le_ncard hsub (Set.finite_singleton _)
  rw [Set.ncard_singleton] at this
  omega

/-- In every reachable state no update of a count has overflowed; no directory maps a frame twice, and
only directories of processes map frames; every count is between 0 and `NPROC`, and the count of a
mapped frame is the number of processes that map it. -/
theorem refcounts_exact [Image] (h : Reachable k s) :
    s.vm.wrapped = false ∧
    (∀ d v v' f b b', s.vm.upage d v = some (f, b) → s.vm.upage d v' = some (f, b') → v = v') ∧
    (∀ d v f b, s.vm.upage d v = some (f, b) → ∃ p ∈ s.mappers f, s.pgdirOf p = d) ∧
    ∀ f, (s.mappers f).ncard ≤ nproc ∧ 0 ≤ s.vm.refcount f ∧ s.vm.refcount f ≤ nproc ∧
      ((s.mappers f).Nonempty → s.vm.refcount f = (s.mappers f).ncard) := by
  have hs := h.kernInv
  obtain ⟨L, hI⟩ := hs.inv
  have hcount : ∀ {d v f b}, s.vm.upage d v = some (f, b) → s.vm.refcount f = (s.mappers f).ncard := by
    intro d v f b hu
    rw [hI.refcount_eq hu, hs.ncard_mappers f]
  have hle : ∀ f, (s.mappers f).ncard ≤ nproc := fun f => by
    have := Set.ncard_le_card (s.mappers f)
    simpa using this
  refine ⟨hI.exact, fun d v v' f b b' h1 h2 => hI.inj h1 h2, fun d v f b hu => hs.owner_of_upage hu,
    fun f => ⟨hle f, hI.nonneg f, ?_, ?_⟩⟩
  · by_cases hmap : ∃ d v b, s.vm.upage d v = some (f, b)
    · obtain ⟨d, v, b, hu⟩ := hmap
      rw [hcount hu]
      exact_mod_cast hle f
    · refine (hI.refcount_unmapped fun d v b hu => hmap ⟨d, v, b, hu⟩).trans ?_
      decide
  · rintro ⟨p, q, v, b, hp, hu⟩
    exact hcount hu

/-- After `fork` the page of the first process is counted twice. -/
theorem refcounts_exact_fork : ∃ k s f, Reachable k s ∧ s.vm.wrapped = false ∧ s.vm.refcount f = 2 ∧
    (s.mappers f).ncard = 2 := by
  obtain ⟨k, s, q, f, hreach, hp, -, hpte, htwo, -⟩ := boot_fork_oom
  obtain ⟨hexact, -, -, hall⟩ := refcounts_exact hreach
  obtain ⟨-, -, -, hcount⟩ := hall f
  have hu : s.vm.upage q.pgdir 0 = some (f, false) := by simp [Vm.upage, hpte, kernpage]
  have hcard := hcount ⟨_, q, 0, false, hp, hu⟩
  rw [htwo] at hcard
  exact ⟨k, s, f, hreach, hexact, htwo, by exact_mod_cast hcard.symm⟩

end Xv6

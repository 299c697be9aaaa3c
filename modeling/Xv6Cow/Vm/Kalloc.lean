import Xv6Cow.Lib.Run
import Xv6Cow.Vm.Memory

/-!
# The free list and its counter (`kalloc.c`)

The page allocator with its list as it is kept in memory: a free page holds the address of the next one
in its first word.  Pages are addresses, and 0 is the null pointer.  Whoever holds a page may write its
first word; the other bytes of a page play no part.  `numFreePages` is an `int`.

The last two fields of `Kmem` record a run.
-/

namespace Xv6.Kalloc

open Function Lts

/-- What an `int` holds after a sum is stored in it. -/
def toInt (n : ℤ) : ℤ := (n + 2 ^ 31) % 2 ^ 32 - 2 ^ 31

structure Kmem where
  useLock : Bool
  freelist : ℕ
  /-- The first word of each page: `((struct run*)v)->next`. -/
  next : ℕ → ℕ
  numFreePages : ℤ
  out : List ℕ
  failed : ℕ

/-- `PGROUNDUP`, for addresses of the kernel half. -/
def roundup (a : ℕ) : ℕ := (a + pgsize - 1) / pgsize * pgsize

/-- The first address that `kinit1` leaves to `kinit2`, `P2V(4*1024*1024)`. -/
def low : ℕ := kernbase + 0x400000

/-- `P2V(PHYSTOP)`. -/
def high : ℕ := kernbase + phystop

def kalloc (s : Kmem) : Kmem :=
  let s := { s with numFreePages := toInt (s.numFreePages - 1) }
  if s.freelist = 0 then { s with failed := s.failed + 1 }
  else { s with freelist := s.next s.freelist, out := s.freelist :: s.out }

def getNumFreePages (s : Kmem) : ℤ := s.numFreePages

section Link

variable [Link]

/-- `kfree`; none for a panic. -/
def kfree (v : ℕ) (s : Kmem) : Option Kmem :=
  let s := { s with numFreePages := toInt (s.numFreePages + 1) }
  if v % pgsize ≠ 0 ∨ v < Link.kend ∨ phystop ≤ v - kernbase then none
  else some { s with next := update s.next v s.freelist, freelist := v }

/-- The loop of `freerange`, from `p` on. -/
def freerange (p vend : ℕ) (s : Kmem) : Option Kmem :=
  if p + pgsize ≤ vend then (kfree p s).bind (freerange (p + pgsize) vend)
  else some s
termination_by vend - p
decreasing_by
  simp only [pgsize] at *
  omega

/-- The allocator before `main`. -/
def Kmem.start : Kmem := ⟨false, 0, fun _ => 0, 0, [], 0⟩

/-- `kinit1(end, P2V(4*1024*1024))`. -/
def kinit1 : Option Kmem :=
  (freerange (roundup Link.kend) low .start).map fun s => { s with numFreePages := 0 }

/-- `kinit2(P2V(4*1024*1024), P2V(PHYSTOP))`. -/
def kinit2 (s : Kmem) : Option Kmem := (freerange low high s).map fun s => { s with useLock := true }

end Link

inductive Op
  | kinit2
  | kalloc
  | kfree (v : ℕ)
  /-- The holder of a page writes its first word. -/
  | store (v w : ℕ)

/-- One call.  `kinit2` is called once, and pages are freed and written by those who hold them. -/
def step [Link] (s : Kmem) : Op → Option Kmem
  | .kinit2 => if s.useLock then none else kinit2 s
  | .kalloc => some (kalloc s)
  | .kfree v => if v ∈ s.out then (kfree v s).map fun t => { t with out := t.out.erase v } else none
  | .store v w => if v ∈ s.out then some { s with next := update s.next v w } else none

/-! ## The list -/

/-- The pages that are reached from `p` through `next`. -/
def Path (next : ℕ → ℕ) : ℕ → List ℕ → Prop
  | p, [] => p = 0
  | p, v :: l => p = v ∧ v ≠ 0 ∧ Path next (next v) l

theorem Path.update {next : ℕ → ℕ} {v w : ℕ} {l : List ℕ} (hv : v ∉ l) :
    ∀ {p}, Path next p l → Path (update next v w) p l := by
  induction l with
  | nil => exact id
  | cons x l ih =>
    rintro p ⟨rfl, hx, hl⟩
    have hne : p ≠ v := fun heq => hv (heq ▸ List.mem_cons_self)
    refine ⟨rfl, hx, ?_⟩
    rw [update_of_ne hne]
    exact ih (fun hmem => hv (List.mem_cons_of_mem _ hmem)) hl

/-- A page of the allocator, below `top`. -/
def IsPage [Link] (top v : ℕ) : Prop := v % pgsize = 0 ∧ Link.kend ≤ v ∧ v < top

/-- The list is `l`; the counter has missed `early` pages and the failed calls of `kalloc`. -/
structure Ok [Link] (top early : ℕ) (s : Kmem) (l : List ℕ) : Prop where
  path : Path s.next s.freelist l
  nodup : (l ++ s.out).Nodup
  pages : ∀ v ∈ l ++ s.out, IsPage top v
  count : s.numFreePages = toInt (l.length - (early + s.failed))

section Ok

variable [Link] {top early : ℕ} {s : Kmem} {l : List ℕ} {v w : ℕ}

section

variable (h : Ok top early s l)

include h

theorem Ok.length_lt (htop : top ≤ high) : l.length < 2 ^ 31 := by
  have hnd : (l.map (· / pgsize)).Nodup := by
    refine List.Nodup.map_on (fun a ha b hb hab => ?_) (List.nodup_append'.1 h.nodup).1
    have ha' := (h.pages a (List.mem_append_left _ ha)).1
    have hb' := (h.pages b (List.mem_append_left _ hb)).1
    simp only [pgsize] at *
    omega
  have hsub : (l.map (· / pgsize)).toFinset ⊆ Finset.range (2 ^ 20) := fun x hx => by
    obtain ⟨a, ha, rfl⟩ := List.mem_map.1 (List.mem_toFinset.1 hx)
    have ha' := (h.pages a (List.mem_append_left _ ha)).2.2
    simp only [high, kernbase, phystop, pgsize, Finset.mem_range] at *
    omega
  have hcard := Finset.card_le_card hsub
  rw [List.toFinset_card_of_nodup hnd, List.length_map, Finset.card_range] at hcard
  omega

/-- The counter is right if it has missed nothing, or a multiple of 2^32. -/
theorem Ok.count_iff (htop : top ≤ high) :
    getNumFreePages s = l.length ↔ (early + s.failed) % 2 ^ 32 = 0 := by
  have hlen := h.length_lt htop
  unfold getNumFreePages
  rw [h.count]
  unfold toInt
  omega

theorem Ok.kalloc : ∃ l', Ok top early (kalloc s) l' := by
  unfold Kalloc.kalloc
  cases l with
  | nil =>
    have hnull : s.freelist = 0 := h.path
    refine ⟨[], ?_⟩
    simp only [hnull, if_true]
    refine ⟨rfl, h.nodup, h.pages, ?_⟩
    rw [h.count]
    simp only [toInt, List.length_nil]
    omega
  | cons v l =>
    obtain ⟨hfree, hv, hl⟩ := h.path
    refine ⟨l, ?_⟩
    simp only [hfree, hv, if_false]
    have hperm : (l ++ v :: s.out).Perm (v :: l ++ s.out) := List.perm_middle
    refine ⟨hl, hperm.nodup_iff.2 h.nodup, fun a ha => h.pages a (hperm.mem_iff.1 ha), ?_⟩
    rw [h.count]
    simp only [toInt, List.length_cons]
    push_cast
    omega

theorem Ok.push (hpage : IsPage top v) (htop : top ≤ high) (hfresh : v ∉ l ++ s.out) :
    ∃ t, kfree v s = some t ∧ t.out = s.out ∧ t.useLock = s.useLock ∧ t.failed = s.failed ∧
      Ok top early t (v :: l) := by
  obtain ⟨halign, hend, hlt⟩ := hpage
  have hkend := Link.kernlink_lt_data.trans_le Link.data_le_kend
  have hcheck : ¬ (v % pgsize ≠ 0 ∨ v < Link.kend ∨ phystop ≤ v - kernbase) := by
    simp only [high, phystop, kernbase, kernlink, extmem] at *
    omega
  have hzero : v ≠ 0 := by
    simp only [kernlink, kernbase, extmem] at hkend
    omega
  unfold Kalloc.kfree
  rw [if_neg hcheck]
  refine ⟨_, rfl, rfl, rfl, rfl, ⟨rfl, hzero, ?_⟩, List.nodup_cons.2 ⟨hfresh, h.nodup⟩, ?_, ?_⟩
  · simp only [update_self]
    exact h.path.update fun hmem => hfresh (List.mem_append_left _ hmem)
  · rintro a (_ | ⟨_, ha⟩)
    · exact ⟨halign, hend, hlt⟩
    · exact h.pages a ha
  · simp only [h.count, toInt, List.length_cons]
    push_cast
    omega

theorem Ok.kfree (htop : top ≤ high) (hv : v ∈ s.out) :
    ∃ t, kfree v s = some t ∧ t.useLock = s.useLock ∧ Ok top early
      { t with out := t.out.erase v } (v :: l) := by
  have hperm : (l ++ s.out).Perm (v :: (l ++ s.out.erase v)) :=
    ((List.perm_cons_erase hv).append_left l).trans List.perm_middle
  have hnd := List.nodup_cons.1 (hperm.nodup_iff.1 h.nodup)
  -- the page is in nobody's hands while it is put on the list
  have hloose : Ok top early { s with out := s.out.erase v } l :=
    ⟨h.path, hnd.2, fun a ha => h.pages a (hperm.mem_iff.2 (List.mem_cons_of_mem _ ha)), h.count⟩
  have hpage := h.pages v (List.mem_append_right _ hv)
  obtain ⟨t, ht, -, huse, -, hok⟩ := hloose.push hpage htop hnd.1
  simp only [Kalloc.kfree] at ht ⊢
  split_ifs at ht ⊢
  obtain rfl := Option.some.inj ht
  exact ⟨_, rfl, huse, hok.path, hok.nodup, hok.pages, hok.count⟩

theorem Ok.store (hv : v ∈ s.out) : Ok top early { s with next := update s.next v w } l := by
  have hdis := (List.nodup_append'.1 h.nodup).2.2
  exact ⟨h.path.update fun hmem => hdis hmem hv, h.nodup, h.pages, h.count⟩

end

theorem Ok.mono {top' : ℕ} (h : Ok top early s l) (hle : top ≤ top') : Ok top' early s l :=
  ⟨h.path, h.nodup, fun v hv => ⟨(h.pages v hv).1, (h.pages v hv).2.1, (h.pages v hv).2.2.trans_le hle⟩,
    h.count⟩

theorem Ok.freerange (n : ℕ) : ∀ {p : ℕ} {s : Kmem} {l : List ℕ}, Ok p early s l → p % pgsize = 0 →
    Link.kend ≤ p → p + n * pgsize ≤ high →
    ∃ t l', freerange p (p + n * pgsize) s = some t ∧ t.useLock = s.useLock ∧ t.failed = s.failed ∧
      l'.length = l.length + n ∧ Ok (p + n * pgsize) early t l' := by
  induction n with
  | zero =>
    intro p s l h _ _ _
    have hstop : ¬ p + pgsize ≤ p + 0 * pgsize := by
      unfold pgsize
      omega
    rw [Kalloc.freerange, if_neg hstop]
    exact ⟨s, l, rfl, rfl, rfl, rfl, by rwa [Nat.zero_mul]⟩
  | succ n ih =>
    intro p s l h hp hend hhigh
    have hsum : p + (n + 1) * pgsize = p + pgsize + n * pgsize := by ring
    rw [hsum] at hhigh ⊢
    have hfresh : p ∉ l ++ s.out := fun hmem => lt_irrefl _ (h.pages p hmem).2.2
    have hpage : IsPage (p + pgsize) p := by
      refine ⟨hp, hend, ?_⟩
      unfold pgsize
      omega
    have hle : p + pgsize ≤ high := (Nat.le_add_right _ _).trans hhigh
    obtain ⟨t, ht, -, huse, hfailed, hok⟩ := (h.mono (Nat.le_add_right p pgsize)).push hpage hle hfresh
    have hp' : (p + pgsize) % pgsize = 0 := by
      rw [Nat.add_mod_right]
      exact hp
    obtain ⟨u, l', hu, huse', hfailed', hlen, hok'⟩ := ih hok hp'
      (hend.trans (Nat.le_add_right _ _)) hhigh
    refine ⟨u, l', ?_, huse'.trans huse, hfailed'.trans hfailed, ?_, hok'⟩
    · rw [Kalloc.freerange, if_pos (Nat.le_add_right _ _), ht, Option.bind_some]
      exact hu
    · rw [hlen, List.length_cons]
      omega

end Ok

/-! ## Runs -/

section Runs

/-- Where the pages that have been freed end. -/
def Kmem.top (s : Kmem) : ℕ := if s.useLock then high else low

theorem Kmem.top_le (s : Kmem) : s.top ≤ high := by
  unfold top
  split
  · exact le_rfl
  · decide

theorem roundup_mod (a : ℕ) : roundup a % pgsize = 0 := Nat.mul_mod_left _ _

variable [Image]

/-- The number of pages that `kinit1` frees. -/
def earlyPages : ℕ := (low - roundup Link.kend) / pgsize

theorem kinit1_ok : ∃ s l, kinit1 = some s ∧ s.useLock = false ∧ s.failed = 0 ∧ s.numFreePages = 0 ∧
    l.length = earlyPages ∧ Ok s.top earlyPages s l := by
  have hkend := Image.kend_le
  have hle : roundup Link.kend ≤ low := by
    unfold roundup low
    unfold kernbase at *
    unfold pgsize
    omega
  have hdvd : pgsize ∣ low - roundup Link.kend :=
    Nat.dvd_sub (by decide) (Nat.dvd_of_mod_eq_zero (roundup_mod _))
  have hlow : roundup Link.kend + earlyPages * pgsize = low := by
    rw [earlyPages, Nat.div_mul_cancel hdvd]
    exact Nat.add_sub_cancel' hle
  have hempty : Ok (roundup Link.kend) 0 Kmem.start [] := ⟨rfl, List.nodup_nil, nofun, rfl⟩
  have hge : Link.kend ≤ roundup Link.kend := by
    simp only [roundup, pgsize]
    omega
  have hhigh : roundup Link.kend + earlyPages * pgsize ≤ high := by
    rw [hlow]
    decide
  obtain ⟨t, l, ht, huse, hfailed, hlen, hok⟩ :=
    hempty.freerange earlyPages (roundup_mod _) hge hhigh
  rw [hlow] at ht hok
  have htop : ({ t with numFreePages := 0 } : Kmem).top = low := by
    unfold Kmem.top
    rw [show ({ t with numFreePages := 0 } : Kmem).useLock = false from huse]
    rfl
  have hlen' : l.length = earlyPages := by simpa using hlen
  refine ⟨{ t with numFreePages := 0 }, l, ?_, huse, hfailed, rfl, hlen', ?_⟩
  · unfold kinit1
    rw [ht]
    rfl
  rw [htop]
  refine ⟨hok.path, hok.nodup, hok.pages, ?_⟩
  have hf : ({ t with numFreePages := 0 } : Kmem).failed = 0 := hfailed
  rw [hf, hlen']
  simp [toInt]

theorem kinit2_ok {s : Kmem} {early : ℕ} {l : List ℕ} (h : Ok s.top early s l)
    (hs : s.useLock = false) :
    ∃ t l', kinit2 s = some t ∧ t.failed = s.failed ∧ l'.length = l.length + (high - low) / pgsize ∧
      Ok t.top early t l' := by
  have htop : s.top = low := by
    unfold Kmem.top
    rw [hs]
    rfl
  rw [htop] at h
  have hkend := Image.kend_le
  have hsum : low + (high - low) / pgsize * pgsize = high := by decide
  obtain ⟨t, l', ht, huse, hfailed, hlen, hok⟩ :=
    h.freerange ((high - low) / pgsize) (by decide) hkend hsum.le
  rw [hsum] at ht hok
  refine ⟨{ t with useLock := true }, l', ?_, hfailed, hlen, hok.path, hok.nodup, hok.pages, hok.count⟩
  unfold kinit2
  rw [ht]
  rfl

theorem step_ok {s t : Kmem} {op : Op} (h : ∃ l, Ok s.top earlyPages s l) (hstep : step s op = some t) :
    ∃ l, Ok t.top earlyPages t l := by
  obtain ⟨l, h⟩ := h
  cases op with
  | kinit2 =>
    simp only [step] at hstep
    split_ifs at hstep with hlock
    obtain ⟨u, l', hu, -, -, hok⟩ := kinit2_ok h (Bool.eq_false_iff.2 hlock)
    rw [hu] at hstep
    exact Option.some.inj hstep ▸ ⟨l', hok⟩
  | kalloc =>
    obtain rfl := Option.some.inj hstep
    obtain ⟨l', hok⟩ := h.kalloc
    refine ⟨l', ?_⟩
    have htop : (Kalloc.kalloc s).top = s.top := by
      unfold Kalloc.kalloc
      dsimp only
      split <;> rfl
    rw [htop]
    exact hok
  | kfree v =>
    simp only [step] at hstep
    split_ifs at hstep with hv
    obtain ⟨u, hu, huse, hok⟩ := h.kfree s.top_le hv
    rw [hu] at hstep
    obtain rfl := Option.some.inj hstep
    refine ⟨v :: l, ?_⟩
    have htop : ({ u with out := u.out.erase v } : Kmem).top = s.top := by
      unfold Kmem.top
      rw [← huse]
    rw [htop]
    exact hok
  | store v w =>
    simp only [step] at hstep
    split_ifs at hstep with hv
    obtain rfl := Option.some.inj hstep
    exact ⟨l, h.store hv⟩

/-- The free list is sound in every run; the counter agrees with it only where the pages that `kinit1`
freed and the allocations that failed add up to a multiple of `2 ^ 32`. -/
theorem free_pages {s0 s : Kmem} {ops : List Op} (hboot : kinit1 = some s0)
    (hrun : Run (ofFun step) s0 ops s) :
    ∃ l, Path s.next s.freelist l ∧ l.Nodup ∧ (∀ v ∈ s.out, v ∉ l) ∧
      (getNumFreePages s = l.length ↔ (earlyPages + s.failed) % 2 ^ 32 = 0) := by
  have h0 : ∃ l, Ok s0.top earlyPages s0 l := by
    obtain ⟨t, l, ht, -, -, -, -, hok⟩ := kinit1_ok
    rw [ht] at hboot
    exact Option.some.inj hboot ▸ ⟨l, hok⟩
  obtain ⟨l, h⟩ := hrun.invariant (I := fun s => ∃ l, Ok s.top earlyPages s l) h0
    fun _ _ _ hs hstep => step_ok hs hstep
  obtain ⟨hnd, -, hdis⟩ := List.nodup_append'.1 h.nodup
  exact ⟨l, h.path, hnd, fun v hv hl => hdis hl hv, h.count_iff s.top_le⟩

end Runs

theorem earlyPages_kernelSym : earlyPages = 731 := by decide

theorem boot_ok : ∃ s0 s l, kinit1 = some s0 ∧ s0.useLock = false ∧ kinit2 s0 = some s ∧ s.failed = 0 ∧
    l.length = 731 + (high - low) / pgsize ∧ Ok s.top 731 s l := by
  obtain ⟨s0, l0, h0, huse, hfailed, -, hlen, hok⟩ := kinit1_ok
  obtain ⟨s, l, hs, hfailed', hlen', hok'⟩ := kinit2_ok hok huse
  rw [hlen] at hlen'
  rw [earlyPages_kernelSym] at hlen' hok'
  exact ⟨s0, s, l, h0, huse, hs, hfailed'.trans hfailed, hlen', hok'⟩

theorem free_pages_boot : ∃ s0 s, kinit1 = some s0 ∧ Run (ofFun step) s0 [.kinit2, .kalloc] s ∧
    ∃ l, Path s.next s.freelist l ∧ l.Nodup ∧ (∀ v ∈ s.out, v ∉ l) ∧
      (getNumFreePages s = l.length ↔ (earlyPages + s.failed) % 2 ^ 32 = 0) := by
  obtain ⟨s0, s, l, h0, huse, hs, -⟩ := boot_ok
  have hstep : step s0 .kinit2 = some s := by
    simp only [step, huse, hs, Bool.false_eq_true, if_false]
  have hrun : Run (ofFun step) s0 [.kinit2, .kalloc] (kalloc s) := .cons hstep (.cons rfl (.nil _))
  exact ⟨s0, _, h0, hrun, free_pages h0 hrun⟩

/-- When `main` has called `kinit1` and `kinit2`, the pages that `kinit1` freed are not counted. -/
theorem count_short : ∃ s0 s l, kinit1 = some s0 ∧ kinit2 s0 = some s ∧ Path s.next s.freelist l ∧
    l.length = 57051 ∧ getNumFreePages s = 56320 := by
  obtain ⟨s0, s, l, h0, -, hs, hfailed, hlen, hok⟩ := boot_ok
  refine ⟨s0, s, l, h0, hs, hok.path, ?_, ?_⟩
  · rw [hlen]
    decide
  · unfold getNumFreePages
    rw [hok.count, hlen, hfailed]
    decide

end Xv6.Kalloc

import Xv6Cow.Vm.Args

/-!
# What `copyout` stores

`copyout` goes from page to page, and wraps at the end of the address space.  It stops at the first page
that user code cannot use: with `-1` if the page has an entry, and through a null pointer if there is no
page table for it, since `uva2ka` does not test what `walkpgdir` returns.
-/

namespace Xv6

open Prog

variable {s t : Vm} {d va : ℕ} {bs : List UInt8}

/-- User code can use the page. -/
def Vm.user (s : Vm) (d v : ℕ) : Bool := (s.pte d v).p && (s.pte d v).u

/-- The page of byte `k` of a buffer at `va`. -/
def pageAt (va k : ℕ) : ℕ := (va + k) % word / pgsize

theorem pageAt_zero (hva : va < word) : pageAt va 0 = va / pgsize := by
  rw [pageAt, Nat.add_zero, Nat.mod_eq_of_lt hva]

theorem pageAt_of_lt (hva : va < word) {k : ℕ} (hk : k < pgsize - va % pgsize) :
    pageAt va k = va / pgsize := by
  simp only [pageAt, word, pgsize] at *
  omega

/-- The start of the next page. -/
def nextPage (va : ℕ) : ℕ := (va / pgsize * pgsize + pgsize) % word

theorem nextPage_lt (va : ℕ) : nextPage va < word := Nat.mod_lt _ (by decide)

theorem add_nextPage (va k : ℕ) : (nextPage va + k) % word =
    (va + (pgsize - va % pgsize + k)) % word := by
  simp only [nextPage, word, pgsize]
  omega

theorem pageAt_nextPage (va k : ℕ) : pageAt (nextPage va) k = pageAt va (pgsize - va % pgsize + k) := by
  rw [pageAt, add_nextPage, pageAt]

theorem mod_word_mod_pgsize (a : ℕ) : a % word % pgsize = a % pgsize := by
  simp only [word, pgsize]
  omega

/-- The bytes are at `va`, and nothing else has changed in memory. -/
structure CopiedOut (s t : Vm) (d va : ℕ) (bs : List UInt8) : Prop where
  byte : ∀ k < bs.length, t.byte d ((va + k) % word) = bs.getD k 0
  other : ∀ f x, (∀ k < bs.length, (s.pte d (pageAt va k)).frame = f → (va + k) % pgsize ≠ x) →
    t.mem f x = s.mem f x

/-- The first page among those of `n` bytes at `va` that user code cannot use. -/
structure FirstBad (s : Vm) (d va n k : ℕ) : Prop where
  lt : k < n
  bad : s.user d (pageAt va k) = false
  first : ∀ j < k, s.user d (pageAt va j) = true

/-- The user pages of the directory have frames of their own. -/
def OwnFrames (s : Vm) (d : ℕ) : Prop := ∀ v v', s.user d v = true → s.user d v' = true →
  (s.pte d v).frame = (s.pte d v').frame → v = v'

theorem OnlyMem.user (h : OnlyMem s t) : t.user = s.user := by
  funext d v
  rw [Vm.user, h.pte, Vm.user]

theorem OnlyMem.ownFrames (h : OnlyMem s t) (ho : OwnFrames s d) : OwnFrames t d := by
  intro v v' hv hv'
  rw [h.user] at hv hv'
  rw [h.pte]
  exact ho v v' hv hv'

theorem OnlyMem.tab (h : OnlyMem s t) : t.tab = s.tab := by
  funext d i
  rw [Vm.tab, h.pgdir, Vm.tab]

theorem OnlyMem.firstBad (h : OnlyMem s t) {n k : ℕ} : FirstBad t d va n k ↔ FirstBad s d va n k := by
  constructor
  · intro hk
    exact ⟨hk.lt, h.user ▸ hk.bad, h.user ▸ hk.first⟩
  · intro hk
    exact ⟨hk.lt, h.user.symm ▸ hk.bad, h.user.symm ▸ hk.first⟩

theorem user_iff : s.user d va = true ↔ (s.pte d va).p = true ∧ (s.pte d va).u = true := by
  rw [Vm.user, Bool.and_eq_true]

theorem uva2ka_rule (v : ℕ) : wp (uva2ka d v) (fun r t => t = s ∧ s.tab d (v / nptentries) ≠ none ∧
    r = if s.user d v then some (s.pte d v).frame else none)
    (fun e _ => e = "uva2ka: null pte" ∧ s.tab d (v / nptentries) = none) s := by
  simp only [uva2ka, wp_run, wp_walkpgdir_false]
  by_cases htab : (s.tab d (v / nptentries)).isSome = true
  · have hne := Option.isSome_iff_ne_none.1 htab
    rw [if_pos htab]
    cases hp : (s.pte d v).p <;> cases hu : (s.pte d v).u <;> simp [Vm.user, hp, hu, hne]
  · rw [if_neg htab]
    simpa using htab

theorem stored_chunk (s : Vm) (d : ℕ) (bs : List UInt8) {n : ℕ} (hva : va < word)
    (hn : n ≤ pgsize - va % pgsize) :
    let t := s.setMem (s.pte d (va / pgsize)).frame
      (Bytes.patch (s.mem (s.pte d (va / pgsize)).frame) (va % pgsize) n (bytesOf bs))
    (∀ k < n, t.byte d ((va + k) % word) = bs.getD k 0) ∧
    ∀ f x, (∀ k < n, (s.pte d (pageAt va k)).frame = f → (va + k) % pgsize ≠ x) →
      t.mem f x = s.mem f x := by
  intro t
  have hpage : ∀ k < n, pageAt va k = va / pgsize := fun k hk => pageAt_of_lt hva (hk.trans_le hn)
  have hoff : ∀ k < n, (va + k) % pgsize = va % pgsize + k := by
    intro k hk
    simp only [pgsize] at *
    omega
  have hmem : t.mem (s.pte d (va / pgsize)).frame =
      Bytes.patch (s.mem (s.pte d (va / pgsize)).frame) (va % pgsize) n (bytesOf bs) :=
    Function.update_self ..
  constructor
  · intro k hk
    have hframe : (t.pte d ((va + k) % word / pgsize)).frame = (s.pte d (va / pgsize)).frame := by
      rw [(OnlyMem.setMem ..).pte, ← pageAt, hpage k hk]
    rw [Vm.byte, hframe, hmem, mod_word_mod_pgsize, hoff k hk,
      Bytes.patch_in (Nat.le_add_right ..) (by omega), Nat.add_sub_cancel_left]
    rfl
  intro f x hx
  by_cases hf : f = (s.pte d (va / pgsize)).frame
  · subst hf
    rw [hmem]
    refine Bytes.patch_out ?_
    by_contra hin
    refine hx (x - va % pgsize) (by omega) ?_ ?_
    · rw [hpage _ (by omega)]
    · rw [hoff _ (by omega)]
      omega
  · exact congrFun (Function.update_of_ne hf _ _) x

theorem addr_inj {j k n : ℕ} (hn : n ≤ word) (hj : j < n) (hk : k < n)
    (hpage : pageAt va j = pageAt va k) (hoff : (va + j) % pgsize = (va + k) % pgsize) : j = k := by
  simp only [pageAt, word, pgsize] at *
  omega

section Loop

variable {n k : ℕ}

theorem pageAt_rest (hn : n = min (pgsize - va % pgsize) bs.length) (hk : k < (bs.drop n).length) :
    pageAt (nextPage va) k = pageAt va (n + k) := by
  rw [List.length_drop] at hk
  obtain rfl : n = pgsize - va % pgsize := by omega
  exact pageAt_nextPage va k

theorem add_rest (hn : n = min (pgsize - va % pgsize) bs.length) (hk : k < (bs.drop n).length) :
    (nextPage va + k) % word = (va + (n + k)) % word := by
  rw [List.length_drop] at hk
  obtain rfl : n = pgsize - va % pgsize := by omega
  exact add_nextPage va k

theorem FirstBad.rest (hva : va < word) (hn : n = min (pgsize - va % pgsize) bs.length)
    (huser : s.user d (va / pgsize) = true) (h : FirstBad s d (nextPage va) (bs.drop n).length k) :
    FirstBad s d va bs.length (n + k) := by
  have hlt := h.lt
  rw [List.length_drop] at hlt
  refine ⟨by omega, ?_, fun j hj => ?_⟩
  · rw [← pageAt_rest hn h.lt]
    exact h.bad
  by_cases hjn : j < n
  · rw [pageAt_of_lt hva (by omega)]
    exact huser
  · obtain ⟨i, rfl⟩ := Nat.exists_eq_add_of_le (not_lt.1 hjn)
    rw [← pageAt_rest hn (by rw [List.length_drop]; omega)]
    exact h.first i (by omega)

theorem CopiedOut.rest {u : Vm} (hn : n = min (pgsize - va % pgsize) bs.length)
    (hlen : bs.length ≤ word) (hown : OwnFrames s d)
    (huser : ∀ k < bs.length, s.user d (pageAt va k) = true)
    (hst : OnlyMem s t) (htu : OnlyMem t u)
    (hbyte : ∀ k < n, t.byte d ((va + k) % word) = bs.getD k 0)
    (hother : ∀ f x, (∀ k < n, (s.pte d (pageAt va k)).frame = f → (va + k) % pgsize ≠ x) →
      t.mem f x = s.mem f x)
    (h : CopiedOut t u d (nextPage va) (bs.drop n)) : CopiedOut s u d va bs := by
  have hoff : ∀ k < (bs.drop n).length, (nextPage va + k) % pgsize = (va + (n + k)) % pgsize := by
    intro k hk
    rw [← mod_word_mod_pgsize, add_rest hn hk, mod_word_mod_pgsize]
  constructor
  · intro k hk
    by_cases hkn : k < n
    · -- the other rounds write to other addresses
      rw [← hbyte k hkn, Vm.byte, Vm.byte, htu.pte]
      refine h.other _ _ fun j hj hframe hx => ?_
      have hj' := hj
      rw [List.length_drop] at hj'
      rw [hst.pte, pageAt_rest hn hj] at hframe
      have hpage := hown _ _ (huser _ (by omega)) (huser k hk) hframe
      rw [hoff j hj, mod_word_mod_pgsize] at hx
      have := addr_inj hlen (by omega) hk hpage hx
      omega
    · obtain ⟨i, rfl⟩ := Nat.exists_eq_add_of_le (not_lt.1 hkn)
      have hi : i < (bs.drop n).length := by
        rw [List.length_drop]
        omega
      rw [← add_rest hn hi, h.byte i hi]
      simp [List.getD]
  · intro f x hx
    rw [h.other f x ?_, hother f x fun k hk => hx k (by omega)]
    intro k hk hframe
    rw [hst.pte, pageAt_rest hn hk] at hframe
    rw [hoff k hk]
    rw [List.length_drop] at hk
    exact hx (n + k) (by omega) hframe

/-- What `copyout` does, by the first page that user code cannot use. -/
theorem copyout_rule {s : Vm} {va : ℕ} {bs : List UInt8} (hva : va < word) (hlen : bs.length ≤ word)
    (hown : OwnFrames s d) : wp (copyout d va bs) (fun r t => OnlyMem s t ∧
      if r then (∀ k < bs.length, s.user d (pageAt va k) = true) ∧ CopiedOut s t d va bs
      else ∃ k, FirstBad s d va bs.length k ∧ s.tab d (pageAt va k / nptentries) ≠ none)
      (fun e _ => e = "uva2ka: null pte" ∧
        ∃ k, FirstBad s d va bs.length k ∧ s.tab d (pageAt va k / nptentries) = none) s := by
  rw [copyout, wp_ite]
  by_cases hb : bs = []
  · subst hb
    rw [if_pos rfl]
    exact ⟨.refl s, by simp, ⟨by simp, fun _ _ _ => rfl⟩⟩
  rw [if_neg hb, wp_bind]
  have hpos : 0 < bs.length := List.length_pos_iff.2 hb
  have hbad : s.user d (va / pgsize) = false → FirstBad s d va bs.length 0 := fun hu =>
    ⟨hpos, by rwa [pageAt_zero hva], fun j hj => absurd hj (Nat.not_lt_zero j)⟩
  refine wp_mono (uva2ka_rule _) ?_ ?_
  · rintro r t ⟨ht, htab, rfl⟩
    subst t
    cases hu : s.user d (va / pgsize) with
    | false => exact ⟨.refl s, 0, hbad hu, by rwa [pageAt_zero hva]⟩
    | true =>
      simp only [wp_run]
      set n := min (pgsize - va % pgsize) bs.length with hn
      obtain ⟨hbyte, hother⟩ := stored_chunk s d bs hva (hn.trans_le (Nat.min_le_left ..))
      have hst : OnlyMem s (s.setMem (s.pte d (va / pgsize)).frame
        (Bytes.patch (s.mem (s.pte d (va / pgsize)).frame) (va % pgsize) n (bytesOf bs))) := .setMem ..
      have hlen' : (bs.drop n).length ≤ word := (List.drop_sublist n bs).length_le.trans hlen
      rw [← nextPage]
      refine wp_mono (copyout_rule (nextPage_lt va) hlen' (hst.ownFrames hown)) ?_ ?_
      · rintro (_ | _) t ⟨htu, hres⟩
        · obtain ⟨k, hk, hne⟩ := hres
          rw [hst.tab, pageAt_rest hn hk.lt] at hne
          exact ⟨hst.trans htu, n + k, (hst.firstBad.1 hk).rest hva hn hu, hne⟩
        obtain ⟨hall, hcopied⟩ := hres
        have huser : ∀ k < bs.length, s.user d (pageAt va k) = true := by
          intro k hk
          by_cases hkn : k < n
          · rwa [pageAt_of_lt hva (by omega)]
          obtain ⟨i, rfl⟩ := Nat.exists_eq_add_of_le (not_lt.1 hkn)
          have hi : i < (bs.drop n).length := by
            rw [List.length_drop]
            omega
          rw [← pageAt_rest hn hi, ← hst.user]
          exact hall i hi
        exact ⟨hst.trans htu, huser, .rest hn hlen hown huser hst htu hbyte hother hcopied⟩
      · rintro _ _ ⟨he, k, hk, hnone⟩
        rw [hst.tab, pageAt_rest hn hk.lt] at hnone
        exact ⟨he, n + k, (hst.firstBad.1 hk).rest hva hn hu, hnone⟩
  · rintro _ _ ⟨he, hnone⟩
    have hu : s.user d (va / pgsize) = false := by
      simp [Vm.user, Vm.pte, hnone, Pte.zero]
    exact ⟨he, 0, hbad hu, by rwa [pageAt_zero hva]⟩
termination_by bs.length
decreasing_by
  have : va % pgsize < pgsize := Nat.mod_lt _ (by decide)
  have : 0 < bs.length := List.length_pos_iff.2 ‹_›
  rw [List.length_drop]
  omega

end Loop

/-! ## Directories that `exec` builds -/

section Link

variable [Link]

/-- A page directory that `setupkvm`, `allocuvm` and `clearpteu` have built, in a memory where the rest
may have changed meanwhile. -/
inductive Built (d : ℕ) : Vm → Prop
  | setupkvm {s t : Vm} {H L : Set ℕ} (hI : Inv frames H L s)
    (h : Xv6.setupkvm s = .ok (some d) t) : Built d t
  | allocuvm {s t : Vm} {oldsz newsz r : ℕ} (hs : Built d s)
    (h : Xv6.allocuvm d oldsz newsz s = .ok r t) : Built d t
  | clearpteu {s t : Vm} {uva : ℕ} (hs : Built d s) (h : Xv6.clearpteu d uva s = .ok () t) : Built d t
  | elsewhere {s t : Vm} {H L : Set ℕ} (hs : Built d s) (hI : Inv frames H L t)
    (h : t.pgdir d = s.pgdir d) : Built d t

/-- What all of them keep. -/
structure UserSpace (d : ℕ) (s : Vm) : Prop where
  inv : ∃ H L, Inv frames H L s
  live : s.live d = true
  kern : ∀ v, kernpage ≤ v → (s.pte d v).u = false

theorem UserSpace.confined (h : UserSpace d s) : Confined frames {d} s := by
  obtain ⟨H, L, hI⟩ := h.inv
  refine ⟨fun f hf => hI.wf.free_mem hf, ?_, ?_⟩
  · intro x hx v hv hp
    exact hI.frame_mem hv hp
  · intro x hx
    obtain rfl := Set.mem_singleton_iff.1 hx
    exact h.kern

theorem UserSpace.allocuvm (h : UserSpace d s) (oldsz newsz : ℕ) :
    wp (allocuvm d oldsz newsz) (fun r t => (r = 0 ∨ (newsz < kernbase ∧ r = max oldsz newsz)) ∧
      UserSpace d t ∧
      t.live = s.live) AnyPanic s := by
  obtain ⟨H, L, hI⟩ := h.inv
  refine wp_lax (wp_and (allocuvm_spec hI h.live) (allocuvm_confined h.confined rfl)) ?_
  rintro r t ⟨⟨hr, ⟨L', hI'⟩, hgrew⟩, hconf, -⟩
  exact ⟨hr, ⟨⟨H, L', hI'⟩, by rw [hgrew.live, h.live], hconf.kern d rfl⟩, hgrew.live⟩

theorem UserSpace.clearpteu (h : UserSpace d s) (uva : ℕ) :
    wp (clearpteu d uva) (fun _ t => UserSpace d t ∧ t.live = s.live) AnyPanic s := by
  obtain ⟨H, L, hI⟩ := h.inv
  refine wp_lax (wp_and (clearpteu_spec hI) (clearpteu_confined h.confined rfl)) ?_
  rintro _ t ⟨⟨hI', hlive, -⟩, hconf, -⟩
  exact ⟨⟨⟨H, L, hI'⟩, by rw [hlive, h.live], hconf.kern d rfl⟩, hlive⟩

theorem UserSpace.of_pgdir {H L : Set ℕ} (h : UserSpace d s) (hI : Inv frames H L t)
    (hdir : t.pgdir d = s.pgdir d) : UserSpace d t := by
  refine ⟨⟨_, _, hI⟩, ?_, fun v hv => ?_⟩
  · rw [Vm.live, hdir]
    exact h.live
  · rw [pte_of_pgdir hdir]
    exact h.kern v hv

theorem setupkvm_userSpace {H L : Set ℕ} (hI : Inv frames H L s) :
    wp setupkvm (fun r t => ∀ d, r = some d → UserSpace d t ∧ Made d s t) AnyPanic s := by
  refine wp_lax (wp_and (setupkvm_spec hI) (setupkvm_books fun f hf => hI.wf.free_mem hf)) ?_
  rintro r t ⟨⟨hI', hmade⟩, -, -, hbooks⟩ d rfl
  obtain ⟨-, hlive, -, hpte⟩ := hbooks
  refine ⟨⟨⟨_, _, hI'⟩, hlive, fun v _ => ?_⟩, hmade⟩
  rw [hpte]
  exact kernelPte_u v

theorem Built.userSpace (h : Built d s) : UserSpace d s := by
  induction h with
  | setupkvm hI h => exact (wp_ok (setupkvm_userSpace hI) h d rfl).1
  | allocuvm hs h ih => exact (wp_ok (ih.allocuvm _ _) h).2.1
  | clearpteu hs h ih => exact (wp_ok (ih.clearpteu _) h).1
  | elsewhere hs hI h ih => exact ih.of_pgdir hI h

theorem UserSpace.user_lt {v : ℕ} (h : UserSpace d s) (hv : s.user d v = true) : v < kernpage := by
  by_contra hge
  rw [user_iff, h.kern v (not_lt.1 hge)] at hv
  exact Bool.false_ne_true hv.2

theorem UserSpace.ownFrames (h : UserSpace d s) : OwnFrames s d := by
  obtain ⟨H, L, hI⟩ := h.inv
  intro v v' hv hv' hframe
  have hpage' := upage_of_present (h.user_lt hv') (user_iff.1 hv').1
  rw [← hframe] at hpage'
  exact hI.inj (upage_of_present (h.user_lt hv) (user_iff.1 hv).1) hpage'

/-! ## `copyout` -/

/-- It returns -1 if it reaches a page that user code cannot use, and otherwise 0 with the bytes
stored and nothing else changed. -/
structure CopyoutOk (s : Vm) (d va : ℕ) (bs : List UInt8) : Prop where
  refuses : (∃ k < bs.length, s.user d (pageAt va k) = false) → ∃ t, copyout d va bs s = .ok false t
  stores : (∀ k < bs.length, s.user d (pageAt va k) = true) →
    ∃ t, copyout d va bs s = .ok true t ∧ OnlyMem s t ∧ CopiedOut s t d va bs

/-- The first page that user code cannot use, if there is one, has a page table. -/
def Tabled (s : Vm) (d va n : ℕ) : Prop :=
  ∀ k, FirstBad s d va n k → s.tab d (pageAt va k / nptentries) ≠ none

omit [Link] in
theorem FirstBad.unique {n k k' : ℕ} (h : FirstBad s d va n k)
    (h' : FirstBad s d va n k') : k = k' := by
  rcases lt_trichotomy k k' with hlt | rfl | hgt
  · exact absurd (h'.first k hlt) (by rw [h.bad]; exact Bool.false_ne_true)
  · rfl
  · exact absurd (h.first k' hgt) (by rw [h'.bad]; exact Bool.false_ne_true)

/-- `copyout` does what it is for if and only if it does not come to a page without a page table. -/
theorem copyoutOk_iff (hd : Built d s) (hva : va < word) (hlen : bs.length < word) :
    CopyoutOk s d va bs ↔ Tabled s d va bs.length := by
  have hrule := copyout_rule hva hlen.le hd.userSpace.ownFrames
  constructor
  · intro h k hk hnone
    obtain ⟨t, hret⟩ := h.refuses ⟨k, hk.lt, hk.bad⟩
    obtain ⟨-, k', hk', htab⟩ := wp_ok hrule hret
    exact htab (hk'.unique hk ▸ hnone)
  intro h
  cases hret : copyout d va bs s with
  | error e t =>
    obtain ⟨-, k, hk, hnone⟩ := wp_error hrule hret
    exact absurd hnone (h k hk)
  | ok r t =>
    obtain ⟨hmem, hres⟩ := wp_ok hrule hret
    cases r with
    | false =>
      obtain ⟨k, hk, -⟩ := hres
      refine ⟨fun _ => ⟨t, hret⟩, fun hall => ?_⟩
      exact absurd (hall k hk.lt) (by rw [hk.bad]; exact Bool.false_ne_true)
    | true =>
      obtain ⟨hall, hcopied⟩ := hres
      refine ⟨?_, fun _ => ⟨t, hret, hmem, hcopied⟩⟩
      rintro ⟨k, hk, hbad⟩
      exact absurd (hall k hk) (by rw [hbad]; exact Bool.false_ne_true)

end Link

/-! ## Page tables of a new directory -/

section Tables

variable {i v f n : ℕ} {E : String → Vm → Prop}

theorem walkpgdir_tabFrame (hi : i ≠ v / nptentries) :
    wp (walkpgdir d v true) (fun _ t => t.tabFrame d i = s.tabFrame d i) E s := by
  simp only [walkpgdir, wp_run]
  cases s.tab d (v / nptentries) with
  | some tb => exact rfl
  | none =>
    simp only [wp_bind]
    refine wp_imp kalloc_takes ?_
    rintro (_ | f) t ⟨hdir, -⟩
    · exact congrFun (congrFun (Vm.tabFrame_congr (funext fun y => tab_of_pgdir (congrFun hdir y))) d) i
    · rw [wp_bind, wp_modify, wp_pure, Vm.tabFrame, Vm.tab_setTab, if_neg fun hc => hi hc.2.1,
        Vm.tabFrame, tab_of_pgdir (congrFun hdir d)]

/-- Mapping the pages `v`, …, `v + n` adds no page table for other pages. -/
theorem mappagesLoop_tabFrame (w u : Bool) (n : ℕ) : ∀ {s : Vm} {v f : ℕ},
    (∀ v', v ≤ v' → v' ≤ v + n → i ≠ v' / nptentries) →
    wp (mappagesLoop d w u n v f) (fun _ t => t.tabFrame d i = s.tabFrame d i) (fun _ _ => True) s := by
  induction n with
  | zero =>
    intro s v f hi
    simp only [mappagesLoop, wp_bind]
    refine wp_imp (walkpgdir_tabFrame (hi v le_rfl le_rfl)) ?_
    rintro (_ | _) t ht
    · exact ht
    · simp only [wp_run, Vm.tabFrame_setPte, ht]
      split_ifs
  | succ n ih =>
    intro s v f hi
    rw [mappagesLoop, wp_bind]
    refine wp_imp (walkpgdir_tabFrame (hi v le_rfl (by omega))) ?_
    rintro (_ | _) t ht
    · exact ht
    simp only [wp_run]
    split_ifs with hp
    refine wp_imp (ih fun v' hle hlt => hi v' (by omega) (by omega)) ?_
    intro _ u hu
    rw [hu, Vm.tabFrame_setPte, ht]

variable [Link]

theorem setupkvmLoop_tabFrame (ks : List Kmap) : ∀ {s : Vm},
    (∀ k ∈ ks, ∀ v', k.first ≤ v' → v' ≤ k.first + (k.last - k.first) → i ≠ v' / nptentries) →
    wp (setupkvmLoop d ks) (fun r t => ∀ c, r = some c → c = d ∧ t.tabFrame d i = s.tabFrame d i)
      (fun _ _ => True) s := by
  induction ks with
  | nil =>
    intro s _ c hc
    exact ⟨(Option.some.inj hc).symm, rfl⟩
  | cons k ks ih =>
    intro s hi
    rw [setupkvmLoop, wp_bind]
    refine wp_imp (mappagesLoop_tabFrame _ _ _ (hi k List.mem_cons_self)) ?_
    rintro (_ | _) t ht
    · simp only [wp_run]
      exact wp_iff.2 ⟨fun _ _ _ => (by rintro _ ⟨⟩), fun _ _ _ => trivial⟩
    · refine wp_imp (ih fun k' hk' => hi k' (List.mem_cons_of_mem _ hk')) ?_
      intro _ u hu c hc
      exact ⟨(hu c hc).1, (hu c hc).2.trans ht⟩

/-- No row of `kmap` reaches into the 4 MB from `0xFC000000` on. -/
theorem setupkvm_gap : wp setupkvm (fun r t => ∀ d, r = some d → t.tab d 0x3F0 = none)
    (fun _ _ => True) s := by
  have h1 := Link.kernlink_lt_data
  have h2 := Link.data_lt
  have h3 := Link.data_aligned
  have hrows : ∀ k ∈ kmap, ∀ v', k.first ≤ v' → v' ≤ k.first + (k.last - k.first) →
    0x3F0 ≠ v' / nptentries := by
    simp only [kmap, List.mem_cons, List.not_mem_nil, or_false, forall_eq_or_imp, forall_eq,
      Kmap.first, Kmap.last]
    simp only [kernlink, kernbase, extmem, phystop, devspace, v2p, pgsize, word, nptentries] at *
    refine ⟨?_, ?_, ?_, ?_⟩ <;> intro v' hlo hhi <;> omega
  simp only [setupkvm, wp_bind]
  refine wp_imp kalloc_takes ?_
  rintro (_ | d) t -
  · rintro _ ⟨⟩
  simp only [wp_run]
  split_ifs
  refine wp_imp (setupkvmLoop_tabFrame kmap hrows) ?_
  intro r u hu c hc
  obtain ⟨rfl, htab⟩ := hu c hc
  have hnone : (t.setDir c (some fun _ => none)).tabFrame c 0x3F0 = none := by
    simp [Vm.tabFrame, Vm.tab, Vm.setDir]
  exact Option.map_eq_none_iff.1 (htab.trans hnone)

end Tables

/-! ## A program of one page and its stack -/

theorem clearpteu_ok {uva : ℕ} (htab : s.tab d (uva / pgsize / nptentries) ≠ none) : clearpteu d uva s =
    .ok () (s.setPte d (uva / pgsize) { s.pte d (uva / pgsize) with u := false }) := by
  have hwp : wp (clearpteu d uva) (fun _ t => t = s.setPte d (uva / pgsize)
    { s.pte d (uva / pgsize) with u := false })
      NoPanic s := by
    simp only [clearpteu, wp_run, wp_walkpgdir_false, Option.isSome_iff_ne_none.2 htab]
  obtain ⟨_, t, hok, rfl⟩ := wp_returns hwp
  exact hok

theorem newDir_built : ∃ d s, Built d s ∧ Inv frames ∅ ∅ s ∧ Roomy 100 s ∧
    (∀ v, s.pte d v = kernelPte v) ∧ s.tab d 0x3F0 = none := by
  obtain ⟨k, s0, -, hI0, -, hroom⟩ := boot_room
  have hnew := wp_and (wp_and (setupkvm_spec hI0) (setupkvm_books fun f hf => hI0.wf.free_mem hf))
    (wp_and setupkvm_gap (setupkvm_total (hroom.mono (by decide : 100 + 69 ≤ 50000))))
  obtain ⟨_, s, hret, ⟨⟨hI, -⟩, -, -, hbooks⟩, hgap, ⟨d, rfl⟩, hroom', -⟩ :=
    wp_returns (wp_mono hnew (fun _ _ => id) (fun _ _ he => he.2.2))
  exact ⟨d, s, .setupkvm hI0 hret, hI, hroom', hbooks.2.2.2, hgap d rfl⟩

theorem onePage_built : ∃ d s, Built d s ∧ s.tab d 0x3F0 = none ∧ s.user d 0 = true ∧
    s.user d 1 = false ∧ s.user d 2 = true := by
  obtain ⟨d, s1, hb1, hI1, hroom, hpte, hgap⟩ := newDir_built
  have hp : ∀ v, pgroundup 0 ≤ v → v < kernpage → (s1.pte d v).p = false := by
    intro v _ hv
    rw [hpte]
    exact kernelPte_user hv
  obtain ⟨g, s2, hret2, hmapped, hF⟩ := allocuvm_granted d 0 (3 * pgsize) hI1.fresh hI1.chars
    (fun f hf => hI1.wf.free_mem hf) hb1.userSpace.live (by decide) (by decide) hp
    (hroom.mono (by decide))
  have hb2 : Built d s2 := hb1.allocuvm hret2
  have hpage : ∀ v < 3, s2.pte d v = ⟨g v, true, true, true⟩ := by
    intro v hv
    rw [hF.pte, hmapped, if_pos ⟨rfl, mem_pagesOf.2 ⟨Nat.zero_le _, by simp only [pgsize]; omega⟩⟩]
  have htab : s2.tab d (1 / nptentries) ≠ none := Vm.tab_of_pte (by rw [hpage 1 (by decide)])
  have hret3 : clearpteu d pgsize s2 = .ok () (s2.setPte d 1 ⟨g 1, true, true, false⟩) := by
    rw [clearpteu_ok htab]
    show EStateM.Result.ok () (s2.setPte d 1 { s2.pte d 1 with u := false }) = _
    rw [hpage 1 (by decide)]
  have hsteady := (wp_ok (allocuvm_confined hb1.userSpace.confined rfl) hret2).2.frame 0x3F0 (by decide)
  refine ⟨d, _, hb2.clearpteu hret3, ?_, ?_, ?_, ?_⟩
  · have hnone : (s2.setPte d 1 ⟨g 1, true, true, false⟩).tabFrame d 0x3F0 = none := by
      rw [Vm.tabFrame_setPte, hsteady, Vm.tabFrame, hgap]
      rfl
    exact Option.map_eq_none_iff.1 hnone
  · rw [Vm.user, Vm.pte_setPte htab, if_neg (by omega), hpage 0 (by decide)]
    rfl
  · rw [Vm.user, Vm.pte_setPte htab, if_pos ⟨rfl, rfl⟩]
    rfl
  · rw [Vm.user, Vm.pte_setPte htab, if_neg (by omega), hpage 2 (by decide)]
    rfl

/-- A byte on the stack is stored. -/
theorem copyoutOk_iff_byte : ∃ d s, Built d s ∧ Tabled s d (2 * pgsize) 1 ∧
    CopyoutOk s d (2 * pgsize) [7] := by
  obtain ⟨d, s, hb, -, -, -, hstack⟩ := onePage_built
  have htabled : Tabled s d (2 * pgsize) 1 := by
    intro k hk
    obtain rfl : k = 0 := Nat.lt_one_iff.1 hk.lt
    exact absurd hk.bad (by rw [pageAt_zero (by decide)]; exact Bool.not_eq_false _ ▸ hstack)
  exact ⟨d, s, hb, htabled, (copyoutOk_iff hb (by decide) (by decide)).2 htabled⟩

/-- For an argument of 64 MB `exec` lowers the stack pointer to `0xFC003000`, where there is no page
table. -/
theorem copyout_null_pte : ∃ d s t arg, Built d s ∧ s.user d 2 = true ∧ arg.length + 1 = 2 ^ 26 ∧
    copyout d (alignDown (3 * pgsize) (arg.length + 1)) (arg ++ [0]) s = .error "uva2ka: null pte" t ∧
    ¬ CopyoutOk s d (alignDown (3 * pgsize) (arg.length + 1)) (arg ++ [0]) := by
  obtain ⟨d, s, hb, hgap, -, -, hstack⟩ := onePage_built
  obtain ⟨arg, harg⟩ : ∃ arg : List UInt8, arg.length + 1 = 2 ^ 26 := by
    refine ⟨List.replicate (2 ^ 26 - 1) 65, ?_⟩
    rw [List.length_replicate, Nat.sub_add_cancel (Nat.one_le_two_pow)]
  have hlen : (arg ++ [0]).length = 2 ^ 26 := by
    rw [List.length_append, List.length_singleton, harg]
  have hva : alignDown (3 * pgsize) (arg.length + 1) = 0xFC003000 := by
    rw [harg]
    decide
  have hpage : pageAt 0xFC003000 0 = 0xFC003 := by decide
  have hbad : FirstBad s d 0xFC003000 (arg ++ [0]).length 0 := by
    refine ⟨by rw [hlen]; decide, ?_, fun j hj => absurd hj (Nat.not_lt_zero j)⟩
    have htab : s.tab d (0xFC003 / nptentries) = none := hgap
    rw [hpage, Vm.user, Vm.pte, htab]
    rfl
  have hrule := copyout_rule (d := d) (by decide : 0xFC003000 < word)
    (by rw [hlen]; decide) hb.userSpace.ownFrames
  cases hret : copyout d 0xFC003000 (arg ++ [0]) s with
  | ok r t =>
    obtain ⟨-, hres⟩ := wp_ok hrule hret
    cases r with
    | true => exact absurd (hres.1 0 hbad.lt) (by rw [hbad.bad]; exact Bool.false_ne_true)
    | false =>
      obtain ⟨k, hk, htab⟩ := hres
      rw [hk.unique hbad, hpage] at htab
      exact absurd hgap htab
  | error e t =>
    obtain ⟨rfl, -⟩ := wp_error hrule hret
    refine ⟨d, s, t, arg, hb, hstack, harg, by rw [hva, hret], fun hok => ?_⟩
    rw [hva] at hok
    obtain ⟨t', ht'⟩ := hok.refuses ⟨0, hbad.lt, hbad.bad⟩
    rw [hret] at ht'
    cases ht'

end Xv6

import Xv6Cow.Vm.Exec
import Xv6Cow.Vm.Growproc

/-!
# System call arguments and user memory (`syscall.c`, `trap.c`)

The kernel reads and writes user memory through the page directory of the process, at addresses that
`fetchint`, `fetchstr`, `argptr` and `argstr` have compared with `sz`.  The comparisons use wrapping
sums; they are sound because `sz` is below `KERNBASE` in every reachable state.

They say nothing about the page-table entries.  A store of the kernel to an accepted address can
fault, and `trap` goes back to it whatever `pagefault` did.
-/

namespace Xv6

open Lts Prog

/-! ## Fetching arguments -/

/-- A sum of a `uint` and an `int`, as a `uint`. -/
def uint (x : ℤ) : ℕ := (x % (word : ℤ)).toNat

/-- A byte at user address `a`.  Where no page is present the kernel faults for ever, and the model
stops. -/
def readByte (d a : ℕ) : M UInt8 := do
  let s ← get
  if (s.pte d (a / pgsize)).p then pure (s.mem (s.pte d (a / pgsize)).frame (a % pgsize))
  else throw "read faults"

/-- `*(int*)addr`. -/
def readWord (d addr : ℕ) : M ℕ := do
  let b0 ← readByte d (addr % word)
  let b1 ← readByte d ((addr + 1) % word)
  let b2 ← readByte d ((addr + 2) % word)
  let b3 ← readByte d ((addr + 3) % word)
  pure (b0.toNat + 256 * (b1.toNat + 256 * (b2.toNat + 256 * b3.toNat)))

/-- The int at `addr`. -/
def fetchint (q : Proc) (addr : ℕ) : M (Option ℕ) :=
  if q.sz ≤ addr ∨ q.sz < (addr + 4) % word then pure none
  else do
    let w ← readWord q.pgdir addr
    pure (some w)

/-- The loop of `fetchstr`, from `a` on: the address of the NUL. -/
def fetchstrLoop (d ep a : ℕ) : M (Option ℕ) :=
  if a < ep then do
    let b ← readByte d a
    if b = 0 then pure (some a) else fetchstrLoop d ep (a + 1)
  else pure none
termination_by ep - a

/-- The length of the string at `addr`. -/
def fetchstr (q : Proc) (addr : ℕ) : M (Option ℕ) :=
  if q.sz ≤ addr then pure none
  else do
    match ← fetchstrLoop q.pgdir q.sz addr with
    | none => pure none
    | some a => pure (some (a - addr))

/-- The `n`th argument of a system call made with stack pointer `esp`. -/
def argint (q : Proc) (esp : ℕ) (n : ℤ) : M (Option ℕ) := fetchint q (uint (esp + 4 + 4 * n))

/-- The `n`th argument, as a pointer to `size` bytes. -/
def argptr (q : Proc) (esp : ℕ) (n : ℤ) (size : BitVec 32) : M (Option ℕ) := do
  match ← argint q esp n with
  | none => pure none
  | some i =>
    if size.toInt < 0 ∨ q.sz ≤ i ∨ q.sz < uint (i + size.toInt) then pure none
    else pure (some i)

/-- The `n`th argument, as a string: its address and its length. -/
def argstr (q : Proc) (esp : ℕ) (n : ℤ) : M (Option (ℕ × ℕ)) := do
  match ← argint q esp n with
  | none => pure none
  | some addr =>
    match ← fetchstr q addr with
    | none => pure none
    | some len => pure (some (addr, len))

/-! ## What is accepted -/

section Accepted

variable {s : Vm} {q : Proc} {d : ℕ}

/-- The byte of the page that is mapped at `a`. -/
def Vm.byte (s : Vm) (d a : ℕ) : UInt8 := s.mem (s.pte d (a / pgsize)).frame (a % pgsize)

theorem readByte_spec (a : ℕ) :
    wp (readByte d a) (fun b t => t = s ∧ b = s.byte d a) (fun _ _ => True) s := by
  simp only [readByte, wp_run]
  split_ifs
  exact ⟨trivial, rfl⟩

theorem readWord_spec (addr : ℕ) : wp (readWord d addr) (fun _ t => t = s) (fun _ _ => True) s := by
  have hbyte : ∀ a, wp (readByte d a) (fun _ t => t = s) (fun _ _ => True) s := fun a =>
    wp_imp (readByte_spec a) (fun _ _ h => h.1)
  rw [readWord, wp_bind]
  refine wp_imp (hbyte _) ?_
  rintro b0 _ rfl
  rw [wp_bind]
  refine wp_imp (hbyte _) ?_
  rintro b1 _ rfl
  rw [wp_bind]
  refine wp_imp (hbyte _) ?_
  rintro b2 _ rfl
  rw [wp_bind]
  refine wp_imp (hbyte _) ?_
  rintro b3 _ rfl
  rfl

/-- With a size below `KERNBASE` the sum in `fetchint` does not wrap. -/
theorem fetchint_spec (hsz : q.sz < kernbase) (addr : ℕ) :
    wp (fetchint q addr) (fun r t => t = s ∧ ∀ w, r = some w → addr + 4 ≤ q.sz)
      (fun _ _ => True) s := by
  rw [fetchint, wp_ite]
  split_ifs with hbad
  · exact ⟨rfl, nofun⟩
  rw [wp_bind]
  refine wp_imp (readWord_spec addr) ?_
  rintro w _ rfl
  refine ⟨rfl, fun _ _ => ?_⟩
  simp only [word, kernbase] at *
  omega

/-- The string that ends at `z`. -/
structure IsString (s : Vm) (d a z : ℕ) : Prop where
  le : a ≤ z
  nul : s.byte d z = 0
  text : ∀ x, a ≤ x → x < z → s.byte d x ≠ 0

theorem fetchstrLoop_spec (s : Vm) (ep a : ℕ) :
    wp (fetchstrLoop d ep a) (fun r t => t = s ∧ ∀ z, r = some z → z < ep ∧ IsString s d a z)
      (fun _ _ => True) s := by
  rw [fetchstrLoop, wp_ite]
  split_ifs with ha
  · rw [wp_bind]
    refine wp_imp (readByte_spec a) ?_
    rintro b _ ⟨rfl, rfl⟩
    rw [wp_ite]
    split_ifs with hb
    · refine ⟨rfl, fun z hz => ?_⟩
      obtain rfl := Option.some.inj hz
      exact ⟨ha, le_rfl, hb, fun x hx hx' => absurd hx (by omega)⟩
    refine wp_imp (fetchstrLoop_spec _ ep (a + 1)) ?_
    rintro r _ ⟨rfl, hr⟩
    refine ⟨rfl, fun z hz => ?_⟩
    obtain ⟨hlt, hle, hnul, htext⟩ := hr z hz
    refine ⟨hlt, by omega, hnul, fun x hx hx' => ?_⟩
    rcases Nat.eq_or_lt_of_le hx with rfl | hx
    · exact hb
    · exact htext x hx hx'
  · exact ⟨rfl, nofun⟩
termination_by ep - a

theorem fetchstr_spec (addr : ℕ) :
    wp (fetchstr q addr) (fun r t => t = s ∧ ∀ len, r = some len → addr + len + 1 ≤ q.sz ∧
      IsString s q.pgdir addr (addr + len)) (fun _ _ => True) s := by
  rw [fetchstr, wp_ite]
  split_ifs with hbad
  · exact ⟨rfl, nofun⟩
  rw [wp_bind]
  refine wp_imp (fetchstrLoop_spec s q.sz addr) ?_
  rintro (_ | z) _ ⟨rfl, hr⟩
  · exact ⟨rfl, nofun⟩
  refine ⟨rfl, fun len hlen => ?_⟩
  obtain ⟨hlt, hstr⟩ := hr z rfl
  obtain rfl := Option.some.inj hlen
  have hz : addr + (z - addr) = z := Nat.add_sub_of_le hstr.le
  rw [hz]
  exact ⟨hlt, hstr⟩

theorem argptr_spec (hsz : q.sz < kernbase) (esp : ℕ) (n : ℤ) (size : BitVec 32) :
    wp (argptr q esp n size) (fun r t => t = s ∧ ∀ i, r = some i → uint (esp + 4 + 4 * n) + 4 ≤ q.sz ∧
      0 ≤ size.toInt ∧ i < q.sz ∧ i + size.toInt ≤ q.sz) (fun _ _ => True) s := by
  rw [argptr, wp_bind]
  refine wp_imp (fetchint_spec hsz _) ?_
  rintro (_ | i) _ ⟨rfl, hi⟩
  · exact ⟨rfl, nofun⟩
  dsimp only
  rw [wp_ite]
  split_ifs with hbad
  · exact ⟨rfl, nofun⟩
  refine ⟨rfl, fun j hj => ?_⟩
  obtain rfl := Option.some.inj hj
  have hint := hi i rfl
  have hhigh : size.toInt < 2 ^ 31 := by
    have := size.toInt_lt
    simpa using this
  simp only [uint, word, kernbase] at *
  omega

theorem argstr_spec (hsz : q.sz < kernbase) (esp : ℕ) (n : ℤ) :
    wp (argstr q esp n) (fun r t => t = s ∧ ∀ x, r = some x → uint (esp + 4 + 4 * n) + 4 ≤ q.sz ∧
      x.1 + x.2 + 1 ≤ q.sz ∧ IsString s q.pgdir x.1 (x.1 + x.2)) (fun _ _ => True) s := by
  rw [argstr, wp_bind]
  refine wp_imp (fetchint_spec hsz _) ?_
  rintro (_ | addr) _ ⟨rfl, hi⟩
  · exact ⟨rfl, nofun⟩
  dsimp only
  rw [wp_bind]
  refine wp_imp (fetchstr_spec addr) ?_
  rintro (_ | len) _ ⟨rfl, hr⟩
  · exact ⟨rfl, nofun⟩
  · refine ⟨rfl, fun x hx => ?_⟩
    obtain rfl := Option.some.inj hx
    exact ⟨hi addr rfl, hr len rfl⟩

end Accepted

/-- The `n` bytes at `a` lie in the user part of the address space of `q`. -/
def Inside (q : Proc) (a n : ℕ) : Prop := ∀ k < n, (a + k) % word < q.sz ∧ (a + k) % word < kernbase

theorem inside_of_le {q : Proc} {a n : ℕ} (hsz : q.sz < kernbase) (h : a + n ≤ q.sz) :
    Inside q a n := by
  intro k hk
  simp only [word, kernbase] at *
  omega

/-- The first argument on a stack page of zeros is a pointer to address 0. -/
theorem argptr_zeros {q : Proc} {s : Vm} {f : ℕ} {w : Bool} (hsz : q.sz = pgsize)
    (hpte : s.pte q.pgdir 0 = ⟨f, true, w, true⟩) (hmem : s.mem f = fun _ => 0) :
    argptr q 0 0 1 s = .ok (some 0) s := by
  have hbyte : ∀ a, a < pgsize → readByte q.pgdir a s = .ok 0 s := by
    intro a ha
    have h0 : a / pgsize = 0 := Nat.div_eq_of_lt ha
    show (if (s.pte q.pgdir (a / pgsize)).p then
      pure (s.mem (s.pte q.pgdir (a / pgsize)).frame (a % pgsize)) else throw "read faults" : M UInt8) s = _
    rw [h0, hpte, if_pos rfl, hmem]
    rfl
  have h4 := hbyte 4 (by decide)
  have h5 := hbyte 5 (by decide)
  have h6 := hbyte 6 (by decide)
  have h7 := hbyte 7 (by decide)
  have hword : readWord q.pgdir 4 s = .ok 0 s := by
    simp only [readWord, show 4 % word = 4 from rfl, show (4 + 1) % word = 5 from rfl,
      show (4 + 2) % word = 6 from rfl, show (4 + 3) % word = 7 from rfl, bind, EStateM.bind,
        h4, h5, h6, h7]
    rfl
  have hint : argint q 0 0 s = .ok (some 0) s := by
    have haddr : uint ((0 : ℕ) + 4 + 4 * 0) = 4 := by decide
    have hok : ¬ (q.sz ≤ 4 ∨ q.sz < (4 + 4) % word) := by
      rw [hsz]
      decide
    simp only [argint, haddr, fetchint, if_neg hok, bind, EStateM.bind, hword]
    rfl
  have hok : ¬ ((1 : BitVec 32).toInt < 0 ∨ q.sz ≤ 0 ∨ q.sz < uint
    ((0 : ℕ) + (1 : BitVec 32).toInt)) := by
    rw [hsz]
    decide
  simp only [argptr, bind, EStateM.bind, hint, if_neg hok]
  rfl

/-- The first process has forked, and the next allocation will fail. -/
theorem boot_fork_oom : ∃ k s q f, Reachable k s ∧ s.proc ⟨0, by decide⟩ = some q ∧
    argptr q 0 0 1 s.vm = .ok (some 0) s.vm ∧ s.vm.pte q.pgdir 0 = ⟨f, true, false, true⟩ ∧
    s.vm.refcount f = 2 ∧ s.vm.supply.grants = false := by
  obtain ⟨k, s0, q, f, hboot, h0, hp, hsz, -, hpte, hfree, hroom, hone, hzero⟩ := boot_process
  obtain ⟨_, s1, hfork, ⟨-, hF⟩, ⟨c, rfl⟩, hpte1, href⟩ := wp_returns (wp_mono
    (wp_and (fork_spec h0 hp) (fork_total h0.toSysInv hp hsz hpte (hroom.mono (by omega)) hfree))
    (fun _ _ => id) (fun _ _ he => he.2))
  have hstep1 : KernStep s0 (.sys (.fork ⟨0, by decide⟩, .child (some c))) s1 := .sys (.fork hp hfork)
  have hstep2 : KernStep s1 (.sys (.shuffle s1.vm.freelist [true], .unit))
      { s1 with vm := { s1.vm with freelist := s1.vm.freelist, oom := [true] } } :=
    .sys (.shuffle (List.Perm.refl _))
  cases hF with
  | @child c q' hc hproc hsz' hchild hview =>
    have hne : (⟨0, by decide⟩ : Fin nproc) ≠ c := by
      rintro rfl
      rw [hp] at hc
      cases hc
    have hp1 : s1.proc ⟨0, by decide⟩ = some q := by rw [hproc, Function.update_of_ne hne, hp]
    have hk : 0 < kernpage := by decide
    have hmem : s1.vm.mem f = fun _ => 0 := by
      have := congrFun (hview hp) 0
      simpa [Sys.view, Vm.view, hpte, hpte1, hk, hzero] using this
    refine ⟨k, _, q, f, ⟨s0, _, hboot, .cons hstep1 (.one hstep2)⟩, hp1, ?_, hpte1, ?_, ?_⟩
    · exact argptr_zeros hsz (w := false) (f := f) hpte1 hmem
    · show s1.vm.refcount f = 2
      rw [href, hone]
      rfl
    · simp [Supply.grants, Vm.supply]

/-- In every reachable state the size of a process is below `KERNBASE`, and what the argument
functions accept lies inside the process: the int, the buffer, the string with its NUL. -/
theorem user_pointers_inside [Image] {k : Option ℕ} {s : Sys} (h : Reachable k s) {p : Fin nproc}
    {q : Proc} (hp : s.proc p = some q) :
    q.sz < kernbase ∧
    (∀ addr w t, fetchint q addr s.vm = .ok (some w) t → Inside q addr 4) ∧
    (∀ esp n w t, argint q esp n s.vm = .ok (some w) t → Inside q (uint (esp + 4 + 4 * n)) 4) ∧
    (∀ esp n (size : BitVec 32) i t, argptr q esp n size s.vm = .ok (some i) t →
      0 ≤ size.toInt ∧ i < q.sz ∧ Inside q i size.toInt.toNat) ∧
    (∀ addr len t, fetchstr q addr s.vm = .ok (some len) t →
      Inside q addr (len + 1) ∧ IsString s.vm q.pgdir addr (addr + len)) ∧
    (∀ esp n addr len t, argstr q esp n s.vm = .ok (some (addr, len)) t →
      Inside q addr (len + 1) ∧ IsString s.vm q.pgdir addr (addr + len)) := by
  have hsz := h.kernInv.size hp
  refine ⟨hsz, fun addr w t hrun => ?_, fun esp n w t hrun => ?_, fun esp n size i t hrun => ?_,
    fun addr len t hrun => ?_, fun esp n addr len t hrun => ?_⟩
  · exact inside_of_le hsz ((wp_ok (fetchint_spec hsz addr) hrun).2 w rfl)
  · exact inside_of_le hsz ((wp_ok (fetchint_spec hsz _) hrun).2 w rfl)
  · obtain ⟨-, hnn, hi, hle⟩ := (wp_ok (argptr_spec hsz esp n size) hrun).2 i rfl
    exact ⟨hnn, hi, inside_of_le hsz (by omega)⟩
  · obtain ⟨hle, hstr⟩ := (wp_ok (fetchstr_spec addr) hrun).2 len rfl
    exact ⟨inside_of_le hsz (by omega), hstr⟩
  · obtain ⟨-, hle, hstr⟩ := (wp_ok (argstr_spec hsz esp n) hrun).2 (addr, len) rfl
    exact ⟨inside_of_le hsz (show addr + (len + 1) ≤ q.sz by omega), hstr⟩

/-- After `fork`, with a pointer to address 0. -/
theorem user_pointers_inside_fork : ∃ k s q f, Reachable k s ∧ s.proc ⟨0, by decide⟩ = some q ∧
    s.vm.refcount f = 2 ∧ q.sz < kernbase ∧ argptr q 0 0 1 s.vm = .ok (some 0) s.vm ∧ Inside q 0 1 := by
  obtain ⟨k, s, q, f, hreach, hp, harg, -, htwo, -⟩ := boot_fork_oom
  obtain ⟨hsz, -, -, hptr, -⟩ := user_pointers_inside hreach hp
  exact ⟨k, s, q, f, hreach, hp, htwo, hsz, harg, (hptr 0 0 1 0 _ harg).2.2⟩

/-! ## Page faults of the kernel -/

/-- The case `T_PGFLT` of `trap`: whether it returns to the interrupted instruction.  Only a process
interrupted in user mode exits. -/
def trapPgflt (p : Fin nproc) (q : Proc) (user : Bool) (va : ℕ) : SysM Bool := do
  let r ← onVm (pagefault q.pgdir va)
  let killed := q.killed || r == .killed
  setProc p (some { q with killed })
  pure !(killed && user)

/-- The handler can make the page writable: it is present, for user code, and mapped alone or there
is memory for a copy. -/
def Repairable (s : Vm) (d va : ℕ) : Prop :=
  (s.pte d (va / pgsize)).p = true ∧ (s.pte d (va / pgsize)).u = true ∧
    (s.refcount (s.pte d (va / pgsize)).frame = 1 ∨ s.supply.grants = true)

theorem pagefault_repairs {A H L : Set ℕ} {s : Vm} {d va : ℕ} (h : Inv A H L s) (hva : va < kernbase)
    (hfault : s.writable d va false = false) :
    wp (pagefault d va) (fun _ t => t.writable d va false = true ↔ Repairable s d va)
      (fun _ _ => False) s := by
  have hkern : ¬ kernbase ≤ va := by omega
  have hpw : ¬ ((s.pte d (va / pgsize)).p = true ∧ (s.pte d (va / pgsize)).w = true) := by
    rintro ⟨hp, hw⟩
    simp [Vm.writable, hva, hp, hw] at hfault
  have hwritable : ∀ t : Vm, t.writable d va false = true ↔
      (t.pte d (va / pgsize)).p = true ∧ (t.pte d (va / pgsize)).w = true := by
    intro t
    simp [Vm.writable, hva]
  simp only [hwritable, pagefault, wp_run, wp_walkpgdir_false, hkern]
  split_ifs with ht hu hp hw h1 h2
  · exact iff_of_false hpw fun hR => by simp [hR.2.1] at hu
  · exact iff_of_false hpw fun hR => by simp [hR.1] at hp
  · exact hpw ⟨by simpa using hp, hw⟩
  · have hpp : (s.pte d (va / pgsize)).p = true := by simpa using hp
    rw [Vm.pte_setPte (Vm.tab_of_pte hpp), if_pos ⟨rfl, rfl⟩]
    exact iff_of_true ⟨hpp, rfl⟩ ⟨hpp, by simpa using hu, .inl h1⟩
  · -- the frame is shared: it depends on the allocator
    have hpp : (s.pte d (va / pgsize)).p = true := by simpa using hp
    refine wp_imp kalloc_supply ?_
    rintro (_ | m) t ⟨hdir, -, -, -, hr⟩
    · rw [wp_pure, pte_of_pgdir (congrFun hdir d)]
      refine iff_of_false hpw fun hR => ?_
      rcases hR.2.2 with hone | hgrants
      · omega
      · rw [hr.1] at hgrants
        cases hgrants
    simp only [wp_run, wp_addRef]
    have ht' : (((t.setMem m (t.mem (s.pte d (va / pgsize)).frame)).addRef
        (s.pte d (va / pgsize)).frame (-1)).addRef m 1).tab d (va / pgsize / nptentries) ≠ none := by
      rw [Vm.tab_addRef, Vm.tab_addRef, Vm.tab_setMem]
      have := Vm.tab_of_pte hpp
      rwa [Vm.tab, ← congrFun hdir d] at this
    rw [Vm.pte_setPte ht', if_pos ⟨rfl, rfl⟩]
    exact iff_of_true ⟨rfl, rfl⟩ ⟨hpp, by simpa using hu, .inr hr.1⟩
  · -- a mapped frame has a positive count
    have hpp : (s.pte d (va / pgsize)).p = true := by simpa using hp
    have hk : va / pgsize < kernpage := by
      simp only [pgsize, kernpage, kernbase] at *
      omega
    have := h.refcount_pos (upage_of_present hk hpp)
    omega
  · have hzero : s.pte d (va / pgsize) = .zero := by
      have hnone : s.tab d (va / pgsize / nptentries) = none := by simpa using ht
      simp [Vm.pte, hnone]
    exact iff_of_false hpw fun hR => by simp [Repairable, hzero, Pte.zero] at hR

theorem trapPgflt_repairs [Link] {k : Option ℕ} {s : Sys} {p : Fin nproc} {q : Proc} {va : ℕ}
    (h : SysInv k s) (hva : va < kernbase) (hfault : s.vm.writable q.pgdir va false = false) :
    ∃ t, trapPgflt p q false va s = .ok true t ∧
      (t.vm.writable q.pgdir va false = true ↔ Repairable s.vm q.pgdir va) := by
  obtain ⟨L, hinv⟩ := h.inv
  have hwp : wp (trapPgflt p q false va) (fun r t => r = true ∧
      (t.vm.writable q.pgdir va false = true ↔ Repairable s.vm q.pgdir va)) (fun _ _ => False) s := by
    rw [trapPgflt, wp_bind, wp_onVm]
    refine wp_imp (pagefault_repairs hinv hva hfault) ?_
    rintro r t ht
    simp only [setProc, wp_run, Bool.and_false, Bool.not_false]
    exact ⟨trivial, ht⟩
  obtain ⟨_, t, hok, rfl, hiff⟩ := wp_returns hwp
  exact ⟨t, hok, hiff⟩

/-- A store of the kernel to an accepted address that faults: the handler returns to it, and the page
is then present and writable exactly if it could be repaired. -/
theorem kernel_store_retried [Image] {k : Option ℕ} {s : Sys} (h : Reachable k s) {p : Fin nproc}
    {q : Proc} (hp : s.proc p = some q) {esp : ℕ} {n : ℤ} {size : BitVec 32} {i a : ℕ} {v : Vm}
    (harg : argptr q esp n size s.vm = .ok (some i) v) (ha : i ≤ a ∧ a < i + size.toInt)
    (hfault : s.vm.writable q.pgdir a false = false) :
    ∃ t, trapPgflt p q false a s = .ok true t ∧
      (t.vm.writable q.pgdir a false = true ↔ Repairable s.vm q.pgdir a) := by
  have hsz := h.kernInv.size hp
  obtain ⟨-, -, -, hend⟩ := (wp_ok (argptr_spec hsz esp n size) harg).2 i rfl
  exact trapPgflt_repairs h.kernInv.toSysInv (by omega) hfault

theorem kernel_store_retried_oom : ∃ k s q t, Reachable k s ∧ s.proc ⟨0, by decide⟩ = some q ∧
    trapPgflt ⟨0, by decide⟩ q false 0 s = .ok true t ∧
      (t.vm.writable q.pgdir 0 false = true ↔ Repairable s.vm q.pgdir 0) := by
  obtain ⟨k, s, q, f, hreach, hp, harg, hpte, -⟩ := boot_fork_oom
  have hfault : s.vm.writable q.pgdir 0 false = false := by simp [Vm.writable, hpte]
  obtain ⟨t, hok, hiff⟩ := kernel_store_retried hreach hp harg (a := 0) (by decide) hfault
  exact ⟨k, s, q, t, hreach, hp, hok, hiff⟩

/-- A store to a page shared with the child, when there is no memory for a copy: `argptr` accepts the
buffer, the handler returns to the store, and the page is as it was. -/
theorem kernel_store_faults_again : ∃ k s q t, Reachable k s ∧ s.proc ⟨0, by decide⟩ = some q ∧
    argptr q 0 0 1 s.vm = .ok (some 0) s.vm ∧ s.vm.writable q.pgdir 0 false = false ∧
    trapPgflt ⟨0, by decide⟩ q false 0 s = .ok true t ∧ t.vm.writable q.pgdir 0 false = false := by
  obtain ⟨k, s, q, f, hreach, hp, harg, hpte, htwo, hnone⟩ := boot_fork_oom
  have hfault : s.vm.writable q.pgdir 0 false = false := by simp [Vm.writable, hpte]
  obtain ⟨t, hok, hiff⟩ := trapPgflt_repairs (p := ⟨0, by decide⟩) hreach.kernInv.toSysInv
    (by decide) hfault
  refine ⟨k, s, q, t, hreach, hp, harg, hfault, hok, ?_⟩
  rw [← Bool.not_eq_true, hiff]
  rintro ⟨-, -, hone | hgrants⟩
  · rw [show s.vm.pte q.pgdir (0 / pgsize) = ⟨f, true, false, true⟩ from hpte, htwo] at hone
    cases hone
  · rw [hnone] at hgrants
    cases hgrants

end Xv6

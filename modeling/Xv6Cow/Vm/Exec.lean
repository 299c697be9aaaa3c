import Xv6Cow.Lib.Bytes
import Xv6Cow.Vm.Refine

/-!
# Loading a program (`exec.c`)

`exec` builds a second address space and then replaces that of the process.  The file is whatever
`readi` delivers: for every offset and length some bytes, at most as many as were asked for.

Loading the segments is written once, for any state that has memory and a file to read: `Loader`.
-/

namespace Xv6

open Function Lts Prog

def maxarg : ℕ := 32

/-- What `readi(ip, dst, off, n)` copies to `dst`, by `off` and `n`; it returns the number of bytes. -/
abbrev File := ℕ → ℕ → List UInt8

def File.readi (ip : File) (off n : ℕ) : List UInt8 := (ip off n).take n

/-- The bytes of a list, by offset. -/
def bytesOf (bs : List UInt8) : ℕ → UInt8 := fun k => bs.getD k 0

def elfMagic : ℕ := 0x464C457F
def elfProgLoad : ℕ := 1

/-- The fields of `struct elfhdr` that `exec` reads; `entry` only goes to the trap frame. -/
structure Elfhdr where
  magic : ℕ
  phoff : ℕ
  phnum : ℕ

/-- `sizeof(struct elfhdr)`. -/
def Elfhdr.size : ℕ := 52

def Elfhdr.ofBytes (bs : List UInt8) : Elfhdr where
  magic := Bytes.le (bytesOf bs) 0 4
  phoff := Bytes.le (bytesOf bs) 28 4
  phnum := Bytes.le (bytesOf bs) 44 2

/-- The fields of `struct proghdr` that `exec` reads. -/
structure Proghdr where
  type : ℕ
  off : ℕ
  vaddr : ℕ
  filesz : ℕ
  memsz : ℕ

/-- `sizeof(struct proghdr)`. -/
def Proghdr.size : ℕ := 32

def Proghdr.ofBytes (bs : List UInt8) : Proghdr where
  type := Bytes.le (bytesOf bs) 0 4
  off := Bytes.le (bytesOf bs) 4 4
  vaddr := Bytes.le (bytesOf bs) 8 4
  filesz := Bytes.le (bytesOf bs) 16 4
  memsz := Bytes.le (bytesOf bs) 20 4

/-! ## Copying into an address space (`vm.c`) -/

/-- The state a program is loaded in: memory, and the file with its `readi`, which is `none` for -1. -/
structure Loader (m : Type → Type) where
  onVm : {α : Type} → M α → m α
  readi : ℕ → ℕ → m (Option (List UInt8))

namespace Loader

variable {m : Type → Type} [Monad m] (l : Loader m)

/-- The loop of `loaduvm`.  An entry that is not present has frame 0, and the bytes go there. -/
def loaduvmLoop (d addr offset sz i : ℕ) : m Bool :=
  if i < sz then do
    let v := (addr + i) % word / pgsize
    if ← l.onVm (walkpgdir d v false) then
      let f := ((← l.onVm get).pte d v).frame
      let n := if sz - i < pgsize then sz - i else pgsize
      match ← l.readi ((offset + i) % word) n with
      | none => pure false
      | some bs => do
        l.onVm (modify fun s => s.setMem f (Bytes.patch (s.mem f) 0 bs.length (bytesOf bs)))
        if bs.length ≠ n then pure false
        else loaduvmLoop d addr offset sz (i + pgsize)
    else l.onVm (throw "loaduvm: address should exist")
  else pure true
termination_by sz - i
decreasing_by
  simp only [pgsize] at *
  omega

def loaduvm (d addr offset sz : ℕ) : m Bool :=
  if addr % pgsize ≠ 0 then l.onVm (throw "loaduvm: addr must be page aligned")
  else l.loaduvmLoop d addr offset sz 0

/-- `readi` where anything but `n` bytes is an error. -/
def readAll (off n : ℕ) : m (Option (List UInt8)) := do
  match ← l.readi off n with
  | none => pure none
  | some bs => if bs.length ≠ n then pure none else pure (some bs)

/-- The loop of `exec` over the `n` program headers from offset `off` on: the size of the image, or
`none` for `goto bad`. -/
def loadSegments [Link] (d : ℕ) : (n off sz : ℕ) → m (Option ℕ)
  | 0, _, sz => pure (some sz)
  | n + 1, off, sz => do
    match ← l.readAll off Proghdr.size with
    | none => pure none
    | some bs =>
      let ph := Proghdr.ofBytes bs
      if ph.type ≠ elfProgLoad then loadSegments d n ((off + Proghdr.size) % word) sz
      else if ph.memsz < ph.filesz then pure none
      else if (ph.vaddr + ph.memsz) % word < ph.vaddr then pure none
      else do
        let sz ← l.onVm (allocuvm d sz ((ph.vaddr + ph.memsz) % word))
        if sz = 0 then pure none
        else if ph.vaddr % pgsize ≠ 0 then pure none
        else if ← l.loaduvm d ph.vaddr ph.off ph.filesz then
          loadSegments d n ((off + Proghdr.size) % word) sz
        else pure none

end Loader

/-- The program is loaded from a file that stays as it is. -/
def File.loader (ip : File) : Loader M := ⟨id, fun off n => pure (some (ip.readi off n))⟩

/-- The frame of user page `v`.  Where there is no page table the source reads through a null
pointer, and the model stops. -/
def uva2ka (d v : ℕ) : M (Option ℕ) := do
  if ← walkpgdir d v false then
    let s ← get
    if !(s.pte d v).p then pure none
    else if !(s.pte d v).u then pure none
    else pure (some (s.pte d v).frame)
  else throw "uva2ka: null pte"

/-- Copy the bytes `bs` to address `va`. -/
def copyout (d va : ℕ) (bs : List UInt8) : M Bool :=
  if bs = [] then pure true
  else do
    match ← uva2ka d (va / pgsize) with
    | none => pure false
    | some f => do
      let n := min (pgsize - va % pgsize) bs.length
      modify fun s => s.setMem f (Bytes.patch (s.mem f) (va % pgsize) n (bytesOf bs))
      copyout d ((va / pgsize * pgsize + pgsize) % word) (bs.drop n)
termination_by bs.length
decreasing_by
  have : va % pgsize < pgsize := Nat.mod_lt _ (by decide)
  have : 0 < bs.length := List.length_pos_iff.2 ‹_›
  rw [List.length_drop]
  omega

section Link

variable [Link]

/-! ## `exec` -/

/-- `(sp - n) & ~3`. -/
def alignDown (sp n : ℕ) : ℕ := ((sp + word - n % word) % word) / 4 * 4

/-- Push the argument strings: the stack pointer and the addresses of the strings. -/
def pushArgs (d : ℕ) : (argv : List (List UInt8)) → (sp : ℕ) → (ustack : List ℕ) →
    M (Option (ℕ × List ℕ))
  | [], sp, ustack => pure (some (sp, ustack))
  | arg :: argv, sp, ustack => do
    if maxarg ≤ ustack.length then pure none
    else do
      let sp := alignDown sp (arg.length + 1)
      if ← copyout d sp (arg ++ [0]) then pushArgs d argv sp (ustack ++ [sp])
      else pure none

/-- The words of `ustack`, as they lie in memory. -/
def ustackBytes (ustack : List ℕ) : List UInt8 :=
  ustack.flatMap fun w => (List.range 4).map (Bytes.leByte w)

/-- The two pages of the stack on top of the image of size `sz`: the size and the stack pointer, or
`none` for `goto bad`. -/
@[irreducible] def setupStack (d sz : ℕ) (argv : List (List UInt8)) : M (Option (ℕ × ℕ)) := do
  -- two pages at the next page boundary, the first one inaccessible
  let sz := pgroundup sz * pgsize
  let sz ← allocuvm d sz ((sz + 2 * pgsize) % word)
  if sz = 0 then pure none
  else do
    clearpteu d (sz - 2 * pgsize)
    match ← pushArgs d argv sz [] with
    | none => pure none
    | some (sp, addrs) => do
      let argc := addrs.length
      -- the fake return PC is 0xffffffff
      let ustack := [word - 1, argc, (sp + word - (argc + 1) * 4) % word] ++ addrs ++ [0]
      let sp := (sp + word - (3 + argc + 1) * 4) % word
      if ← copyout d sp (ustackBytes ustack) then pure (some (sz, sp))
      else pure none

/-- The part of `exec` that fills the new directory `d`: the size of the process, or `none` for
`goto bad`. -/
def execImage (d : ℕ) (ip : File) (elf : Elfhdr) (argv : List (List UInt8)) : M (Option ℕ) := do
  match ← ip.loader.loadSegments d elf.phnum elf.phoff 0 with
  | none => pure none
  | some sz => return (← setupStack d sz argv).map (·.1)

/-- `exec` of the file `ip` (`none` if `namei` found none): whether it returned 0. -/
def exec (p : Fin nproc) (q : Proc) (ip : Option File) (argv : List (List UInt8)) : SysM Bool := do
  match ip with
  | none => pure false
  | some ip =>
    let bs := ip.readi 0 Elfhdr.size
    let elf := Elfhdr.ofBytes bs
    if bs.length ≠ Elfhdr.size then pure false
    else if elf.magic ≠ elfMagic then pure false
    else
      match ← onVm setupkvm with
      | none => pure false
      | some d =>
        match ← onVm (execImage d ip elf argv) with
        | none => do
          onVm (freevm d)
          pure false
        | some sz => do
          setProc p (some { q with pgdir := d, sz })
          onVm (freevm q.pgdir)
          pure true

/-- The operations of `SysStep`, and `exec`. -/
inductive KernOp
  | sys (l : SysOp × SysRes)
  | exec (p : Fin nproc) (ip : Option File) (argv : List (List UInt8)) (r : Bool)

inductive KernStep : Sys → KernOp → Sys → Prop
  | sys {s t : Sys} {l : SysOp × SysRes} (h : SysStep s l t) : KernStep s (.sys l) t
  | exec {s t : Sys} {p : Fin nproc} {q : Proc} {ip : Option File} {argv : List (List UInt8)}
      {r : Bool} (hp : s.proc p = some q) (h : Xv6.exec p q ip argv s = .ok r t) :
      KernStep s (.exec p ip argv r) t

end Link

/-! ## What `exec` keeps -/

/-- Only the contents of pages change. -/
structure OnlyMem (s t : Vm) : Prop where
  pgdir : t.pgdir = s.pgdir
  freelist : t.freelist = s.freelist
  refcount : t.refcount = s.refcount
  wrapped : t.wrapped = s.wrapped
  oom : t.oom = s.oom

namespace OnlyMem

variable {s t u : Vm}

theorem refl (s : Vm) : OnlyMem s s := ⟨rfl, rfl, rfl, rfl, rfl⟩

theorem setMem (s : Vm) (f : ℕ) (pg : Page) : OnlyMem s (s.setMem f pg) := ⟨rfl, rfl, rfl, rfl, rfl⟩

theorem trans (h : OnlyMem s t) (h' : OnlyMem t u) : OnlyMem s u :=
  ⟨h'.pgdir.trans h.pgdir, h'.freelist.trans h.freelist, h'.refcount.trans h.refcount,
    h'.wrapped.trans h.wrapped, h'.oom.trans h.oom⟩

theorem pte (h : OnlyMem s t) : t.pte = s.pte := by
  funext d v
  simp only [Vm.pte, Vm.tab, h.pgdir]

theorem live (h : OnlyMem s t) : t.live = s.live := by
  funext d
  simp only [Vm.live, h.pgdir]

theorem inv {A H L : Set ℕ} (h : OnlyMem s t) (hI : Inv A H L s) : Inv A H L t := by
  refine hI.congr h.live ?_ (upage_congr h.pte) h.freelist h.refcount h.wrapped
  funext d i
  simp only [Vm.tabFrame, Vm.tab, h.pgdir]

end OnlyMem

variable {s : Vm} {d : ℕ}

theorem loaduvmLoop_mem {addr offset sz i : ℕ} {ip : File} (s : Vm) :
    wp (ip.loader.loaduvmLoop d addr offset sz i) (fun _ t => OnlyMem s t) (fun _ _ => True) s := by
  rw [Loader.loaduvmLoop, wp_ite]
  by_cases hi : i < sz
  · simp only [hi, File.loader, id, wp_run, wp_walkpgdir_false]
    generalize (if sz - i < pgsize then sz - i else pgsize) = n
    split_ifs with ht hn
    · exact .setMem ..
    · exact wp_imp (loaduvmLoop_mem _) (fun _ _ h => (OnlyMem.setMem ..).trans h)
  · rw [if_neg hi]
    exact .refl s
termination_by sz - i
decreasing_by
  simp only [pgsize] at *
  omega

theorem loaduvm_mem {addr offset sz : ℕ} {ip : File} :
    wp (ip.loader.loaduvm d addr offset sz) (fun _ t => OnlyMem s t) (fun _ _ => True) s := by
  rw [Loader.loaduvm, wp_ite]
  split_ifs
  · trivial
  · exact loaduvmLoop_mem s

theorem uva2ka_mem {v : ℕ} : wp (uva2ka d v) (fun _ t => t = s) (fun _ _ => True) s := by
  simp only [uva2ka, wp_run, wp_walkpgdir_false]
  split_ifs

theorem copyout_mem {va : ℕ} {bs : List UInt8} (s : Vm) :
    wp (copyout d va bs) (fun _ t => OnlyMem s t) (fun _ _ => True) s := by
  rw [copyout, wp_ite]
  by_cases hb : bs = []
  · rw [if_pos hb]
    exact .refl s
  rw [if_neg hb, wp_bind]
  refine wp_imp uva2ka_mem ?_
  rintro (_ | f) _ rfl
  · exact .refl _
  · simp only [wp_run]
    exact wp_imp (copyout_mem _) (fun _ _ h => (OnlyMem.setMem ..).trans h)
termination_by bs.length
decreasing_by
  have : va % pgsize < pgsize := Nat.mod_lt _ (by decide)
  have : 0 < bs.length := List.length_pos_iff.2 ‹_›
  rw [List.length_drop]
  omega

theorem pushArgs_mem {argv : List (List UInt8)} : ∀ {s : Vm} {sp : ℕ} {ustack : List ℕ},
    wp (pushArgs d argv sp ustack) (fun _ t => OnlyMem s t) (fun _ _ => True) s := by
  induction argv with
  | nil => exact fun {s _ _} => .refl s
  | cons arg argv ih =>
    intro s sp ustack
    rw [pushArgs, wp_ite]
    split_ifs
    · exact .refl s
    rw [wp_bind]
    refine wp_imp (copyout_mem _) ?_
    rintro (_ | _) t ht
    · exact ht
    · exact wp_imp ih (fun _ _ h => ht.trans h)

section Link

variable [Link] {A H : Set ℕ}

/-- The new address space `d` is under construction: `r` is its size so far, if nothing failed. -/
structure Building (A H : Set ℕ) (d : ℕ) (s : Vm) (r : Option ℕ) (t : Vm) : Prop where
  inv : ∃ L, Inv A H L t
  live : t.live = s.live
  others : Others d s t
  size : ∀ sz, r = some sz → sz < kernbase

omit [Link] in
theorem Building.mem {s t u : Vm} {r : Option ℕ} (h : Building A H d s r t) (hm : OnlyMem t u) :
    Building A H d s r u :=
  ⟨h.inv.imp fun _ => hm.inv, hm.live.trans h.live, h.others.trans
    (.of_upage (upage_congr hm.pte)), h.size⟩

omit [Link] in
theorem Building.fail {s t : Vm} {r : Option ℕ} (h : Building A H d s r t) : Building A H d s none t :=
  ⟨h.inv, h.live, h.others, nofun⟩

theorem Building.alloc {s t : Vm} {r : Option ℕ} {sz newsz : ℕ} (h : Building A H d s r t)
    (hd : s.live d = true) : wp (allocuvm d sz newsz) (fun sz' u => Building A H d s none u ∧
      (sz' = 0 ∨ newsz < kernbase ∧ sz' = max sz newsz)) (fun _ _ => True) t := by
  obtain ⟨L, hI⟩ := h.inv
  refine wp_lax (allocuvm_spec hI (by rw [h.live, hd])) ?_
  rintro sz' u ⟨hr, hI', hG⟩
  exact ⟨⟨hI', hG.live.trans h.live, h.others.trans hG.others, nofun⟩, hr⟩

omit [Link] in
theorem Building.sized {s t : Vm} {sz : ℕ} (h : Building A H d s none t) (hsz : sz < kernbase) :
    Building A H d s (some sz) t :=
  ⟨h.inv, h.live, h.others, fun _ he => Option.some.inj he ▸ hsz⟩

theorem loadSegments_spec {ip : File} {s : Vm} {n : ℕ} (hd : s.live d = true) :
    ∀ {t : Vm} {off sz : ℕ}, Building A H d s (some sz) t →
    wp (ip.loader.loadSegments d n off sz) (Building A H d s) (fun _ _ => True) t := by
  induction n with
  | zero => exact fun {t off sz} h => h
  | succ n ih =>
    intro t off sz h
    simp only [Loader.loadSegments, Loader.readAll, File.loader, wp_run]
    split
    · exact h.fail
    split
    · exact ih h
    split
    · exact h.fail
    split
    · exact h.fail
    refine wp_imp (h.alloc hd) ?_
    rintro sz1 t1 ⟨hbad, hr⟩
    split_ifs with hz
    · exact hbad
    · exact hbad
    · obtain ⟨hk, rfl⟩ := hr.resolve_left hz
      refine wp_imp loaduvm_mem ?_
      rintro (_ | _) t2 ht
      · exact hbad.mem ht
      · exact ih ((hbad.sized (max_lt (h.size sz rfl) hk)).mem ht)

theorem setupStack_spec {s t : Vm} {sz : ℕ} {argv : List (List UInt8)}
    (h : Building A H d s (some sz) t)
    (hd : s.live d = true) : wp (setupStack d sz argv) (fun r u => Building A H d s (r.map (·.1)) u)
      (fun _ _ => True) t := by
  have hsz := h.size sz rfl
  unfold setupStack
  dsimp only
  generalize hn : (pgroundup sz * pgsize + 2 * pgsize) % word = newsz
  rw [wp_bind]
  refine wp_imp (h.alloc hd) ?_
  rintro sz1 t2 ⟨hbad, hr⟩
  rw [wp_ite]
  split_ifs with hz
  · exact hbad
  -- the two pages start at most at `KERNBASE` and end below it
  have hlt : sz1 < kernbase := by
    obtain ⟨hk, rfl⟩ := hr.resolve_left hz
    simp only [pgroundup, pgsize, word, kernbase] at *
    omega
  obtain ⟨L, hI⟩ := hbad.inv
  rw [wp_bind]
  refine wp_lax (clearpteu_spec hI) ?_
  rintro _ t3 ⟨hI3, hl3, ho3⟩
  have h3 : Building A H d s none t3 := ⟨⟨L, hI3⟩, hl3.trans hbad.live, hbad.others.trans ho3, by simp⟩
  rw [wp_bind]
  refine wp_imp pushArgs_mem ?_
  rintro (_ | ⟨sp, addrs⟩) t4 ht4
  · exact h3.mem ht4
  simp only [wp_run]
  refine wp_imp (copyout_mem t4) ?_
  rintro (_ | _) t5 ht5
  · exact h3.mem (ht4.trans ht5)
  · exact (h3.sized hlt).mem (ht4.trans ht5)

theorem execImage_spec {ip : File} {elf : Elfhdr} {argv : List (List UInt8)} (hI : ∃ L, Inv A H L s)
    (hd : s.live d = true) :
    wp (execImage d ip elf argv) (Building A H d s) (fun _ _ => True) s := by
  have h0 : Building A H d s (some 0) s := ⟨hI, rfl, .of_upage rfl, fun _ he =>
    by cases he; norm_num [kernbase]⟩
  rw [execImage, wp_bind]
  refine wp_imp (loadSegments_spec hd h0) ?_
  rintro (_ | sz) t h1
  · exact h1
  · simp only [wp_run]
    exact setupStack_spec h1 hd

variable {k : Option ℕ} {s t : Sys} {p : Fin nproc} {q : Proc}

theorem KernInv.replaceDir (h : KernInv k s) (hp : s.proc p = some q) {d sz : ℕ} {v : Vm}
    (hd : s.vm.live d = false) (hsz : sz < kernbase) (hI : ∃ L, Inv frames s.kstacks L v)
    (hl : v.live = update (update s.vm.live d true) q.pgdir false)
    (ho : ∀ y, y ≠ d → y ≠ q.pgdir → v.upage y = s.vm.upage y) :
    KernInv k { proc := update s.proc p (some { q with pgdir := d, sz }), vm := v } := by
  have hne := h.booked.pgdir_ne hp hd
  obtain ⟨hb, hks⟩ := h.booked.replace (v := v) (r := { q with pgdir := d, sz }) hp
    (by rw [update_of_ne hne.symm, hd]) rfl hsz
  rw [update_comm hne] at hb
  refine Booked.kernInv (hl ▸ hb) (hks ▸ hI) fun hk v' => ?_
  exact (congrFun (ho _ (h.booked.kern_ne hk hd) (h.nobody hk hp)) v').trans (h.empty hk v')

theorem exec_spec (h : KernInv k s) (hp : s.proc p = some q) (ip : Option File)
    (argv : List (List UInt8)) : wp (exec p q ip argv) (fun _ t => KernInv k t) Stops s := by
  rcases ip with _ | ip
  · exact h
  obtain ⟨L, hI⟩ := h.inv
  simp only [exec, wp_run, wp_onVm]
  split_ifs
  · exact h
  · exact h
  refine wp_lax (setupkvm_spec hI) ?_
  rintro (_ | d) v ⟨hI1, hr⟩
  · exact h.setVm ⟨L, hI1⟩ hr.live fun _ => by rw [hr.upage]
  have hm : Made d s.vm v := hr
  simp only [wp_bind, wp_onVm]
  refine wp_imp (execImage_spec ⟨L, hI1⟩ (by simp [hm.live])) ?_
  rintro (_ | sz) v2 hB <;> obtain ⟨⟨L2, hI2⟩, hl2, ho2, hsz⟩ := hB
  · simp only [wp_bind, wp_onVm]
    refine wp_lax (freevm_spec hI2 (by simp [hl2, hm.live])) ?_
    rintro _ v3 ⟨hI3, hF⟩
    refine h.setVm ⟨L2, hI3⟩ ?_ fun {d'} hk => ?_
    · rw [hF.live, hl2, hm.live, update_idem, ← hm.fresh, update_eq_self]
    have hne : d' ≠ d := by
      rintro rfl
      exact absurd (h.kern hk) (by rw [hm.fresh]; decide)
    rw [hF.others d' hne, ho2 d' hne, hm.upage]
  · simp only [wp_run, setProc, wp_onVm]
    have hlive : v2.live q.pgdir = true := by
      have hne : q.pgdir ≠ d := by
        rintro rfl
        exact absurd (h.live hp) (by rw [hm.fresh]; decide)
      rw [hl2, hm.live, update_of_ne hne]
      exact h.live hp
    refine wp_lax (freevm_spec hI2 hlive) ?_
    rintro _ v3 ⟨hI3, hF⟩
    refine h.replaceDir hp hm.fresh (hsz sz rfl) ⟨L2, hI3⟩ (by rw [hF.live, hl2, hm.live])
      fun y hy hyq => ?_
    rw [hF.others y hyq, ho2 y hy, hm.upage]

theorem kernInv_step {l : KernOp} (h : KernInv k s) (hs : KernStep s l t) : KernInv k t := by
  cases hs with
  | sys hs =>
    cases hs with
    | fork hp hrun => exact (wp_ok (fork_spec h hp) hrun).1
    | sbrk hp hrun => exact (wp_ok (growproc_spec h hp _) hrun).1
    | store hp hrun => exact (wp_ok (store_spec h hp _ _ _) hrun).1
    | load hp hrun => exact (wp_ok (load_spec h hp _) hrun).1
    | exitWait hp hrun => exact (wp_ok (exitWait_spec h hp) hrun).1
    | shuffle hp => exact h.shuffle hp
  | exec hp hrun => exact wp_ok (exec_spec h hp _ _) hrun

end Link

/-- The states of the machine after boot. -/
def Reachable [Link] (k : Option ℕ) (s : Sys) : Prop :=
  ∃ s0 ls, BootsTo k s0 ∧ Run KernStep s0 ls s

theorem Reachable.kernInv [Image] {k : Option ℕ} {s : Sys} (h : Reachable k s) : KernInv k s := by
  obtain ⟨s0, ls, ⟨v0, init, n, hmain, -, hinit⟩, hrun⟩ := h
  obtain ⟨hI0, hb0⟩ := wp_ok mainInit_spec hmain
  have h0 : KernInv k s0 := wp_ok (userinit_spec hI0 hb0 init n) hinit
  exact hrun.invariant h0 fun _ _ _ h' hs => kernInv_step h' hs

end Xv6

import Xv6Cow.Fs.Tree
import Xv6Cow.Lib.Refs

/-!
# What the system calls do

`Effect s c u`: when the call `c`, made in the state `s`, returns, it leaves the state `u`, up to
the inode cache.  The effects mention neither locks nor the references of the call, so what a call
keeps is proved about them; `call_rule` shows that every call has one of its effects.
-/

namespace Xv6.Names

open Function Finset Refs

/-! ## Counting users and descriptors -/

/-- The descriptors that refer to the file. -/
def fileDescs (ofile : Pid → Fd → Option Fid) (f : Fid) : ℕ :=
  (univ.filter fun x : Pid × Fd => ofile x.1 x.2 = some f).card

namespace Fs

def descs (s : Fs) (f : Fid) : ℕ := fileDescs s.ofile f

def withProcs (s : Fs) (live : Pid → Bool) (cwd : Pid → ℕ) : Fs := { s with live := live, cwd := cwd }

variable {s : Fs} {f : Fid} {p : Pid} {fd : Fd} {i j : ℕ}

theorem users_setFile (s : Fs) (f : Fid) (x : File) (i : ℕ) : (s.setFile f x).users i +
        (if 0 < (s.ftable f).ref ∧ (s.ftable f).ip = some i then 1 else 0) =
      s.users i + if 0 < x.ref ∧ x.ip = some i then 1 else 0 := by
  have hfile : fileUsers (update s.ftable f x) i + _ = fileUsers s.ftable i + _ :=
    card_filter_swap f (by intro g hg; simp [hg])
  simp only [update_self] at hfile
  have hnew : (s.setFile f x).users i =
      fileUsers (update s.ftable f x) i + cwdUsers s.live s.cwd i := rfl
  have hold : s.users i = fileUsers s.ftable i + cwdUsers s.live s.cwd i := rfl
  omega

theorem users_withProcs (s : Fs) (p : Pid) (b : Bool) (c i : ℕ) :
    (s.withProcs (update s.live p b) (update s.cwd p c)).users i +
        (if s.live p ∧ s.cwd p = i then 1 else 0) =
      s.users i + if b ∧ c = i then 1 else 0 := by
  have hcwd : cwdUsers (update s.live p b) (update s.cwd p c) i + _ = cwdUsers s.live s.cwd i + _ :=
    card_filter_swap p (by intro q hq; simp [hq])
  simp only [update_self] at hcwd
  have hnew : (s.withProcs (update s.live p b) (update s.cwd p c)).users i = fileUsers s.ftable i +
        cwdUsers (update s.live p b) (update s.cwd p c) i := rfl
  have hold : s.users i = fileUsers s.ftable i + cwdUsers s.live s.cwd i := rfl
  omega

theorem descs_setOfile (s : Fs) (p : Pid) (fd : Fd) (x : Option Fid) (f : Fid) :
    (s.setOfile p fd x).descs f + (if s.ofile p fd = some f then 1 else 0) =
      s.descs f + if x = some f then 1 else 0 := by
  have := card_filter_swap (P := fun y : Pid × Fd => (s.setOfile p fd x).ofile y.1 y.2 = some f)
    (Q := fun y : Pid × Fd => s.ofile y.1 y.2 = some f) (p, fd) ?_
  · simpa [setOfile, descs, fileDescs] using this
  rintro ⟨q, fd'⟩ hne
  by_cases hq : q = p
  · subst hq
    have : fd' ≠ fd := by
      rintro rfl
      exact hne rfl
    simp [setOfile, this]
  · simp [setOfile, hq]

/-! ## The effects -/

/-- `sys_link` that succeeds. -/
def linked (s : Fs) (i dp : ℕ) (name : Name) : Fs :=
  (s.addLink i 1).setEnts dp (putEntry ⟨i, name.take dirsiz⟩ (s.inode dp).ents)

/-- The first two entries of a new inode. -/
def dotsOf (type : IType) (i dp : ℕ) : List Dirent :=
  if type = .dir then [⟨i, dot⟩, ⟨dp, dotdot⟩] else []

/-- `create` that makes a new inode. -/
def created (s : Fs) (dp : ℕ) (name : Name) (type : IType) (i : ℕ) : Fs :=
  ((s.setInode i ⟨type, 1, dotsOf type i dp⟩).addLink dp (if type = .dir then 1 else 0)).setEnts dp
    (putEntry ⟨i, name.take dirsiz⟩ (s.inode dp).ents)

/-- The entry is cleared, and the link of `..` given back. -/
def cutEntry (s : Fs) (dp slot i : ℕ) : Fs :=
  (s.setEnts dp ((s.inode dp).ents.set slot ⟨0, []⟩)).addLink dp
    (if (s.inode i).type = .dir then -1 else 0)

/-- `sys_unlink` that succeeds; it gives the directory up before it drops the link. -/
def unlinked (s : Fs) (dp slot i : ℕ) : Fs :=
  (((s.cutEntry dp slot i).release {i} dp).addLink i (-1)).release 0 i

/-- `sys_open` that succeeds. -/
def opened (s : Fs) (p : Pid) (f : Fid) (fd : Fd) (i : ℕ) : Fs :=
  (s.setFile f ⟨1, some i⟩).setOfile p fd (some f)

/-- `sys_chdir` that succeeds. -/
def moved (s : Fs) (p : Pid) (i : ℕ) : Fs := (s.setCwd p i).release 0 (s.cwd p)

/-- `fileclose`, when the call holds the references `T`. -/
def closeFile (s : Fs) (T : Multiset ℕ) (f : Fid) : Fs :=
  if 1 < (s.ftable f).ref then s.setFile f { s.ftable f with ref := (s.ftable f).ref - 1 }
  else
    match (s.ftable f).ip with
    | none => s.setFile f ⟨0, none⟩
    | some i => (s.setFile f ⟨0, none⟩).release T i

/-- A descriptor of the file is closed. -/
def closeFd (s : Fs) (p : Pid) (fd : Fd) (f : Fid) : Fs := (s.closeFile 0 f).setOfile p fd none

/-- The loop of `exit`. -/
def closeFds (s : Fs) (p : Pid) : List Fd → Fs
  | [] => s
  | fd :: fds =>
    match s.ofile p fd with
    | none => closeFds s p fds
    | some f => closeFds (s.closeFd p fd f) p fds

/-- A process ends, its descriptors being closed. -/
def ended (s : Fs) (p : Pid) : Fs :=
  (s.withProcs (update s.live p false) (update s.cwd p 0)).release 0 (s.cwd p)

/-- A second descriptor for an open file. -/
def dupFd (s : Fs) (p : Pid) (fd : Fd) (f : Fid) : Fs :=
  (s.setFile f { s.ftable f with ref := (s.ftable f).ref + 1 }).setOfile p fd (some f)

/-- The loop of `fork`. -/
def dupFds (s : Fs) (p child : Pid) : List Fd → Fs
  | [] => s
  | fd :: fds =>
    match s.ofile p fd with
    | none => dupFds s p child fds
    | some f => dupFds (s.dupFd child fd f) p child fds

/-- A process begins, in the current directory of its parent. -/
def begun (s : Fs) (p child : Pid) : Fs :=
  s.withProcs (update s.live child true) (update s.cwd child (s.cwd p))

end Fs

/-- The file table counts the descriptors. -/
structure Counted (s : Fs) : Prop where
  ref : ∀ f, (s.ftable f).ref = s.descs f
  idle : ∀ f, (s.ftable f).ref = 0 → (s.ftable f).ip = none

/-- The descriptors are those of live processes. -/
structure FilesOk (s : Fs) : Prop extends Counted s where
  dead : ∀ p, s.live p = false → ∀ fd, s.ofile p fd = none

/-! ## More rules for the ledger -/

open Prog

variable {s u : Fs} {T T' : Multiset ℕ} {L : Finset ℕ} {i j dp : ℕ} {x : Dinode}

theorem Held.move (h : Held s T L) (hino : u.inode = s.inode) (hic : u.icache = s.icache)
    (hcount : ∀ i, u.users i + T'.count i = s.users i + T.count i) (hown : ∀ i ∈ L, i ∈ T')
    (hused : ∀ i, 0 < u.users i → (s.inode i).type ≠ .free) : Held u T' L where
  ref i := by
    rw [hic, h.ref i, hcount i]
  locked i := by
    rw [hic]
    exact h.locked i
  own := hown
  read i := by
    rw [hic]
    exact h.read i
  lt i := by
    rw [hic]
    exact h.lt i
  typed i := by
    rw [hic, hino]
    exact h.typed i
  kept i := by
    rw [hic, hino]
    exact h.kept i
  used i := by
    rw [hino]
    exact hused i

theorem Held.edit (h : Held s T L) (hi : i ∈ L) (hx : x.type ≠ .free) :
    Held (s.setInode i x) T L := by
  have hpos := h.ref_pos (h.own i hi)
  have : Held ((s.setInode i x).setCached i (s.icache i)) T L :=
    h.change x (s.icache i) (h.ref i) (fun _ _ => rfl) (h.locked i) (fun _ _ => Iff.rfl) (h.own i)
      (h.read i) (h.lt i) (fun _ _ => hx) (fun _ _ => ⟨hpos, h.read i hi⟩) (fun _ => hx)
  have hself : (s.setInode i x).setCached i (s.icache i) = s.setInode i x := by
    simp [Fs.setCached, Fs.setInode]
  rwa [hself] at this

theorem iput_waits (h : Held s T L) (hi : i ∈ L) :
    wp (iput i) (fun _ _ => False) (fun e _ => e = .waits i) s := by
  have := (h.locked i).2 hi
  simp [iput, acquiresleep, this]

theorem iput_frame (i : ℕ) (s : Fs) :
    wp (iput i) (fun _ t => t.live = s.live ∧ t.cwd = s.cwd ∧ t.ofile = s.ofile ∧
      t.ftable = s.ftable) (fun _ _ => True) s := by
  simp only [iput, acquiresleep, releasesleep, freeInode, wp_run]
  split_ifs
  · exact ⟨rfl, rfl, rfl, rfl⟩
  · exact ⟨rfl, rfl, rfl, rfl⟩

/-! ## Directories -/

variable {name : Name}

theorem scan_lt_of_ne {es : List Dirent} {a b : Dirent} {r : ℕ × ℕ}
    (ha : namecmp name a.name = false) (hb : namecmp name b.name = false)
    (h : scan name (a :: b :: es) = some r) : 2 ≤ r.1 := by
  simp only [scan, ha, hb, Bool.false_eq_true, and_false, if_false, Option.map_eq_some_iff] at h
  obtain ⟨r1, ⟨r2, -, rfl⟩, rfl⟩ := h
  exact Nat.le_add_left 2 r2.1

/-- `dirlink` refuses a name that is there; it waits if that names an inode whose lock is held. -/
theorem dirlink_rule (h : Held s T L) (hr : InRange s.inode) (hd : (s.inode dp).type = .dir)
    (hdp : dp ∈ L) (hkeep : ∀ j, ¬ s.dies T j) (name : Name) (inum : ℕ) :
    wp (dirlink dp name inum) (fun b t => match scan name (s.inode dp).ents with
        | none => b = true ∧ CacheOnly
            (s.setEnts dp (putEntry ⟨inum, name.take dirsiz⟩ (s.inode dp).ents)) T L t
        | some r => r.2 ∉ L ∧ b = false ∧ CacheOnly s T L t)
      (fun e _ => match scan name (s.inode dp).ents with
        | none => e = .panic "dirlink"
        | some r => if r.2 ∈ L then e = .waits r.2 else e = .panic "iget: no inodes") s := by
  simp only [dirlink, panic, wp_bind]
  refine wp_mono (dirlookup_rule h hr hd name) ?_ ?_
  · rintro r t ⟨hscan, ht⟩
    rw [hscan]
    rcases r with _ | r
    · subst ht
      simp only [wp_run]
      split_ifs
      refine ⟨trivial, t.icache, rfl, h.edit hdp ?_⟩
      rw [hd]
      rintro ⟨⟩
    obtain ⟨-, c, rfl, ht⟩ := ht
    simp only [wp_bind]
    by_cases hL : r.2 ∈ L
    · refine wp_mono (iput_waits ht hL) (fun _ _ hQ => hQ.elim) ?_
      intro e _ he
      simpa [hL] using he
    · refine wp_call (iput_keep ht hL (hkeep r.2)) ?_
      intro _ t ht
      exact ⟨hL, rfl, ht⟩
  · rintro e t ⟨rfl, r, hscan, hroom⟩
    have hL : r.2 ∉ L := by
      intro hL
      refine hroom (.inl ?_)
      have hT := h.own _ hL
      have := Multiset.count_pos.2 hT
      simp only [Fs.pinned, Finset.mem_filter, Finset.mem_range]
      exact ⟨h.lt_of_mem hT, by omega⟩
    simp [hscan, hL]

/-! ## Results and errors of walks -/

/-- Every entry in use, `..` included, names an allocated inode. -/
def AllAlloc (ino : ℕ → Dinode) : Prop :=
  ∀ d, ∀ e ∈ (ino d).ents, e.inum ≠ 0 → (ino e.inum).type ≠ .free

/-- A panic, and not for want of an inode's type unless an entry is dangling. -/
def Panics (s : Fs) (e : Stop) : Prop :=
  ∃ msg, e = .panic msg ∧ (msg = "ilock: no type" → ¬ AllAlloc s.inode)

variable {e : Stop}

theorem Panics.of_ne {msg : String} (he : e = .panic msg) (h : msg ≠ "ilock: no type") :
    Panics s e :=
  ⟨msg, he, fun hm => absurd hm h⟩

variable {H : Finset ℕ} {ino : ℕ → Dinode} {names : List Name}

theorem walk_dir (h : walk ino H true i names = .ok (some (dp, name))) : (ino dp).type = .dir := by
  induction names generalizing i with
  | nil => simp [walk] at h
  | cons n rest ih =>
    rw [walk] at h
    split_ifs at h with hfree hdir hlast
    · cases h
    · cases h
      exact not_not.1 hdir
    · split at h
      · cases h
      · split_ifs at h
        exact ih h

theorem resolve_dir {p : Pid} {path : List Char}
    (h : resolve s H p path true = .ok (some (dp, name))) : (s.inode dp).type = .dir := by
  unfold resolve at h
  split_ifs at h
  · exact walk_dir h
  · exact walk_dir h

variable {parent : Bool}

/-- The result of a walk is allocated, unless it hit a dangling entry. -/
theorem walk_alloc (hall : AllAlloc ino) (hi : (ino i).type ≠ .free) :
    match walk ino H parent i names with
    | .ok r => ∀ y ∈ r, (ino y.1).type ≠ .free
    | .error e => e = .panic "iget: no inodes" := by
  induction names generalizing i with
  | nil => cases parent <;> simp [walk, hi]
  | cons n rest ih =>
    rw [walk, if_neg hi]
    split_ifs with hdir hlast
    · simp
    · simpa using hi
    rcases hscan : scan n (ino i).ents with _ | next
    · simp
    obtain ⟨e, hmem, he, h0, -⟩ := scan_mem hscan
    simp only
    split_ifs with hroom
    · exact ih (he ▸ hall i e (List.mem_of_getElem? hmem) h0)
    · rfl

theorem resolve_alloc (h : Held s T L) (ht : Tree s.inode) {p : Pid}
    (hp : s.live p = true) (path : List Char) (parent : Bool) (hall : AllAlloc s.inode) :
    match resolve s H p path parent with
    | .ok r => ∀ y ∈ r, (s.inode y.1).type ≠ .free
    | .error e => e = .panic "iget: no inodes" := by
  unfold resolve
  split_ifs
  · refine walk_alloc hall ?_
    rw [ht.root.1]
    nofun
  · rfl
  · exact walk_alloc hall (h.used _ (s.users_cwd_pos hp))

theorem walk_panics (h : walk ino H parent i names = .error e) : ∃ msg, e = .panic msg := by
  induction names generalizing i with
  | nil => simp [walk] at h
  | cons n rest ih =>
    rw [walk] at h
    split_ifs at h with hfree hdir hlast
    · cases h
      exact ⟨_, rfl⟩
    split at h
    · cases h
    split_ifs at h
    · exact ih h
    · cases h
      exact ⟨_, rfl⟩

theorem resolve_panics (h : Held s T L) (ht : Tree s.inode) {p : Pid}
    (hp : s.live p = true) {path : List Char}
    (he : resolve s H p path parent = .error e) : Panics s e := by
  obtain ⟨msg, rfl⟩ : ∃ msg, e = .panic msg := by
    unfold resolve at he
    split_ifs at he
    · exact walk_panics he
    · cases he
      exact ⟨_, rfl⟩
    · exact walk_panics he
  refine ⟨msg, rfl, ?_⟩
  rintro rfl hall
  have := resolve_alloc (H := H) h ht hp path parent hall
  rw [he] at this
  simp at this

/-! ## New inodes -/

theorem ialloc_rule (h : Held s T L) (hT : ∀ j ∈ T, (s.inode j).type ≠ .free) (type : IType) :
    wp (ialloc type)
      (fun i t => (s.inode i).type = .free ∧ 0 < i ∧ i < ninodes ∧ (s.icache i).ref = 0 ∧
        t = (s.setInode i ⟨type, 0, []⟩).setCached i ⟨1, false, false⟩)
      (fun e _ => e = .panic "ialloc: no inodes" ∨ e = .panic "iget: no inodes") s := by
  simp only [ialloc, panic, wp_run]
  rcases hfind : (List.range' 1 (ninodes - 1)).find? fun i => (s.inode i).type = .free with _ | i
  · simp
  have hfree : (s.inode i).type = .free := by simpa using List.find?_some hfind
  have hmem := List.mem_of_find?_eq_some hfind
  have hrange : 0 < i ∧ i < ninodes := by
    simp only [List.mem_range'_1, ninodes] at hmem ⊢
    omega
  have hzero : (s.icache i).ref = 0 := by
    rw [h.ref i]
    by_contra hne
    rcases Nat.pos_iff_ne_zero.2 hne |> Nat.add_pos_iff_pos_or_pos.1 with hu | hc
    · exact h.used i hu hfree
    · exact hT i (Multiset.count_pos.1 hc) hfree
  simp only [iget, panic, wp_run, Fs.setInode_icache, hzero, lt_irrefl]
  split_ifs
  · exact ⟨hfree, hrange.1, hrange.2, trivial, trivial⟩
  · exact .inr trivial

variable {type : IType}

theorem newInode_rule (h : Held s T L) (hT : ∀ j ∈ T, (s.inode j).type ≠ .free)
    (hty : type ≠ .free) :
    wp (newInode type) (fun i t => (s.inode i).type = .free ∧ 0 < i ∧ i < ninodes ∧
        CacheOnly (s.setInode i ⟨type, 1, []⟩) (i ::ₘ T) (insert i L) t)
      (fun e _ => e = .panic "ialloc: no inodes" ∨ e = .panic "iget: no inodes") s := by
  simp only [newInode, wp_bind]
  refine wp_imp (ialloc_rule h hT type) ?_
  rintro i _ ⟨hfree, h0, hlt, hzero, rfl⟩
  have hheld : Held ((s.setInode i ⟨type, 1, []⟩).setCached i ⟨1, true, true⟩) (i ::ₘ T)
      (insert i L) := by
    refine h.change _ _ ?_ (fun j hj => Multiset.count_cons_of_ne hj T) (by simp) ?_ ?_
      (fun _ => rfl) (fun _ => hlt) (fun _ _ => hty) (fun _ _ => ⟨Nat.one_pos, rfl⟩) (fun _ => hty)
    · have := h.ref i
      simp only [Multiset.count_cons_self]
      omega
    · intro j hj
      simp [hj]
    · exact fun _ => Multiset.mem_cons_self i T
  have hout : CacheOnly (s.setInode i ⟨type, 1, []⟩) (i ::ₘ T) (insert i L)
      ((s.setInode i ⟨type, 1, []⟩).setCached i ⟨1, true, true⟩) := ⟨_, rfl, hheld⟩
  simp only [ilock, acquiresleep, panic, wp_run, Fs.setCached_icache_self, Fs.setCached_inode,
    Fs.setCached_setCached, Fs.setInode_inode_self, hty, lt_irrefl, not_false_eq_true]
  refine ⟨hfree, h0, hlt, ?_⟩
  simpa [Fs.setCached, Fs.setInode] using hout

theorem InRange.update (h : InRange ino) (hx : ∀ e ∈ x.ents, e.inum < ninodes) :
    InRange (update ino i x) := by
  intro d
  by_cases hd : d = i
  · subst hd
    simpa using hx
  · simpa [hd] using h d

theorem created_of_dir (s : Fs) (name : Name) (hne : i ≠ dp) :
    ((((s.setInode i ⟨.dir, 1, []⟩).addLink dp 1).setEnts i [⟨i, dot⟩]).setEnts i
      [⟨i, dot⟩, ⟨dp, dotdot⟩]).setEnts dp (putEntry ⟨i, name.take dirsiz⟩ (s.inode dp).ents) =
      s.created dp name .dir i := by
  simp only [Fs.created, Fs.dotsOf, Fs.setInode, Fs.addLink, Fs.setEnts, if_true]
  congr 1
  funext j
  by_cases hj : j = dp
  · subst hj
    simp [hne.symm]
  by_cases hi : j = i
  · subst hi
    simp [hj]
  · simp [hj, hi]

theorem created_of_ne_dir (s : Fs) (name : Name) (hne : i ≠ dp) (hty : type ≠ .dir) :
    (s.setInode i ⟨type, 1, []⟩).setEnts dp (putEntry ⟨i, name.take dirsiz⟩ (s.inode dp).ents) =
      s.created dp name type i := by
  simp only [Fs.created, Fs.dotsOf, Fs.setInode, Fs.addLink, Fs.setEnts, hty, if_false]
  congr 1
  funext j
  by_cases hj : j = dp
  · subst hj
    simp [hne.symm]
  · simp [hj]

/-- A panic other than "ilock: no type". -/
def OtherPanic (e : Stop) : Prop := ∃ msg, e = .panic msg ∧ msg ≠ "ilock: no type"

theorem OtherPanic.panics (h : OtherPanic e) : Panics s e := by
  obtain ⟨msg, he, hne⟩ := h
  exact .of_ne he hne

theorem dirlink_new (h : Held s T L) (hr : InRange s.inode) (hd : (s.inode dp).type = .dir)
    (hdp : dp ∈ L) (hscan : scan name (s.inode dp).ents = none) (inum : ℕ) :
    wp (dirlink dp name inum) (fun b t => b = true ∧ CacheOnly
        (s.setEnts dp (putEntry ⟨inum, name.take dirsiz⟩ (s.inode dp).ents)) T L t)
      (fun e _ => OtherPanic e) s := by
  refine wp_mono (dirlink_rule h hr hd hdp h.not_dies name inum) ?_ ?_
  · intro b t hb
    rwa [hscan] at hb
  · intro e t he
    rw [hscan] at he
    exact ⟨_, he, by decide⟩

theorem createEnd_rule (h : Held s (i ::ₘ {dp}) (insert i {dp})) (hr : InRange s.inode)
    (hne : i ≠ dp) (hd : (s.inode dp).type = .dir)
    (hscan : scan name (s.inode dp).ents = none) (hkeep : ¬ s.dies {i} dp) :
    wp (do
        unless ← dirlink dp name i do panic "create: dirlink"
        iunlockput dp
        pure i)
      (fun r t => r = i ∧ CacheOnly
        (s.setEnts dp (putEntry ⟨i, name.take dirsiz⟩ (s.inode dp).ents)) {i} {i} t)
      (fun e _ => OtherPanic e) s := by
  simp only [wp_bind]
  refine wp_imp (dirlink_new h hr hd (by simp) hscan i) ?_
  rintro _ _ ⟨rfl, c, rfl, ht⟩
  have hL : (insert i {dp} : Finset ℕ) = insert dp {i} := Finset.pair_comm i dp
  have hT : (i ::ₘ {dp} : Multiset ℕ) = dp ::ₘ {i} := Multiset.cons_swap i dp 0
  rw [hL, hT] at ht
  simp only [wp_run]
  refine wp_call (iunlockput_keep ht (by simpa using hne.symm) ?_) ?_
  · rintro ⟨-, hn, hu⟩
    refine hkeep ⟨by rw [hd]; nofun, ?_, hu⟩
    simpa [Fs.setEnts] using hn
  · intro _ t ht
    exact ⟨trivial, ht⟩

theorem createNew_rule (h : Held s {dp} {dp}) (ht : Tree s.inode) (hd : (s.inode dp).type = .dir)
    (hkeep : ¬ s.dies 0 dp) (hscan : scan name (s.inode dp).ents = none)
    (hty : type ≠ .free) :
    wp (createNew dp name type) (fun i t => (s.inode i).type = .free ∧ 0 < i ∧ i < ninodes ∧
        CacheOnly (s.created dp name type i) {i} {i} t)
      (fun e _ => OtherPanic e) s := by
  have hdfree : (s.inode dp).type ≠ .free := by
    rw [hd]
    nofun
  simp only [createNew, wp_bind]
  refine wp_mono (newInode_rule h (by simpa using hdfree) hty) ?_ ?_
  swap
  · rintro e _ (rfl | rfl)
    · exact ⟨_, rfl, by decide⟩
    · exact ⟨_, rfl, by decide⟩
  rintro i _ ⟨hfree, h0, hlt, c, rfl, hheld⟩
  have hne : i ≠ dp := by
    rintro rfl
    exact hdfree hfree
  have hr : InRange (s.setInode i ⟨type, 1, []⟩).inode := ht.inRange.update (by simp)
  -- the new entry of `dp` keeps it in use
  have hpos : 0 < (s.inode dp).nlink ∨ 0 < s.users dp := by
    by_contra hno
    have hnonneg := ht.count dp (ht.ne_zero_of_dir hd)
    exact hkeep ⟨hdfree, by omega, by simp only [Multiset.count_zero]; omega⟩
  by_cases hdir : type = .dir
  · subst hdir
    simp only [if_true, wp_bind, wp_modify, Fs.addLink_withCache]
    -- the link of `..`, then the two entries of the new directory
    set v := (s.setInode i ⟨.dir, 1, []⟩).addLink dp 1 with hv
    have hvi : v.inode i = ⟨.dir, 1, []⟩ := by simp [hv, Fs.addLink, hne]
    have hvdp : v.inode dp = ⟨.dir, (s.inode dp).nlink + 1, (s.inode dp).ents⟩ := by
      simp [hv, Fs.addLink, hne.symm, hd]
    have hheld1 : Held (v.withCache c) (i ::ₘ {dp}) (insert i {dp}) := by
      refine hheld.edit (by simp) ?_
      simpa [hne.symm] using hdfree
    have hr1 : InRange v.inode := hr.update (by simpa [hne.symm] using ht.inRange dp)
    refine wp_imp (dirlink_new hheld1 hr1 (by simp [hvi]) (by simp) (by simp [hvi, scan]) i) ?_
    rintro _ _ ⟨rfl, c2, rfl, hheld2⟩
    simp only [if_true, wp_bind, Fs.withCache_inode, Fs.setEnts_withCache, hvi] at hheld2 ⊢
    have hdot : putEntry ⟨i, dot.take dirsiz⟩ [] = [⟨i, dot⟩] := rfl
    rw [hdot] at hheld2 ⊢
    set v2 := v.setEnts i [⟨i, dot⟩] with hv2
    have hv₂i : v2.inode i = ⟨.dir, 1, [⟨i, dot⟩]⟩ := by simp [hv2, Fs.setEnts, hvi]
    have hr2 : InRange v2.inode := hr1.update (by simpa using hlt)
    have hnone : scan dotdot [⟨i, dot⟩] = none := by
      have : namecmp dotdot dot = false := by decide
      simp [scan, this]
    refine wp_imp (dirlink_new hheld2 hr2 (by simp [hv₂i]) (by simp) (by simpa [hv₂i] using hnone)
      dp) ?_
    rintro _ _ ⟨rfl, c3, rfl, hheld3⟩
    simp only [if_true, Fs.withCache_withCache, Fs.withCache_inode, Fs.setEnts_withCache, hv₂i]
      at hheld3 ⊢
    have hdotdot : putEntry ⟨dp, dotdot.take dirsiz⟩ [⟨i, dot⟩] = [⟨i, dot⟩, ⟨dp, dotdot⟩] := by
      simp only [putEntry, h0.ne', if_false]
      rfl
    rw [hdotdot] at hheld3 ⊢
    set v3 := v2.setEnts i [⟨i, dot⟩, ⟨dp, dotdot⟩] with hv3
    have hv₃dp : v3.inode dp = ⟨.dir, (s.inode dp).nlink + 1, (s.inode dp).ents⟩ := by
      simp [hv3, hv2, Fs.setEnts, hne.symm, hvdp]
    have hdp : dp < ninodes := h.lt_of_mem (by simp)
    have hr3 : InRange v3.inode := hr2.update (by simp [hlt, hdp])
    have := createEnd_rule hheld3 hr3 hne (by simp [hv₃dp]) (by simpa [hv₃dp] using hscan) ?_
    · refine wp_imp this ?_
      rintro r t ⟨rfl, ht⟩
      refine ⟨hfree, h0, hlt, ?_⟩
      rw [← created_of_dir s name hne]
      simpa [hv₃dp] using ht
    · rintro ⟨-, hn, hu⟩
      have hnonneg := ht.count dp (ht.ne_zero_of_dir hd)
      simp only [Fs.withCache_inode, hv₃dp] at hn
      omega
  · simp only [hdir, if_false]
    have := createEnd_rule hheld hr hne (by simpa [hne.symm] using hd)
      (by simpa [hne.symm] using hscan) ?_
    · refine wp_imp this ?_
      rintro r t ⟨rfl, ht⟩
      refine ⟨hfree, h0, hlt, ?_⟩
      rw [← created_of_ne_dir s name hne hdir]
      simpa [hne.symm] using ht
    · rintro ⟨-, hn, hu⟩
      simp only [Fs.withCache_inode, Fs.withCache_users, Fs.setInode_users,
        Fs.setInode_inode_of_ne _ _ hne.symm] at hn hu
      omega

end Xv6.Names

import Xv6Cow.Fs.Names

/-!
# References, locks and path walks

In the middle of a call the reference count of an inode is the number of its users plus the
references the call holds itself.  `Held s T L` keeps that ledger: `T` are the references of the
call and `L` the locks.  `namex` is shown to compute `resolve`, a walk that mentions neither.
-/

namespace Xv6.Names

open Prog

/-! ## Users of an inode -/

/-- The files that refer to the inode. -/
def fileUsers (ftable : Fid → File) (i : ℕ) : ℕ :=
  (Finset.univ.filter fun f => 0 < (ftable f).ref ∧ (ftable f).ip = some i).card

/-- The processes whose current directory is the inode. -/
def cwdUsers (live : Pid → Bool) (cwd : Pid → ℕ) (i : ℕ) : ℕ :=
  (Finset.univ.filter fun p => live p = true ∧ cwd p = i).card

namespace Fs

def users (s : Fs) (i : ℕ) : ℕ := fileUsers s.ftable i + cwdUsers s.live s.cwd i

theorem users_cwd_pos (s : Fs) {p : Pid} (hp : s.live p = true) : 0 < s.users (s.cwd p) := by
  have : 0 < cwdUsers s.live s.cwd (s.cwd p) := Finset.card_pos.2 ⟨p, by simp [hp]⟩
  unfold users
  omega

def withCache (s : Fs) (c : ℕ → Cached) : Fs := { s with icache := c }

section

variable (s : Fs)

section

variable (c : ℕ → Cached)

@[simp] theorem withCache_inode : (s.withCache c).inode = s.inode := rfl
@[simp] theorem withCache_icache : (s.withCache c).icache = c := rfl
@[simp] theorem withCache_ftable : (s.withCache c).ftable = s.ftable := rfl
@[simp] theorem withCache_live : (s.withCache c).live = s.live := rfl
@[simp] theorem withCache_cwd : (s.withCache c).cwd = s.cwd := rfl
@[simp] theorem withCache_ofile : (s.withCache c).ofile = s.ofile := rfl
@[simp] theorem withCache_freed : (s.withCache c).freed = s.freed := rfl
@[simp] theorem withCache_users : (s.withCache c).users = s.users := rfl

end

@[simp] theorem withCache_withCache (c c' : ℕ → Cached) :
    (s.withCache c).withCache c' = s.withCache c' := rfl

section

variable (c : ℕ → Cached)

@[simp] theorem setInode_withCache (i : ℕ) (x : Dinode) :
    (s.withCache c).setInode i x = (s.setInode i x).withCache c := rfl
@[simp] theorem setEnts_withCache (i : ℕ) (es : List Dirent) :
    (s.withCache c).setEnts i es = (s.setEnts i es).withCache c := rfl
@[simp] theorem addLink_withCache (i : ℕ) (n : ℤ) :
    (s.withCache c).addLink i n = (s.addLink i n).withCache c := rfl
@[simp] theorem setFile_withCache (f : Fid) (x : File) :
    (s.withCache c).setFile f x = (s.setFile f x).withCache c := rfl
@[simp] theorem setOfile_withCache (p : Pid) (fd : Fd) (f : Option Fid) :
    (s.withCache c).setOfile p fd f = (s.setOfile p fd f).withCache c := rfl
@[simp] theorem setCwd_withCache (p : Pid) (i : ℕ) :
    (s.withCache c).setCwd p i = (s.setCwd p i).withCache c := rfl

end

@[simp] theorem setCached_inode (i : ℕ) (c : Cached) : (s.setCached i c).inode = s.inode :=
  rfl

@[simp] theorem setCached_users (i : ℕ) (c : Cached) : (s.setCached i c).users = s.users :=
  rfl

@[simp] theorem setCached_icache_self (i : ℕ) (c : Cached) : (s.setCached i c).icache i = c := by
  simp [setCached]

@[simp] theorem setCached_icache_of_ne {i j : ℕ} (c : Cached) (h : j ≠ i) :
    (s.setCached i c).icache j = s.icache j := by
  simp [setCached, h]

@[simp] theorem setInode_icache (i : ℕ) (d : Dinode) : (s.setInode i d).icache = s.icache :=
  rfl

@[simp] theorem setInode_users (i : ℕ) (d : Dinode) : (s.setInode i d).users = s.users := rfl

@[simp] theorem setInode_inode_self (i : ℕ) (d : Dinode) : (s.setInode i d).inode i = d := by
  simp [setInode]

@[simp] theorem setInode_inode_of_ne {i j : ℕ} (d : Dinode) (h : j ≠ i) :
    (s.setInode i d).inode j = s.inode j := by
  simp [setInode, h]

@[simp] theorem setInode_eq_self (i : ℕ) : s.setInode i (s.inode i) = s := by
  simp [setInode]

@[simp] theorem setCached_setCached (i : ℕ) (c c' : Cached) :
    (s.setCached i c).setCached i c' = s.setCached i c' := by
  simp [setCached]

end

end Fs

/-! ## The ledger of a call -/

/-- The state in the middle of a call that holds the references `T` and the locks `L`. -/
structure Held (s : Fs) (T : Multiset ℕ) (L : Finset ℕ) : Prop where
  ref : ∀ i, (s.icache i).ref = s.users i + T.count i
  locked : ∀ i, (s.icache i).locked = true ↔ i ∈ L
  own : ∀ i ∈ L, i ∈ T
  read : ∀ i ∈ L, (s.icache i).valid = true
  lt : ∀ i, 0 < (s.icache i).ref → i < ninodes
  typed : ∀ i, 0 < (s.icache i).ref → (s.icache i).valid = true → (s.inode i).type ≠ .free
  /-- What no entry names is in use, and has been read. -/
  kept : ∀ i, (s.inode i).type ≠ .free → (s.inode i).nlink = 0 →
    0 < (s.icache i).ref ∧ (s.icache i).valid = true
  used : ∀ i, 0 < s.users i → (s.inode i).type ≠ .free

/-- Does `iput` free the inode, when the call keeps the references `T`? -/
def Fs.dies (s : Fs) (T : Multiset ℕ) (i : ℕ) : Prop :=
  (s.inode i).type ≠ .free ∧ (s.inode i).nlink = 0 ∧ s.users i + T.count i = 0

instance (s : Fs) (T : Multiset ℕ) (i : ℕ) : Decidable (s.dies T i) :=
  inferInstanceAs (Decidable (_ ∧ _ ∧ _))

/-- The state after `iput`, but for the inode cache. -/
def Fs.release (s : Fs) (T : Multiset ℕ) (i : ℕ) : Fs :=
  if s.dies T i then
    { s with inode := Function.update s.inode i ⟨.free, 0, []⟩, freed := (i, s.inode) :: s.freed }
  else s

variable {s : Fs} {T T' : Multiset ℕ} {L L' : Finset ℕ} {i j : ℕ}

theorem Fs.release_withCache (c : ℕ → Cached) :
    (s.withCache c).release T i = (s.release T i).withCache c := by
  by_cases h : s.dies T i
  · have h' : (s.withCache c).dies T i := h
    rw [Fs.release, if_pos h', Fs.release, if_pos h]
    rfl
  · have h' : ¬ (s.withCache c).dies T i := h
    rw [Fs.release, if_neg h', Fs.release, if_neg h]

theorem Fs.dies_of_cons (h : s.dies (j ::ₘ T) i) : s.dies T i := ⟨h.1, h.2.1, by
    have := h.2.2
    have := Multiset.count_le_count_cons i j T
    omega⟩

theorem Fs.release_of_not (h : ¬ s.dies T i) : s.release T i = s := if_neg h

namespace Held

section

variable (h : Held s T L)

include h

theorem not_dies (i : ℕ) : ¬ s.dies T i := by
  rintro ⟨ht, hn, hu⟩
  have := (h.kept i ht hn).1
  rw [h.ref i] at this
  omega

theorem ref_pos (hi : i ∈ T) : 0 < (s.icache i).ref := by
  have := Multiset.count_pos.2 hi
  rw [h.ref i]
  omega

theorem lt_of_mem (hi : i ∈ T) : i < ninodes := h.lt i (h.ref_pos hi)

theorem unlocked (hi : i ∉ L) : (s.icache i).locked = false := by
  rw [← Bool.not_eq_true, h.locked i]
  exact hi

theorem change (d : Dinode) (c : Cached)
    (ref : c.ref = s.users i + T'.count i) (count : ∀ j, j ≠ i → T'.count j = T.count j)
    (locked : c.locked = true ↔ i ∈ L') (locks : ∀ j, j ≠ i → (j ∈ L' ↔ j ∈ L))
    (own : i ∈ L' → i ∈ T') (read : i ∈ L' → c.valid = true) (lt : 0 < c.ref → i < ninodes)
    (typed : 0 < c.ref → c.valid = true → d.type ≠ .free)
    (kept : d.type ≠ .free → d.nlink = 0 → 0 < c.ref ∧ c.valid = true)
    (used : 0 < s.users i → d.type ≠ .free) :
    Held ((s.setInode i d).setCached i c) T' L' where
  ref j := by
    by_cases hj : j = i
    · subst hj
      simpa using ref
    · simpa [hj, count j hj] using h.ref j
  locked j := by
    by_cases hj : j = i
    · subst hj
      simpa using locked
    · simpa [hj, locks j hj] using h.locked j
  own j hjL := by
    by_cases hj : j = i
    · subst hj
      exact own hjL
    · have hT := h.own j ((locks j hj).1 hjL)
      rwa [← Multiset.count_pos, count j hj, Multiset.count_pos]
  read j hjL := by
    by_cases hj : j = i
    · subst hj
      simpa using read hjL
    · simpa [hj] using h.read j ((locks j hj).1 hjL)
  lt j := by
    by_cases hj : j = i
    · subst hj
      simpa using lt
    · simpa [hj] using h.lt j
  typed j := by
    by_cases hj : j = i
    · subst hj
      simpa using typed
    · simpa [hj] using h.typed j
  kept j := by
    by_cases hj : j = i
    · subst hj
      simpa using kept
    · simpa [hj] using h.kept j
  used j := by
    by_cases hj : j = i
    · subst hj
      simpa using used
    · simpa [hj] using h.used j

theorem update (c : Cached)
    (ref : c.ref = s.users i + T'.count i) (count : ∀ j, j ≠ i → T'.count j = T.count j)
    (locked : c.locked = true ↔ i ∈ L') (locks : ∀ j, j ≠ i → (j ∈ L' ↔ j ∈ L))
    (own : i ∈ L' → i ∈ T') (read : i ∈ L' → c.valid = true) (lt : 0 < c.ref → i < ninodes)
    (typed : 0 < c.ref → c.valid = true → (s.inode i).type ≠ .free)
    (kept : (s.inode i).type ≠ .free → (s.inode i).nlink = 0 → 0 < c.ref ∧ c.valid = true) :
    Held (s.setCached i c) T' L' := by
  have := h.change (s.inode i) c ref count locked locks own read lt typed kept (h.used i)
  rwa [Fs.setInode_eq_self] at this

end

theorem free (h : Held s (i ::ₘ T) L) (hd : s.dies T i) (hl : i ∉ L) :
    Held ((s.release T i).setCached i ⟨0, false, false⟩) T L := by
  have hzero : s.users i + T.count i = 0 := hd.2.2
  have : Held ((s.setInode i ⟨.free, 0, []⟩).setCached i ⟨0, false, false⟩) T L :=
    h.change _ _ hzero.symm (fun j hj => (Multiset.count_cons_of_ne hj T).symm)
      (by simpa using hl) (fun _ _ => Iff.rfl) (fun hL => absurd hL hl) (fun hL => absurd hL hl)
      (by simp) (by simp) (by simp) (by omega)
  rw [Fs.release, if_pos hd]
  exact ⟨this.ref, this.locked, this.own, this.read, this.lt, this.typed, this.kept, this.used⟩

end Held

/-! ## Rules for the inode cache -/

/-- The state `t` holds `T` and `L`, and differs from `s` in the inode cache only. -/
def CacheOnly (s : Fs) (T : Multiset ℕ) (L : Finset ℕ) (t : Fs) : Prop :=
  ∃ c, t = s.withCache c ∧ Held t T L

@[simp] theorem CacheOnly.of_withCache {t : Fs} (c : ℕ → Cached) :
    CacheOnly (s.withCache c) T L t ↔ CacheOnly s T L t := Iff.rfl

theorem ilock_rule (h : Held s T L) (hi : i ∈ T) (hl : i ∉ L) :
    wp (ilock i) (fun _ t => (s.inode i).type ≠ .free ∧ CacheOnly s T (insert i L) t)
      (fun e _ => (s.inode i).type = .free ∧ e = .panic "ilock: no type") s := by
  have hpos := h.ref_pos hi
  have hfree := h.unlocked hl
  have hnot : ¬ (s.icache i).ref < 1 := by omega
  -- both outcomes lock the entry and mark it valid
  have hheld (ht : (s.inode i).type ≠ .free) :
      Held (s.setCached i ⟨(s.icache i).ref, true, true⟩) T (insert i L) := by
    refine h.update _ (h.ref i) (fun _ _ => rfl) (by simp) ?_ (fun _ => hi) (fun _ => rfl) (h.lt i)
      (fun _ _ => ht) (fun _ _ => ⟨hpos, rfl⟩)
    intro j hj
    simp [hj]
  simp only [ilock, acquiresleep, panic, wp_run, hnot, hfree, Fs.setCached_icache_self,
    Fs.setCached_inode, Fs.setCached_setCached]
  by_cases hv : (s.icache i).valid = true
  · have ht := h.typed i hpos hv
    simp only [hv, not_true_eq_false, if_false]
    exact ⟨ht, _, rfl, hheld ht⟩
  by_cases ht : (s.inode i).type = .free
  · simp [hv, ht]
  · simp only [hv, ht, if_false]
    exact ⟨ht, _, rfl, hheld ht⟩

theorem iunlock_rule (h : Held s T (insert i L)) (hl : i ∉ L) :
    wp (iunlock i) (fun _ t => CacheOnly s T L t) (fun _ _ => False) s := by
  have hi : i ∈ T := h.own i (Finset.mem_insert_self i L)
  have hpos := h.ref_pos hi
  have hlocked : (s.icache i).locked = true := (h.locked i).2 (Finset.mem_insert_self i L)
  have hnot : ¬ (s.icache i).ref < 1 := by omega
  simp only [iunlock, releasesleep, panic, wp_run, hnot, hlocked, not_true_eq_false, or_self]
  refine ⟨_, rfl, h.update _ (h.ref i) (fun _ _ => rfl) (by simpa using hl) ?_ (fun hL => absurd hL hl)
    (fun hL => absurd hL hl) (h.lt i) (h.typed i) (h.kept i)⟩
  intro j hj
  simp [hj]

/-- `iput` gives up one reference of the call; the last one to an inode without links frees it. -/
theorem iput_rule (h : Held s (i ::ₘ T) L) (hl : i ∉ L) :
    wp (iput i) (fun _ t => CacheOnly (s.release T i) T L t) (fun _ _ => False) s := by
  have hpos := h.ref_pos (Multiset.mem_cons_self i T)
  have hfree := h.unlocked hl
  have href : (s.icache i).ref - 1 = s.users i + T.count i := by
    rw [h.ref i, Multiset.count_cons_self]
    omega
  have hcount : ∀ j, j ≠ i → T.count j = (i ::ₘ T).count j := fun j hj =>
    (Multiset.count_cons_of_ne hj T).symm
  simp only [iput, acquiresleep, releasesleep, wp_run, hfree, Fs.setCached_icache_self,
    Fs.setCached_inode, Fs.setCached_setCached]
  -- the test of `iput` says that the inode dies
  have htest : ((s.icache i).valid = true ∧ (s.inode i).nlink = 0 ∧ (s.icache i).ref = 1) ↔
      s.dies T i := by
    constructor
    · rintro ⟨hv, hn, hr⟩
      exact ⟨h.typed i hpos hv, hn, by omega⟩
    · rintro ⟨ht, hn, hu⟩
      exact ⟨(h.kept i ht hn).2, hn, by omega⟩
  by_cases hd : s.dies T i
  · rw [if_pos (htest.2 hd)]
    have hone : (s.icache i).ref = 1 := (htest.2 hd).2.2
    have hout : CacheOnly (s.release T i) T L ((s.release T i).setCached i ⟨0, false, false⟩) :=
      ⟨_, rfl, h.free hd hl⟩
    simpa [freeInode, Fs.release, hd, Fs.setCached, Fs.setInode, hone] using hout
  rw [if_neg (fun hc => hd (htest.1 hc)), Fs.release_of_not hd]
  refine ⟨_, rfl, h.update _ href hcount (by simpa using hl) (fun _ _ => Iff.rfl)
    (fun hL => absurd hL hl) (fun hL => absurd hL hl) (fun _ => h.lt i hpos)
    (fun _ => h.typed i hpos) ?_⟩
  intro ht hn
  refine ⟨?_, (h.kept i ht hn).2⟩
  by_contra hzero
  exact hd ⟨ht, hn, by simp only at hzero; omega⟩

theorem iunlockput_rule (h : Held s (i ::ₘ T) (insert i L)) (hl : i ∉ L) :
    wp (iunlockput i) (fun _ t => CacheOnly (s.release T i) T L t) (fun _ _ => False) s := by
  simp only [iunlockput, wp_bind]
  refine wp_imp (iunlock_rule h hl) ?_
  rintro _ t ⟨c, rfl, ht⟩
  refine wp_imp (iput_rule ht hl) ?_
  intro _ u hu
  rwa [Fs.release_withCache, CacheOnly.of_withCache] at hu

theorem iput_keep (h : Held s (i ::ₘ T) L) (hl : i ∉ L) (hk : ¬ s.dies T i) :
    wp (iput i) (fun _ t => CacheOnly s T L t) (fun _ _ => False) s := by
  have := iput_rule h hl
  rwa [Fs.release_of_not hk] at this

theorem iunlockput_keep (h : Held s (i ::ₘ T) (insert i L)) (hl : i ∉ L) (hk : ¬ s.dies T i) :
    wp (iunlockput i) (fun _ t => CacheOnly s T L t) (fun _ _ => False) s := by
  have := iunlockput_rule h hl
  rwa [Fs.release_of_not hk] at this

/-- The inodes in the inode cache, when the call holds the references `T`. -/
def Fs.pinned (s : Fs) (T : Multiset ℕ) : Finset ℕ :=
  (Finset.range ninodes).filter fun i => 0 < s.users i + T.count i

/-- `iget` finds the inode or a free slot. -/
def Room (H : Finset ℕ) (i : ℕ) : Prop := i ∈ H ∨ H.card < ninode

instance (H : Finset ℕ) (i : ℕ) : Decidable (Room H i) := inferInstanceAs (Decidable (_ ∨ _))

theorem Held.cached_eq (h : Held s T L) : s.cached = s.pinned T := by
  simp only [Fs.cached, Fs.pinned, h.ref]

theorem iget_rule (h : Held s T L) (hi : i < ninodes) :
    wp (iget i) (fun _ t => Room (s.pinned T) i ∧ CacheOnly s (i ::ₘ T) L t)
      (fun e _ => ¬ Room (s.pinned T) i ∧ e = .panic "iget: no inodes") s := by
  have hcount : ∀ j, j ≠ i → (i ::ₘ T).count j = T.count j := fun j hj =>
    Multiset.count_cons_of_ne hj T
  have hown : i ∈ L → i ∈ i ::ₘ T := fun _ => Multiset.mem_cons_self i T
  have hmem : i ∈ s.cached ↔ 0 < (s.icache i).ref := by simp [Fs.cached, hi]
  simp only [iget, panic, wp_run, Room, ← h.cached_eq, hmem]
  by_cases hpos : 0 < (s.icache i).ref
  · simp only [hpos, if_true, true_or, true_and]
    refine ⟨_, rfl, h.update _ ?_ hcount (h.locked i) (fun _ _ => Iff.rfl) hown (h.read i)
      (fun _ => hi) (fun _ => h.typed i hpos) (fun ht hn => ⟨Nat.succ_pos _, (h.kept i ht hn).2⟩)⟩
    simp [h.ref i, Nat.add_assoc]
  have hzero : s.users i + T.count i = 0 := by
    rw [← h.ref i]
    omega
  have hlock : i ∉ L := fun hL => hpos (h.ref_pos (h.own i hL))
  simp only [hpos, if_false, false_or]
  by_cases hroom : s.cached.card < ninode
  · simp only [hroom, if_true, true_and]
    refine ⟨_, rfl, h.update _ ?_ hcount (by simpa using hlock) (fun _ _ => Iff.rfl) hown
      (fun hL => absurd hL hlock) (fun _ => hi) (by simp) (fun ht hn => absurd (h.kept i ht hn).1 hpos)⟩
    simp only [Multiset.count_cons_self]
    omega
  · simp [hroom]

theorem idup_rule (h : Held s T L) (hi : 0 < s.users i) :
    wp (idup i) (fun _ t => CacheOnly s (i ::ₘ T) L t) (fun _ _ => False) s := by
  have hpos : 0 < (s.icache i).ref := by
    rw [h.ref i]
    omega
  simp only [idup, wp_modify]
  refine ⟨_, rfl, h.update _ ?_ (fun j hj => Multiset.count_cons_of_ne hj T) (h.locked i)
    (fun _ _ => Iff.rfl) (fun _ => Multiset.mem_cons_self i T) (h.read i)
    (fun _ => h.lt i hpos) (fun _ => h.typed i hpos)
      (fun ht hn => ⟨Nat.succ_pos _, (h.kept i ht hn).2⟩)⟩
  simp [h.ref i, Nat.add_assoc]

/-! ## Walks -/

/-- What `namex` finds from the inode `i`, while the inodes `H` are in use otherwise. -/
def walk (ino : ℕ → Dinode) (H : Finset ℕ) (parent : Bool) :
    ℕ → List Name → Except Stop (Option (ℕ × Name))
  | i, [] => .ok (if parent then none else some (i, []))
  | i, name :: rest =>
    if (ino i).type = .free then .error (.panic "ilock: no type")
    else if (ino i).type ≠ .dir then .ok none
    else if parent ∧ rest = [] then .ok (some (i, name))
    else
      match scan name (ino i).ents with
      | none => .ok none
      | some next =>
        if Room (insert i H) next.2 then walk ino H parent next.2 rest
        else .error (.panic "iget: no inodes")

/-- What `namex` finds, while the inodes `H` are in use. -/
def resolve (s : Fs) (H : Finset ℕ) (p : Pid) (path : List Char) (parent : Bool) :
    Except Stop (Option (ℕ × Name)) :=
  if absolute path then
    if Room H rootino then walk s.inode H parent rootino (elems path)
    else .error (.panic "iget: no inodes")
  else walk s.inode H parent (s.cwd p) (elems path)

/-- The inode of a result, as a reference the call holds. -/
def refOf (r : Option (ℕ × Name)) : Multiset ℕ := r.elim 0 fun x => {x.1}

theorem Held.pinned_cons (hi : i < ninodes) : s.pinned (i ::ₘ T) = insert i (s.pinned T) := by
  ext j
  by_cases hj : j = i
  · subst hj
    simp [Fs.pinned, hi]
  · simp [Fs.pinned, hj, Multiset.count_cons_of_ne hj T]

/-- Entries name inodes of the disk. -/
def InRange (ino : ℕ → Dinode) : Prop := ∀ d, ∀ e ∈ (ino d).ents, e.inum < ninodes

theorem scan_mem {name : Name} {es : List Dirent} {r : ℕ × ℕ} (h : scan name es = some r) :
    ∃ e, es[r.1]? = some e ∧ e.inum = r.2 ∧ e.inum ≠ 0 ∧ namecmp name e.name = true := by
  induction es generalizing r with
  | nil => simp [scan] at h
  | cons e es ih =>
    rw [scan] at h
    split_ifs at h with hc
    · cases h
      exact ⟨e, rfl, rfl, hc.1, hc.2⟩
    · obtain ⟨r', hr', rfl⟩ := Option.map_eq_some_iff.1 h
      simpa using ih hr'

theorem dirlookup_rule (h : Held s T L) (hr : InRange s.inode) (hd : (s.inode i).type = .dir)
    (name : Name) :
    wp (dirlookup i name) (fun r t => scan name (s.inode i).ents = r ∧
        match r with
        | none => t = s
        | some next => Room (s.pinned T) next.2 ∧ CacheOnly s (next.2 ::ₘ T) L t)
      (fun e _ => e = .panic "iget: no inodes" ∧
        ∃ next, scan name (s.inode i).ents = some next ∧ ¬ Room (s.pinned T) next.2) s := by
  simp only [dirlookup, panic, wp_run, hd, ne_eq, not_true_eq_false]
  rcases hs : scan name (s.inode i).ents with _ | next
  · simp
  obtain ⟨e, hmem, he, -⟩ := scan_mem hs
  have hlt : next.2 < ninodes := he ▸ hr i e (List.mem_of_getElem? hmem)
  simp only [wp_bind]
  refine wp_mono (iget_rule h hlt) ?_ ?_
  · intro _ t ht
    exact ⟨rfl, ht⟩
  · rintro e' t ⟨hroom, rfl⟩
    exact ⟨rfl, next, rfl, hroom⟩

/-- The walk of `namex` finds what `walk` says, frees nothing, and keeps a reference to what it
found. -/
theorem namexFrom_rule (hr : InRange s.inode) (parent : Bool) (names : List Name)
    (h : Held s (i ::ₘ T) ∅) (hkeep : ∀ j, ¬ s.dies T j) :
    wp (namexFrom parent i names)
      (fun r t => walk s.inode (s.pinned T) parent i names = .ok r ∧ CacheOnly s (refOf r + T) ∅ t)
      (fun e _ => walk s.inode (s.pinned T) parent i names = .error e) s := by
  induction names generalizing s i with
  | nil =>
    cases parent with
    | false =>
      simp only [namexFrom, walk, Bool.false_eq_true, if_false, wp_pure]
      exact ⟨trivial, s.icache, rfl, h⟩
    | true =>
      simp only [namexFrom, walk, if_true, wp_bind]
      refine wp_call (iput_keep h (by simp) (hkeep i)) ?_
      intro _ t ht
      refine ⟨rfl, ?_⟩
      simpa [refOf] using ht
  | cons name rest ih =>
    have hmem : i ∈ i ::ₘ T := Multiset.mem_cons_self i T
    have hpin := Held.pinned_cons (s := s) (T := T) (h.lt_of_mem hmem)
    simp only [namexFrom, wp_bind]
    refine wp_mono (ilock_rule h hmem (by simp)) ?_ ?_
    swap
    · rintro e t ⟨hfree, rfl⟩
      simp [walk, hfree]
    rintro _ _ ⟨hfree, c, rfl, ht⟩
    by_cases hdir : (s.inode i).type = .dir
    swap
    · simp only [wp_run, Fs.withCache_inode, ne_eq, hdir, not_false_eq_true]
      refine wp_call (iunlockput_keep ht (by simp) (hkeep i)) ?_
      intro _ t ht
      refine ⟨by simp [walk, hfree, hdir], ?_⟩
      simpa [refOf] using ht
    by_cases hlast : parent = true ∧ rest = []
    · simp only [wp_run, Fs.withCache_inode, ne_eq, hdir, not_true_eq_false, hlast, and_self]
      refine wp_call (iunlock_rule ht (by simp)) ?_
      intro _ t ht
      refine ⟨by simp [walk, hdir], ?_⟩
      simpa [refOf] using ht
    simp only [wp_run, Fs.withCache_inode, ne_eq, hdir, not_true_eq_false, hlast]
    refine wp_mono (dirlookup_rule ht hr hdir name) ?_ ?_
    · rintro r t ⟨hscan, ht'⟩
      simp only [Fs.withCache_inode] at hscan
      rcases r with _ | next
      · subst ht'
        simp only [wp_bind]
        refine wp_call (iunlockput_keep ht (by simp) (hkeep i)) ?_
        intro _ t ht
        refine ⟨by simp [walk, hdir, hlast, hscan], ?_⟩
        simpa [refOf] using ht
      obtain ⟨hroom, c', rfl, hnext⟩ := ht'
      have hwalk : walk s.inode (s.pinned T) parent i (name :: rest) =
          walk s.inode (s.pinned T) parent next.2 rest := by
        simp only [walk, hdir, hlast, hscan, ← hpin, reduceCtorEq, ne_eq, not_true_eq_false,
          if_false]
        exact if_pos hroom
      rw [Multiset.cons_swap] at hnext
      simp only [wp_bind, hwalk]
      refine wp_call (iunlockput_keep hnext (by simp) (fun hd => hkeep i (Fs.dies_of_cons hd))) ?_
      rintro _ _ ⟨c'', rfl, ht''⟩
      exact ih hr ht'' hkeep
    · rintro e t ⟨rfl, next, hscan, hroom⟩
      simp only [Fs.withCache_inode] at hscan
      simp only [walk, hdir, hlast, hscan, ← hpin, reduceCtorEq, ne_eq, not_true_eq_false, if_false]
      exact if_neg hroom

/-- `namex` computes `resolve`, frees nothing, and keeps a reference to what it found. -/
theorem namex_rule (h : Held s T ∅) (hr : InRange s.inode) {p : Pid} (hp : s.live p = true)
    (path : List Char) (parent : Bool) :
    wp (namex p path parent)
      (fun r t => resolve s (s.pinned T) p path parent = .ok r ∧ CacheOnly s (refOf r + T) ∅ t)
      (fun e _ => resolve s (s.pinned T) p path parent = .error e) s := by
  unfold resolve
  by_cases habs : absolute path = true
  · simp only [namex, habs, if_true, wp_bind]
    refine wp_mono (iget_rule h (by decide)) ?_ ?_
    · rintro _ _ ⟨hroom, c, rfl, ht⟩
      simp only [hroom, if_true]
      exact namexFrom_rule (s := s.withCache c) hr parent (elems path) ht h.not_dies
    · rintro e t ⟨hroom, rfl⟩
      simp [hroom]
  · simp only [namex, habs, wp_run]
    refine wp_call (idup_rule h (s.users_cwd_pos hp)) ?_
    rintro _ _ ⟨c, rfl, ht⟩
    exact namexFrom_rule (s := s.withCache c) hr parent (elems path) ht h.not_dies

theorem namei_rule (h : Held s T ∅) (hr : InRange s.inode) {p : Pid} (hp : s.live p = true)
    (path : List Char) :
    wp (namei p path)
      (fun r t => ∃ x, resolve s (s.pinned T) p path false = .ok x ∧ r = x.map (·.1) ∧
        CacheOnly s (refOf x + T) ∅ t)
      (fun e _ => resolve s (s.pinned T) p path false = .error e) s := by
  simp only [namei, wp_bind]
  refine wp_imp (namex_rule h hr hp path false) ?_
  rintro x t ⟨hx, ht⟩
  exact ⟨x, hx, rfl, ht⟩

/-! ## Path elements -/

theorem skipelem_length {path rest : List Char} {name : Name}
    (h : skipelem path = some (name, rest)) : rest.length < path.length := by
  unfold skipelem at h
  set s := path.dropWhile (· == '/') with hs
  have hle : s.length ≤ path.length := (List.dropWhile_suffix _).length_le
  match hcase : s with
  | [] => simp at h
  | c :: cs =>
    -- the first byte of the element is not a slash, so the element is not empty
    have hc : (c == '/') = false := by
      have := List.head?_dropWhile_not (· == '/') path
      rw [← hs] at this
      simpa using this
    simp only [List.isEmpty_cons, Bool.false_eq_true, if_false, Option.some.injEq,
      Prod.mk.injEq] at h
    obtain ⟨-, rfl⟩ := h
    have h1 := (List.dropWhile_suffix (· == '/') (l := (c :: cs).dropWhile (· != '/'))).length_le
    have h2 : ((c :: cs).dropWhile (· != '/')).length ≤ cs.length := by
      rw [List.dropWhile_cons, if_pos (by simpa [bne] using hc)]
      exact (List.dropWhile_suffix _).length_le
    simp only [List.length_cons] at hle
    omega

theorem elemsFuel_nil (n : ℕ) : elemsFuel n [] = [] := by cases n <;> rfl

theorem elemsFuel_eq (n m : ℕ) {path : List Char} (hn : path.length ≤ n) (hm : path.length ≤ m) :
    elemsFuel n path = elemsFuel m path := by
  induction n generalizing m path with
  | zero =>
    rw [List.length_eq_zero_iff.1 (Nat.le_zero.1 hn), elemsFuel_nil, elemsFuel_nil]
  | succ n ih =>
    cases m with
    | zero => rw [List.length_eq_zero_iff.1 (Nat.le_zero.1 hm), elemsFuel_nil, elemsFuel_nil]
    | succ m =>
      rw [elemsFuel, elemsFuel]
      rcases hskip : skipelem path with _ | r
      · rfl
      have := skipelem_length hskip
      simp only [List.cons.injEq, true_and]
      exact ih m (by omega) (by omega)

theorem elems_eq (path : List Char) : elems path = match skipelem path with
      | none => []
      | some (name, rest) => name :: elems rest := by
  rw [elems, elemsFuel_eq _ (path.length + 1) le_rfl (Nat.le_succ _), elemsFuel]
  rcases hskip : skipelem path with _ | r
  · rfl
  have := skipelem_length hskip
  simp only [elems, List.cons.injEq, true_and]
  exact elemsFuel_eq _ _ (by omega) le_rfl

end Xv6.Names

import Xv6Cow.Fs.Effects

/-!
# The system calls have their effects

One rule for each system call: from a state between calls, it returns with one of the effects of
`Fs.Effects` and holds nothing any more, or it panics.  Only `link` can wait for a lock it holds
(`SelfLink`).
-/

namespace Xv6.Names

open Function Prog

variable {s : Fs} {T : Multiset ℕ} {L : Finset ℕ} {p : Pid} {i j dp : ℕ}

@[simp] theorem refOf_none (T : Multiset ℕ) : refOf none + T = T := zero_add T

@[simp] theorem refOf_some (x : ℕ × Name) (T : Multiset ℕ) : refOf (some x) + T = x.1 ::ₘ T :=
  Multiset.singleton_add x.1 T

theorem ilock_alloc (h : Held s T L) (hi : i ∈ T) (hl : i ∉ L) (ht : (s.inode i).type ≠ .free) :
    wp (ilock i) (fun _ t => CacheOnly s T (insert i L) t) (fun _ _ => False) s :=
  wp_mono (ilock_rule h hi hl) (fun _ _ hQ => hQ.2) (fun _ _ hE => ht hE.1)

variable {c : ℕ → Cached} {path : List Char}

theorem ilock_resolved (h0 : Held s 0 ∅) (ht : Tree s.inode) (hp : s.live p = true) {r : ℕ × Name}
    (hr : resolve s (s.pinned 0) p path false = .ok (some r))
    (h : Held (s.withCache c) (r.1 ::ₘ T) ∅) :
    wp (ilock r.1) (fun _ t => (s.inode r.1).type ≠ .free ∧ CacheOnly s (r.1 ::ₘ T) (insert r.1 ∅) t)
      (fun e _ => Panics s e) (s.withCache c) := by
  refine wp_mono (ilock_rule h (Multiset.mem_cons_self _ _) (by simp)) (fun _ _ hQ => hQ) ?_
  rintro e t ⟨hfree, rfl⟩
  refine ⟨_, rfl, fun _ hall => ?_⟩
  have := resolve_alloc (H := s.pinned 0) h0 ht hp path false hall
  rw [hr] at this
  exact this r rfl hfree

theorem AllAlloc.scan {ino : ℕ → Dinode} (h : AllAlloc ino) {name : Name} {r : ℕ × ℕ}
    (hscan : scan name (ino dp).ents = some r) : (ino r.2).type ≠ .free := by
  obtain ⟨e, hmem, he, h0, -⟩ := scan_mem hscan
  exact he ▸ h dp e (List.mem_of_getElem? hmem) h0

/-! ## `create` -/

/-- The path names no inode yet: its last element `name` is not in the directory `dp`, and the
inode `i` is free. -/
structure NewAt (s : Fs) (p : Pid) (path : List Char) (dp : ℕ) (name : Name) (i : ℕ) : Prop where
  resolved : resolve s (s.pinned 0) p path true = .ok (some (dp, name))
  absent : scan name (s.inode dp).ents = none
  free : (s.inode i).type = .free
  pos : 0 < i
  lt : i < ninodes

/-- What `create` returns: a file that was there, or a new inode. -/
inductive Made (s : Fs) (p : Pid) (path : List Char) (type : IType) (i : ℕ) : Fs → Prop
  | found (hty : type = .file) (hi : (s.inode i).type = .file) : Made s p path type i s
  | new {dp : ℕ} {name : Name} (h : NewAt s p path dp name i) :
      Made s p path type i (s.created dp name type i)

variable {type : IType}

theorem create_rule (h : Held s 0 ∅) (ht : Tree s.inode) (hp : s.live p = true)
    (path : List Char) (hty : type ≠ .free) :
    wp (create p path type) (fun r t => match r with
        | none => CacheOnly s 0 ∅ t
        | some i => ∃ u, Made s p path type i u ∧ CacheOnly u {i} {i} t)
      (fun e _ => Panics s e) s := by
  simp only [create, nameiparent, wp_bind]
  refine wp_mono (namex_rule h ht.inRange hp path true) ?_ (fun _ _ hE => resolve_panics h ht hp hE)
  rintro r _ ⟨hres, c, rfl, hheld⟩
  rcases r with _ | r
  · rw [refOf_none] at hheld
    exact ⟨c, rfl, hheld⟩
  obtain ⟨dp, name⟩ := r
  rw [refOf_some] at hheld
  have hd : (s.inode dp).type = .dir := resolve_dir hres
  have hdfree : (s.inode dp).type ≠ .free := by
    rw [hd]
    nofun
  simp only [wp_bind]
  refine wp_call (ilock_alloc hheld (by simp) (by simp) hdfree) ?_
  rintro _ _ ⟨c, rfl, hheld⟩
  refine wp_mono (dirlookup_rule hheld ht.inRange hd name) ?_ ?_
  · rintro r t ⟨hscan, htt⟩
    simp only [Fs.withCache_withCache, Fs.withCache_inode] at hscan htt
    cases r with
    | none =>
      subst htt
      simp only [wp_bind]
      have := createNew_rule (s := s.withCache c) (by simpa using hheld) ht hd (h.not_dies dp)
        hscan hty
      refine wp_mono this ?_ (fun _ _ hE => hE.panics)
      rintro i _ ⟨hfree, h0, hlt, hout⟩
      refine ⟨_, .new ⟨hres, hscan, hfree, h0, hlt⟩, ?_⟩
      exact hout
    | some r =>
      obtain ⟨slot, i⟩ := r
      obtain ⟨-, c, rfl, hheld⟩ := htt
      rw [Multiset.cons_swap] at hheld
      simp only [wp_bind]
      refine wp_call (iunlockput_keep hheld (by simp)
        (fun hdies => h.not_dies dp (Fs.dies_of_cons hdies))) ?_
      rintro _ _ ⟨c, rfl, hheld⟩
      refine wp_mono (ilock_rule hheld (by simp) (by simp)) ?_ ?_
      · rintro _ _ ⟨hfree, c, rfl, hheld⟩
        by_cases hfile : type = .file ∧ (s.inode i).type = .file
        · simp only [wp_run, Fs.withCache_inode, hfile, and_self]
          exact ⟨s, .found rfl hfile.2, c, rfl, by simpa using hheld⟩
        · simp only [wp_run, Fs.withCache_inode, hfile]
          exact wp_call (iunlockput_keep hheld (by simp) (h.not_dies i)) (fun _ _ hQ => hQ)
      · rintro e t ⟨hfree, rfl⟩
        exact ⟨_, rfl, fun _ hall => hall.scan hscan hfree⟩
  · rintro e t ⟨rfl, -⟩
    exact .of_ne rfl (by decide)

/-! ## `link` -/

/-- `old` names an inode that is not a directory, and the last element of `new` names the directory
it is looked up in. -/
def SelfLink (s : Fs) (p : Pid) (old new : List Char) : Prop :=
  ∃ i n dp name slot, resolve s (s.pinned 0) p old false = .ok (some (i, n)) ∧
    (s.inode i).type ≠ .free ∧ (s.inode i).type ≠ .dir ∧
    resolve s (insert i (s.pinned 0)) p new true = .ok (some (dp, name)) ∧
    scan name (s.inode dp).ents = some (slot, dp)

/-- `old` names the inode `i`, not a directory, and `new` is the absent `name` in `dp`. -/
structure LinkAt (s : Fs) (p : Pid) (old new : List Char) (i dp : ℕ) (name : Name) : Prop where
  source : ∃ n, resolve s (s.pinned 0) p old false = .ok (some (i, n))
  alloc : (s.inode i).type ≠ .free
  plain : (s.inode i).type ≠ .dir
  target : resolve s (insert i (s.pinned 0)) p new true = .ok (some (dp, name))
  absent : scan name (s.inode dp).ents = none

theorem addLink_shape (s : Fs) (i : ℕ) (n : ℤ) (j : ℕ) :
    ((s.addLink i n).inode j).type = (s.inode j).type ∧
      ((s.addLink i n).inode j).ents = (s.inode j).ents :=
  setLinks_shape _ j

theorem walk_congr {ino ino' : ℕ → Dinode}
    (hs : ∀ j, (ino' j).type = (ino j).type ∧ (ino' j).ents = (ino j).ents) (H : Finset ℕ)
    (parent : Bool) (i : ℕ) (names : List Name) :
    walk ino' H parent i names = walk ino H parent i names := by
  induction names generalizing i with
  | nil => rfl
  | cons n rest ih =>
    rw [walk, walk, (hs i).1, (hs i).2]
    simp only [ih]

theorem resolve_addLink (s : Fs) (i : ℕ) (n : ℤ) (H : Finset ℕ) (p : Pid) (path : List Char)
    (parent : Bool) : resolve (s.addLink i n) H p path parent = resolve s H p path parent := by
  have hwalk := walk_congr (addLink_shape s i n) H parent
  have hcwd : (s.addLink i n).cwd = s.cwd := rfl
  simp only [resolve, hwalk, hcwd]

theorem addLink_cancel (s : Fs) (i : ℕ) : (s.addLink i 1).addLink i (-1) = s := by
  simp [Fs.addLink, Fs.setInode]

theorem linkBad_rule (h0 : Held s 0 ∅) (ht : (s.inode i).type ≠ .free)
    (h : Held ((s.addLink i 1).withCache c) (i ::ₘ 0) ∅) :
    wp (linkBad i) (fun r t => r = none ∧ CacheOnly s 0 ∅ t) (fun _ _ => False)
      ((s.addLink i 1).withCache c) := by
  have ht' : ((s.addLink i 1).inode i).type ≠ .free := by
    rw [(addLink_shape s i 1 i).1]
    exact ht
  simp only [linkBad, wp_bind, wp_modify]
  refine wp_imp (ilock_alloc h (by simp) (by simp) ht') ?_
  rintro _ _ ⟨c, rfl, hheld⟩
  have hback : Held (s.withCache c) (i ::ₘ 0) (insert i ∅) := by
    have hedit := hheld.edit (i := i) (x := s.inode i) (by simp) ht
    have hset : ((s.addLink i 1).withCache c).setInode i (s.inode i) = s.withCache c := by
      simp [Fs.addLink, Fs.setInode, Fs.withCache]
    rwa [Fs.withCache_withCache, hset] at hedit
  simp only [Fs.withCache_withCache, Fs.addLink_withCache, addLink_cancel]
  refine wp_imp (iunlockput_keep hback (by simp) (h0.not_dies i)) ?_
  intro _ t ht
  exact ⟨rfl, ht⟩

/-- The last part of `sys_link`, the new name being `name` in `dp`. -/
theorem linkEnd_rule (h0 : Held s 0 ∅) (ht : Tree s.inode) (name : Name)
    (hi : (s.inode i).type ≠ .free) (hdir : (s.inode i).type ≠ .dir)
    (hd : (s.inode dp).type = .dir) (h : Held ((s.addLink i 1).withCache c) (dp ::ₘ i ::ₘ 0) ∅) :
    wp (do
        ilock dp
        if ← dirlink dp name i then
          iunlockput dp
          iput i
          pure (some 0)
        else
          iunlockput dp
          linkBad i)
      (fun r t => match scan name (s.inode dp).ents with
        | none => r = some 0 ∧ CacheOnly (s.linked i dp name) 0 ∅ t
        | some next => next.2 ≠ dp ∧ r = none ∧ CacheOnly s 0 ∅ t)
      (fun e _ => match scan name (s.inode dp).ents with
        | none => OtherPanic e
        | some next => if next.2 = dp then e = .waits dp else OtherPanic e)
      ((s.addLink i 1).withCache c) := by
  have hne : dp ≠ i := by
    rintro rfl
    exact hdir hd
  have hr : InRange (s.addLink i 1).inode := ht.inRange.update (ht.inRange i)
  have hdp : (s.addLink i 1).inode dp = s.inode dp := by simp [Fs.addLink, hne]
  have hd' : ((s.addLink i 1).inode dp).type = .dir := by rw [hdp, hd]
  simp only [wp_bind]
  refine wp_call (ilock_alloc h (by simp) (by simp) (by simp [hd'])) ?_
  rintro _ _ ⟨c, rfl, hheld⟩
  refine wp_mono (dirlink_rule hheld hr hd' (by simp) hheld.not_dies name i) ?_ ?_
  · rintro b t hb
    simp only [Fs.withCache_withCache, Fs.withCache_inode, hdp] at hb
    -- neither `dp` nor `i` dies when the call gives it up
    have hkeep : ¬ s.dies {i} dp := fun hdies => h0.not_dies dp (Fs.dies_of_cons hdies)
    cases hscan : scan name (s.inode dp).ents with
    | none =>
      rw [hscan] at hb
      obtain ⟨rfl, c, rfl, hheld⟩ := hb
      simp only [if_true, wp_bind, Fs.setEnts_withCache, Fs.withCache_withCache] at hheld ⊢
      have hlinked : (s.addLink i 1).setEnts dp (putEntry ⟨i, name.take dirsiz⟩ (s.inode dp).ents) =
          s.linked i dp name := rfl
      have hldp : ((s.linked i dp name).inode dp).nlink = (s.inode dp).nlink := by
        simp [Fs.linked, Fs.setEnts, hdp]
      have hli : ((s.linked i dp name).inode i).nlink = (s.inode i).nlink + 1 := by
        simp [Fs.linked, Fs.setEnts, Fs.addLink, hne.symm]
      rw [hlinked] at hheld ⊢
      refine wp_call (iunlockput_keep hheld (by simp) ?_) ?_
      · rintro ⟨-, hn, hu⟩
        exact hkeep ⟨by rw [hd]; rintro ⟨⟩, hldp ▸ hn, hu⟩
      rintro _ _ ⟨c, rfl, hheld⟩
      refine wp_call (iput_keep hheld (by simp) ?_) ?_
      · rintro ⟨-, hn, -⟩
        have hcount := ht.count i (Nat.pos_iff_ne_zero.1 (ht.onDisk i hi).1)
        simp only [Fs.withCache_inode] at hn
        omega
      · intro _ t ht
        exact ⟨rfl, ht⟩
    | some next =>
      rw [hscan] at hb
      obtain ⟨hL, rfl, c, rfl, hheld⟩ := hb
      simp only [Bool.false_eq_true, if_false, wp_bind]
      refine wp_call (iunlockput_keep hheld (by simp) ?_) ?_
      · rintro ⟨-, hn, hu⟩
        refine hkeep ⟨by rw [hd]; rintro ⟨⟩, ?_, hu⟩
        simpa [hdp] using hn
      rintro _ _ ⟨c, rfl, hheld⟩
      refine wp_call (linkBad_rule h0 hi hheld) ?_
      intro r t hr
      exact ⟨by simpa using hL, hr⟩
  · rintro e t he
    simp only [Fs.withCache_inode, hdp] at he
    rcases hscan : scan name (s.inode dp).ents with _ | next
    · rw [hscan] at he
      exact ⟨_, he, by decide⟩
    rw [hscan] at he
    simp only [insert_empty_eq, Finset.mem_singleton] at he
    by_cases hself : next.2 = dp
    · simpa [hself] using he
    · simp only [hself, if_false] at he ⊢
      exact ⟨_, he, by decide⟩

/-- `link` returns, panics, or waits for the directory it has locked; it waits just when the new
name is that of the directory itself. -/
theorem sysLink_rule (h : Held s 0 ∅) (ht : Tree s.inode) (hp : s.live p = true)
    (old new : List Char) :
    wp (sysLink p old new) (fun r t => ¬ SelfLink s p old new ∧ (CacheOnly s 0 ∅ t ∧ r = none ∨
          ∃ i dp name, LinkAt s p old new i dp name ∧ CacheOnly (s.linked i dp name) 0 ∅ t))
      (fun e _ => SelfLink s p old new ∧ (∃ j, e = .waits j) ∨
        ¬ SelfLink s p old new ∧ Panics s e) s := by
  simp only [sysLink, nameiparent, wp_bind]
  refine wp_mono (namei_rule h ht.inRange hp old) ?_ ?_
  swap
  · intro e _ hold
    refine .inr ⟨?_, resolve_panics h ht hp hold⟩
    rintro ⟨i, n, dp, name, slot, hold', -⟩
    rw [hold] at hold'
    cases hold'
  rintro _ _ ⟨r, hold, rfl, c, rfl, hheld⟩
  rcases r with _ | r
  · rw [refOf_none] at hheld
    refine ⟨?_, .inl ⟨⟨c, rfl, hheld⟩, rfl⟩⟩
    rintro ⟨i, n, dp, name, slot, hold', -⟩
    rw [hold] at hold'
    cases hold'
  obtain ⟨i, n⟩ := r
  rw [refOf_some] at hheld
  -- with `i` known, waiting depends on the rest only
  have hself : SelfLink s p old new ↔ (s.inode i).type ≠ .free ∧ (s.inode i).type ≠ .dir ∧
      ∃ dp name slot, resolve s (insert i (s.pinned 0)) p new true = .ok (some (dp, name)) ∧
        scan name (s.inode dp).ents = some (slot, dp) := by
    constructor
    · rintro ⟨i', n', dp, name, slot, hold', hfree, hdir, hnew, hscan⟩
      rw [hold] at hold'
      cases hold'
      exact ⟨hfree, hdir, dp, name, slot, hnew, hscan⟩
    · rintro ⟨hfree, hdir, dp, name, slot, hnew, hscan⟩
      exact ⟨i, n, dp, name, slot, hold, hfree, hdir, hnew, hscan⟩
  simp only [Option.map_some, wp_bind]
  refine wp_mono (ilock_rule hheld (by simp) (by simp)) ?_ ?_
  swap
  · rintro e t ⟨hfree, rfl⟩
    refine .inr ⟨fun hs => (hself.1 hs).1 hfree, _, rfl, fun _ hall => ?_⟩
    have := resolve_alloc (H := s.pinned 0) h ht hp old false hall
    rw [hold] at this
    exact this _ rfl hfree
  rintro _ _ ⟨hfree, c, rfl, hheld⟩
  by_cases hdir : (s.inode i).type = .dir
  · simp only [wp_bind, wp_get, Fs.withCache_inode, hdir, if_true]
    refine wp_call (iunlockput_keep hheld (by simp) (h.not_dies i)) ?_
    intro _ t ht
    exact ⟨fun hs => (hself.1 hs).2.1 hdir, .inl ⟨ht, rfl⟩⟩
  simp only [wp_bind, wp_get, Fs.withCache_inode, hdir, if_false, wp_modify, Fs.addLink_withCache,
    Fs.withCache_withCache]
  have hheld1 : Held ((s.addLink i 1).withCache c) (i ::ₘ 0) (insert i ∅) :=
    hheld.edit (by simp) hfree
  refine wp_call (iunlock_rule hheld1 (by simp)) ?_
  rintro _ _ ⟨c, rfl, hheld2⟩
  have hr : InRange (s.addLink i 1).inode := ht.inRange.update (ht.inRange i)
  have hpin : ((s.addLink i 1).withCache c).pinned (i ::ₘ 0) = insert i (s.pinned 0) :=
    Held.pinned_cons (s := s) (hheld.lt_of_mem (by simp))
  have hres : resolve ((s.addLink i 1).withCache c) (insert i (s.pinned 0)) p new true =
      resolve s (insert i (s.pinned 0)) p new true := resolve_addLink s i 1 _ p new true
  refine wp_mono (namex_rule hheld2 hr hp new true) ?_ ?_
  swap
  · intro e _ hnew
    rw [Fs.withCache_withCache, hpin, hres] at hnew
    refine .inr ⟨?_, resolve_panics h ht hp hnew⟩
    rw [hself]
    rintro ⟨-, -, dp, name, slot, hnew', -⟩
    rw [hnew] at hnew'
    cases hnew'
  rintro r _ ⟨hnew, c, rfl, hheld3⟩
  rw [Fs.withCache_withCache, hpin, hres] at hnew
  cases r with
  | none =>
    rw [refOf_none] at hheld3
    refine wp_call (linkBad_rule h hfree hheld3) ?_
    rintro r t ⟨rfl, ht⟩
    refine ⟨?_, .inl ⟨ht, rfl⟩⟩
    rw [hself]
    rintro ⟨-, -, dp, name, slot, hnew', -⟩
    rw [hnew] at hnew'
    cases hnew'
  | some r =>
    obtain ⟨dp, name⟩ := r
    rw [refOf_some] at hheld3
    have hself' : SelfLink s p old new ↔ ∃ slot, scan name (s.inode dp).ents = some (slot, dp) := by
      rw [hself]
      constructor
      · rintro ⟨-, -, dp', name', slot, hnew', hscan⟩
        rw [hnew] at hnew'
        cases hnew'
        exact ⟨slot, hscan⟩
      · rintro ⟨slot, hscan⟩
        exact ⟨hfree, hdir, dp, name, slot, hnew, hscan⟩
    have := linkEnd_rule h ht name hfree hdir (resolve_dir hnew) hheld3
    refine wp_mono this ?_ ?_
    · intro r t hout
      rw [hself']
      rcases hscan : scan name (s.inode dp).ents with _ | next
      · rw [hscan] at hout
        refine ⟨by simp, .inr ⟨i, dp, name, ⟨⟨n, hold⟩, hfree, hdir, hnew, hscan⟩, hout.2⟩⟩
      rw [hscan] at hout
      obtain ⟨hne, rfl, ht⟩ := hout
      refine ⟨?_, .inl ⟨ht, rfl⟩⟩
      rintro ⟨slot, heq⟩
      cases heq
      exact hne rfl
    · intro e t hout
      rw [hself']
      rcases hscan : scan name (s.inode dp).ents with _ | next
      · rw [hscan] at hout
        exact .inr ⟨by simp, hout.panics⟩
      rw [hscan] at hout
      obtain ⟨slot, j⟩ := next
      by_cases hj : j = dp
      · subst hj
        simp only [if_true] at hout
        exact .inl ⟨⟨slot, rfl⟩, j, hout⟩
      simp only [hj, if_false] at hout
      refine .inr ⟨?_, hout.panics⟩
      rintro ⟨slot', heq⟩
      cases heq
      exact hj rfl

/-! ## `unlink` -/

/-- The path is the entry in `slot` of `dp`, which names `i`. -/
structure UnlinkAt (s : Fs) (p : Pid) (path : List Char) (dp slot i : ℕ) : Prop where
  resolved : ∃ name, resolve s (s.pinned 0) p path true = .ok (some (dp, name)) ∧
    namecmp name dot = false ∧ namecmp name dotdot = false ∧
    scan name (s.inode dp).ents = some (slot, i)
  empty : (s.inode i).type = .dir → isdirempty (s.inode i).ents = true

/-- A name other than `.` and `..` is found among the proper entries. -/
theorem scan_entries (ht : Tree s.inode) (hd : (s.inode dp).type = .dir) {name : Name} {slot : ℕ}
    (hdot : namecmp name dot = false) (hdotdot : namecmp name dotdot = false)
    (hscan : scan name (s.inode dp).ents = some (slot, i)) :
    2 ≤ slot ∧ ∃ e, (s.inode dp).ents[slot]? = some e ∧ e ∈ entries s.inode dp ∧ e.inum = i ∧
      i ≠ 0 := by
  obtain ⟨e, hmem, he, h0, -⟩ := scan_mem hscan
  simp only at he
  subst he
  have hslot : 2 ≤ slot := by
    rw [(ht.ents_eq hd).1] at hscan
    exact scan_lt_of_ne hdot hdotdot hscan
  refine ⟨hslot, e, hmem, ?_, rfl, h0⟩
  obtain ⟨k, rfl⟩ : ∃ k, slot = 2 + k := ⟨slot - 2, by omega⟩
  refine List.mem_of_getElem? (i := k) ?_
  rw [entries, List.getElem?_drop]
  exact hmem

theorem UnlinkAt.entry {slot : ℕ} (h : UnlinkAt s p path dp slot i) (ht : Tree s.inode) :
    2 ≤ slot ∧ ∃ e, (s.inode dp).ents[slot]? = some e ∧ e ∈ entries s.inode dp ∧ e.inum = i ∧
      i ≠ 0 := by
  obtain ⟨name, hres, hdot, hdotdot, hscan⟩ := h.resolved
  exact scan_entries ht (resolve_dir hres) hdot hdotdot hscan

theorem cutEntry_eq (s : Fs) (dp slot i : ℕ) (hne : i ≠ dp) :
    (if ((s.setEnts dp ((s.inode dp).ents.set slot ⟨0, []⟩)).inode i).type = .dir then
        (s.setEnts dp ((s.inode dp).ents.set slot ⟨0, []⟩)).addLink dp (-1)
      else s.setEnts dp ((s.inode dp).ents.set slot ⟨0, []⟩)) = s.cutEntry dp slot i := by
  have hi : ((s.setEnts dp ((s.inode dp).ents.set slot ⟨0, []⟩)).inode i) = s.inode i := by
    simp [Fs.setEnts, hne]
  rw [hi, Fs.cutEntry]
  split_ifs with hdir
  · rfl
  · simp [Fs.addLink, Fs.setEnts, Fs.setInode]

theorem cutEntry_inode_of_ne (s : Fs) (dp slot : ℕ) (hne : i ≠ dp) :
    (s.cutEntry dp slot i).inode i = s.inode i := by
  simp [Fs.cutEntry, Fs.addLink, Fs.setEnts, hne]

theorem release_inode_of_ne (s : Fs) (T : Multiset ℕ) (hne : i ≠ j) :
    (s.release T j).inode i = s.inode i := by
  unfold Fs.release
  split_ifs
  · simp [hne]
  · rfl

theorem removeEntry_rule {slot : ℕ}
    (h : Held (s.withCache c) (i ::ₘ dp ::ₘ 0) (insert i (insert dp ∅))) (hne : i ≠ dp)
    (hd : (s.inode dp).type = .dir) (hi : (s.inode i).type ≠ .free) :
    wp (removeEntry dp slot i) (fun _ t => CacheOnly (s.unlinked dp slot i) 0 ∅ t)
      (fun _ _ => False) (s.withCache c) := by
  set u := s.setEnts dp ((s.inode dp).ents.set slot ⟨0, []⟩) with hu
  have hedit : Held (u.withCache c) (i ::ₘ dp ::ₘ 0) (insert i (insert dp ∅)) := by
    refine h.edit (by simp) ?_
    simp [hd]
  have hcut : Held ((s.cutEntry dp slot i).withCache c) (i ::ₘ dp ::ₘ 0) (insert i (insert dp ∅)) := by
    rw [← cutEntry_eq s dp slot i hne, ← hu]
    split_ifs
    · refine hedit.edit (by simp) ?_
      simp [hu, Fs.setEnts, hd]
    · exact hedit
  -- both branches of the test lead to the cleared entry
  have hprog : wp (removeEntry dp slot i) (fun _ t => CacheOnly (s.unlinked dp slot i) 0 ∅ t)
      (fun _ _ => False) (s.withCache c) ↔ wp (do
        iunlockput dp
        modify fun s => s.addLink i (-1)
        iunlockput i
        pure (some 0)) (fun (_ : Option ℕ) t => CacheOnly (s.unlinked dp slot i) 0 ∅ t)
      (fun _ _ => False) ((s.cutEntry dp slot i).withCache c) := by
    rw [← cutEntry_eq s dp slot i hne]
    by_cases hdir : (u.inode i).type = .dir
    · simp [removeEntry, ← hu, hdir]
    · simp [removeEntry, ← hu, hdir]
  rw [hprog]
  simp only [wp_run]
  rw [Multiset.cons_swap, Finset.insert_comm] at hcut
  refine wp_imp (iunlockput_rule hcut (by simpa using hne.symm)) ?_
  rintro _ _ ⟨c, rfl, hheld⟩
  rw [Fs.release_withCache] at hheld ⊢
  simp only [Fs.withCache_withCache, Fs.addLink_withCache] at hheld ⊢
  have hlink : Held ((((s.cutEntry dp slot i).release {i} dp).addLink i (-1)).withCache c) (i ::ₘ 0)
      (insert i ∅) := by
    refine hheld.edit (by simp) ?_
    simpa [release_inode_of_ne _ _ hne, cutEntry_inode_of_ne _ _ _ hne] using hi
  refine wp_imp (iunlockput_rule hlink (by simp)) ?_
  intro _ t ht
  rwa [Fs.release_withCache, CacheOnly.of_withCache] at ht

theorem sysUnlink_rule (h : Held s 0 ∅) (ht : Tree s.inode) (hp : s.live p = true)
    (path : List Char) :
    wp (sysUnlink p path) (fun r t => CacheOnly s 0 ∅ t ∧ r = none ∨
        ∃ dp slot i, UnlinkAt s p path dp slot i ∧ CacheOnly (s.unlinked dp slot i) 0 ∅ t)
      (fun e _ => Panics s e) s := by
  simp only [sysUnlink, nameiparent, wp_bind]
  refine wp_mono (namex_rule h ht.inRange hp path true) ?_ (fun _ _ hE => resolve_panics h ht hp hE)
  rintro r _ ⟨hres, c, rfl, hheld⟩
  rcases r with _ | r
  · rw [refOf_none] at hheld
    exact .inl ⟨⟨c, rfl, hheld⟩, rfl⟩
  obtain ⟨dp, name⟩ := r
  rw [refOf_some] at hheld
  have hd : (s.inode dp).type = .dir := resolve_dir hres
  -- the label `bad`
  have hbad : ∀ {c : ℕ → Cached}, Held (s.withCache c) (dp ::ₘ 0) (insert dp ∅) →
      wp (iunlockput dp) (fun _ t => CacheOnly s 0 ∅ t) (fun _ _ => False) (s.withCache c) :=
    fun hc => iunlockput_keep hc (by simp) (h.not_dies dp)
  simp only [wp_bind]
  refine wp_call (ilock_alloc hheld (by simp) (by simp) (by simp [hd])) ?_
  rintro _ _ ⟨c, rfl, hheld⟩
  by_cases hdots : namecmp name dot = true ∨ namecmp name dotdot = true
  · simp only [hdots, if_true, wp_bind]
    refine wp_call (hbad hheld) ?_
    intro _ t ht
    exact .inl ⟨ht, rfl⟩
  simp only [hdots, if_false, wp_bind]
  have hdot : namecmp name dot = false := by simpa using fun hd => hdots (.inl hd)
  have hdotdot : namecmp name dotdot = false := by simpa using fun hd => hdots (.inr hd)
  refine wp_mono (dirlookup_rule hheld ht.inRange hd name) ?_ ?_
  swap
  · rintro e t ⟨rfl, -⟩
    exact .of_ne rfl (by decide)
  rintro r t ⟨hscan, htt⟩
  simp only [Fs.withCache_withCache, Fs.withCache_inode] at hscan htt
  rcases r with _ | r
  · subst htt
    simp only [wp_bind]
    refine wp_call (hbad hheld) ?_
    intro _ t ht
    exact .inl ⟨ht, rfl⟩
  obtain ⟨slot, i⟩ := r
  obtain ⟨-, c, rfl, hheld⟩ := htt
  obtain ⟨-, e, -, he, hei, h0⟩ := scan_entries ht hd hdot hdotdot hscan
  have hne : i ≠ dp := hei ▸ ht.ne_self he
  have hi : (s.inode i).type ≠ .free := hei ▸ ht.alloc dp e he (hei.symm ▸ h0)
  simp only [wp_bind]
  refine wp_call (ilock_alloc hheld (by simp) (by simpa using hne) hi) ?_
  rintro _ _ ⟨c, rfl, hheld⟩
  simp only [Fs.withCache_withCache] at hheld ⊢
  by_cases hlink : (s.inode i).nlink < 1
  · simp only [wp_bind, wp_get, Fs.withCache_inode, hlink, if_true, panic, wp_throw]
    exact .of_ne rfl (by decide)
  by_cases hfull : (s.inode i).type = .dir ∧ ¬ isdirempty (s.inode i).ents = true
  · simp only [wp_bind, wp_get, Fs.withCache_inode, hlink, if_false, hfull,
      Bool.false_eq_true, not_false_eq_true, and_self, if_true]
    refine wp_call (iunlockput_keep hheld (by simpa using hne)
      (fun hdies => h.not_dies i (Fs.dies_of_cons hdies))) ?_
    rintro _ _ ⟨c, rfl, hheld⟩
    refine wp_call (hbad hheld) ?_
    intro _ t ht
    exact .inl ⟨ht, rfl⟩
  · simp only [wp_get, Fs.withCache_inode, hlink, if_false, hfull]
    refine wp_call (removeEntry_rule hheld hne hd hi) ?_
    intro _ t hout
    refine .inr ⟨dp, slot, i, ⟨⟨name, hres, hdot, hdotdot, hscan⟩, fun hdir => ?_⟩, hout⟩
    by_contra hempty
    exact hfull ⟨hdir, hempty⟩

/-! ## `mkdir`, `mknod` and `open` -/

theorem Made.alloc {u : Fs} (h : Made s p path type i u) (h0 : Held s 0 ∅) (hty : type ≠ .free) :
    (u.inode i).type ≠ .free ∧ ¬ u.dies 0 i := by
  cases h with
  | found _ hi =>
    refine ⟨?_, h0.not_dies i⟩
    rw [hi]
    nofun
  | @new dp name hnew =>
    have hne : i ≠ dp := by
      rintro rfl
      have := resolve_dir hnew.resolved
      rw [hnew.free] at this
      cases this
    have hi : (s.created dp name type i).inode i = ⟨type, 1, Fs.dotsOf type i dp⟩ := by
      simp [Fs.created, Fs.setEnts, Fs.addLink, hne]
    refine ⟨by rw [hi]; exact hty, ?_⟩
    rintro ⟨-, hn, -⟩
    rw [hi] at hn
    cases hn

theorem sysCreate_rule (h : Held s 0 ∅) (ht : Tree s.inode) (hp : s.live p = true)
    (path : List Char) (hty : type ≠ .free) :
    wp (sysCreate p path type) (fun r t => CacheOnly s 0 ∅ t ∧ r = none ∨
        ∃ i u, Made s p path type i u ∧ CacheOnly u 0 ∅ t)
      (fun e _ => Panics s e) s := by
  simp only [sysCreate, wp_bind]
  refine wp_imp (create_rule h ht hp path hty) ?_
  intro r t hr
  rcases r with _ | i
  · exact .inl ⟨hr, rfl⟩
  obtain ⟨u, hmade, c, rfl, hheld⟩ := hr
  have hheld : Held (u.withCache c) (i ::ₘ 0) (insert i ∅) := by simpa using hheld
  simp only [wp_bind]
  refine wp_call (iunlockput_keep hheld (by simp) (hmade.alloc h hty).2) ?_
  intro _ t ht
  exact .inr ⟨i, u, hmade, ht⟩

/-- The inode `sys_open` opens. -/
inductive Opens (s : Fs) (p : Pid) (path : List Char) (i : ℕ) : Fs → Prop
  | made {u : Fs} (h : Made s p path .file i u) : Opens s p path i u
  | found {n : Name} (h : resolve s (s.pinned 0) p path false = .ok (some (i, n)))
      (ht : (s.inode i).type ≠ .free) : Opens s p path i s

theorem Opens.alloc {u : Fs} (h : Opens s p path i u) (h0 : Held s 0 ∅) :
    (u.inode i).type ≠ .free ∧ ¬ u.dies 0 i := by
  cases h with
  | made h => exact h.alloc h0 (by nofun)
  | found _ ht => exact ⟨ht, h0.not_dies i⟩

theorem Opens.frame {u : Fs} (h : Opens s p path i u) :
    u.ftable = s.ftable ∧ u.ofile = s.ofile ∧ u.live = s.live ∧ u.cwd = s.cwd := by
  cases h with
  | made h =>
    cases h with
    | found => exact ⟨rfl, rfl, rfl, rfl⟩
    | new => exact ⟨rfl, rfl, rfl, rfl⟩
  | found => exact ⟨rfl, rfl, rfl, rfl⟩

theorem openInode_rule (h : Held s 0 ∅) (ht : Tree s.inode) (hp : s.live p = true)
    (path : List Char) (omode : ℕ) :
    wp (openInode p path omode) (fun r t => match r with
        | none => CacheOnly s 0 ∅ t
        | some i => ∃ u, Opens s p path i u ∧ CacheOnly u (i ::ₘ 0) (insert i ∅) t)
      (fun e _ => Panics s e) s := by
  by_cases hcreate : omode &&& oCreate ≠ 0
  · simp only [openInode, if_pos hcreate]
    refine wp_imp (create_rule h ht hp path (by rintro ⟨⟩)) ?_
    intro r t hr
    rcases r with _ | i
    · exact hr
    obtain ⟨u, hmade, hout⟩ := hr
    exact ⟨u, .made hmade, by simpa using hout⟩
  · simp only [openInode, if_neg hcreate, wp_bind]
    refine wp_mono (namei_rule h ht.inRange hp path) ?_ (fun _ _ hE => resolve_panics h ht hp hE)
    rintro _ _ ⟨r, hres, rfl, c, rfl, hheld⟩
    rcases r with _ | r
    · rw [refOf_none] at hheld
      exact ⟨c, rfl, hheld⟩
    rw [refOf_some] at hheld
    simp only [Option.map_some, wp_bind]
    refine wp_imp (ilock_resolved h ht hp hres hheld) ?_
    rintro _ _ ⟨hfree, c, rfl, hheld⟩
    by_cases hdir : (s.inode r.1).type = .dir ∧ omode ≠ 0
    · simp only [wp_run, Fs.withCache_inode, hdir, not_false_eq_true, ne_eq, and_self]
      exact wp_call (iunlockput_keep hheld (by simp) (h.not_dies r.1)) (fun _ _ hQ => hQ)
    · simp only [wp_run, Fs.withCache_inode, hdir]
      exact ⟨s, .found hres hfree, c, rfl, hheld⟩

theorem filealloc_rule (s : Fs) : wp filealloc (fun r t => match r with
        | none => t = s
        | some f => (s.ftable f).ref = 0 ∧ t = s.setFile f { s.ftable f with ref := 1 })
      (fun _ _ => False) s := by
  simp only [filealloc, wp_run]
  rcases hfind : (List.finRange 100).find? fun f => (s.ftable f).ref = 0 with _ | f
  · simp
  have hzero : (s.ftable f).ref = 0 := by simpa using List.find?_some hfind
  simp only [wp_run]
  exact ⟨hzero, trivial⟩

theorem fdalloc_rule (s : Fs) (p : Pid) (f : Fid) : wp (fdalloc p f) (fun r t => match r with
        | none => t = s
        | some fd => s.ofile p fd = none ∧ t = s.setOfile p fd (some f))
      (fun _ _ => False) s := by
  simp only [fdalloc, wp_run]
  rcases hfind : (List.finRange 16).find? fun fd => (s.ofile p fd).isNone with _ | fd
  · simp
  have hnone : s.ofile p fd = none := by simpa using List.find?_some hfind
  simp only [wp_run]
  exact ⟨hnone, trivial⟩

/-- The descriptor a new file gets. -/
structure Free (s : Fs) (p : Pid) (f : Fid) (fd : Fd) : Prop where
  file : s.ftable f = ⟨0, none⟩
  slot : s.ofile p fd = none

variable {f : Fid}

theorem FilesOk.unused (h : FilesOk s) (hf : (s.ftable f).ref = 0) : s.ftable f = ⟨0, none⟩ := by
  have hip := h.idle f hf
  cases hx : s.ftable f with
  | mk ref ip =>
    rw [hx] at hf hip
    simp only at hf hip
    rw [hf, hip]

theorem users_reserve (hf : s.ftable f = ⟨0, none⟩) (i : ℕ) :
    (s.setFile f ⟨1, none⟩).users i = s.users i := by
  simpa [hf] using s.users_setFile f ⟨1, none⟩ i

theorem Held.reserve (hf : s.ftable f = ⟨0, none⟩) (p : Pid) (fd : Fd) (c : ℕ → Cached) :
    Held (((s.setFile f ⟨1, none⟩).setOfile p fd (some f)).withCache c) T L ↔
      Held (s.withCache c) T L := by
  have hu : ((s.setFile f ⟨1, none⟩).setOfile p fd (some f)).users = s.users :=
    funext fun i => users_reserve hf i
  constructor
  · intro h
    refine h.move rfl rfl (fun i => ?_) h.own (fun i hi => h.used i ?_)
    · rw [Fs.withCache_users, Fs.withCache_users, hu]
    · rwa [Fs.withCache_users, hu]
  · intro h
    refine h.move rfl rfl (fun i => ?_) h.own (fun i hi => h.used i ?_)
    · rw [Fs.withCache_users, Fs.withCache_users, hu]
    · rwa [Fs.withCache_users, hu] at hi

theorem Held.open (h : Held s (i ::ₘ 0) ∅) (hf : s.ftable f = ⟨0, none⟩)
    (hi : (s.inode i).type ≠ .free) (fd : Fd) : Held (s.opened p f fd i) 0 ∅ := by
  have hu : ∀ j, (s.opened p f fd i).users j = s.users j + if i = j then 1 else 0 := by
    intro j
    have := s.users_setFile f ⟨1, some i⟩ j
    simp only [hf, lt_irrefl, false_and, if_false, Nat.one_pos, true_and, Option.some.injEq,
      add_zero] at this
    exact this
  refine h.move rfl rfl ?_ (by simp) ?_
  · intro j
    rw [hu, Multiset.count_cons]
    by_cases hij : i = j
    · simp [hij]
    · simp [hij, Ne.symm hij]
  · intro j hj
    rw [hu] at hj
    by_cases hij : i = j
    · exact hij ▸ hi
    · exact h.used j (by simpa [hij] using hj)

theorem openFd_rule (h : Held (s.withCache c) (i ::ₘ 0) (insert i ∅))
    (hf : FilesOk s) (hi : (s.inode i).type ≠ .free) (hkeep : ¬ s.dies 0 i) (p : Pid) :
    wp (openFd p i) (fun r t => r = none ∧ CacheOnly s 0 ∅ t ∨
        ∃ f fd, Free s p f fd ∧ CacheOnly (s.opened p f fd i) 0 ∅ t)
      (fun _ _ => False) (s.withCache c) := by
  simp only [openFd, wp_bind]
  refine wp_imp (filealloc_rule _) ?_
  intro r t hr
  rcases r with _ | f
  · subst hr
    simp only [wp_bind]
    refine wp_imp (iunlockput_keep h (by simp) hkeep) ?_
    intro _ t ht
    exact .inl ⟨rfl, ht⟩
  obtain ⟨hzero, rfl⟩ := hr
  have hfile : s.ftable f = ⟨0, none⟩ := hf.unused hzero
  simp only [Fs.withCache_ftable, hfile, Fs.setFile_withCache, wp_bind]
  refine wp_imp (fdalloc_rule _ p f) ?_
  intro r t hr
  cases r with
  | none =>
    subst hr
    have hback : (s.setFile f ⟨1, none⟩).setFile f ⟨0, none⟩ = s := by
      simp [Fs.setFile, ← hfile]
    have hft : ((s.setFile f ⟨1, none⟩).withCache c).ftable f = ⟨1, none⟩ := by simp [Fs.setFile]
    simp only [fileclose, panic, wp_run, hft, lt_irrefl, Nat.sub_self, Fs.setFile_withCache, hback]
    refine wp_imp (iunlockput_keep h (by simp) hkeep) ?_
    intro _ t ht
    exact .inl ⟨trivial, ht⟩
  | some fd =>
    obtain ⟨hnone, rfl⟩ := hr
    simp only [wp_run, Fs.setOfile_withCache]
    refine wp_imp (iunlock_rule ((Held.reserve hfile p fd c).2 h) (by simp)) ?_
    rintro _ _ ⟨c, rfl, hheld⟩
    have hopened : ((s.setFile f ⟨1, none⟩).setOfile p fd (some f)).setFile f ⟨1, some i⟩ =
        s.opened p f fd i := by
      simp [Fs.opened, Fs.setFile, Fs.setOfile]
    have hft : ((s.setFile f ⟨1, none⟩).setOfile p fd (some f)).ftable f = ⟨1, none⟩ := by
      simp [Fs.setFile, Fs.setOfile]
    simp only [Fs.withCache_withCache, Fs.withCache_ftable, Fs.setFile_withCache, hft, hopened]
      at hheld ⊢
    exact .inr ⟨f, fd, ⟨hfile, hnone⟩, c, rfl,
      ((Held.reserve hfile p fd c).1 hheld).open hfile hi fd⟩

theorem sysOpen_rule (h : Held s 0 ∅) (ht : Tree s.inode) (hf : FilesOk s) (hp : s.live p = true)
    (path : List Char) (omode : ℕ) :
    wp (sysOpen p path omode) (fun r t => r = none ∧ CacheOnly s 0 ∅ t ∨ ∃ i u, Opens s p path i u ∧
        (r = none ∧ CacheOnly u 0 ∅ t ∨
          ∃ f fd, Free s p f fd ∧ CacheOnly (u.opened p f fd i) 0 ∅ t))
      (fun e _ => Panics s e) s := by
  simp only [sysOpen, wp_bind]
  refine wp_imp (openInode_rule h ht hp path omode) ?_
  intro r t hr
  rcases r with _ | i
  · exact .inl ⟨rfl, hr⟩
  obtain ⟨u, hopens, c, rfl, hheld⟩ := hr
  obtain ⟨hft, hof, hlive, -⟩ := hopens.frame
  have hfu : FilesOk u := by
    refine ⟨⟨fun f => ?_, fun f => ?_⟩, fun q => ?_⟩
    · rw [Fs.descs, hft, hof]
      exact hf.ref f
    · simpa [hft] using hf.idle f
    · simpa [hlive, hof] using hf.dead q
  obtain ⟨hi, hkeep⟩ := hopens.alloc h
  refine wp_call (openFd_rule hheld hfu hi hkeep p) ?_
  rintro r t (⟨rfl, ht⟩ | ⟨f, fd, hfree, ht⟩)
  · exact .inr ⟨i, u, hopens, .inl ⟨rfl, ht⟩⟩
  refine .inr ⟨i, u, hopens, .inr ⟨f, fd, ⟨?_, ?_⟩, ht⟩⟩
  · rw [← hft]
    exact hfree.file
  · rw [← hof]
    exact hfree.slot

/-! ## `chdir` and `exec` -/

theorem iput_withProcs {Q : Unit → Fs → Prop} {live : Pid → Bool} {cwd : Pid → ℕ}
    (h : wp (iput i) Q (fun _ _ => False) (s.withProcs live cwd)) :
    wp (iput i) (fun a t => Q a (t.withProcs live cwd)) (fun _ _ => False) s := by
  simp only [iput, acquiresleep, releasesleep, freeInode, wp_run] at h ⊢
  exact h

theorem iput_procs_rule {live : Pid → Bool} {cwd : Pid → ℕ}
    (h : Held ((s.withProcs live cwd).withCache c) (i ::ₘ 0) ∅) :
    wp (iput i) (fun _ t => t.live = s.live ∧ t.cwd = s.cwd ∧
      CacheOnly ((s.withProcs live cwd).release 0 i) 0 ∅ (t.withProcs live cwd)) (fun _ _ => False)
      (s.withCache c) := by
  have hput := iput_withProcs (s := s.withCache c) (iput_rule h (by simp))
  refine wp_mono (wp_and (iput_frame i (s.withCache c)) hput) ?_ (fun _ _ hE => hE.2)
  rintro _ t ⟨⟨hlive, hcwd, -, -⟩, ht⟩
  have hout : CacheOnly (((s.withProcs live cwd).withCache c).release 0 i) 0 ∅
      (t.withProcs live cwd) := ht
  rw [Fs.release_withCache] at hout
  exact ⟨hlive, hcwd, hout⟩

theorem Fs.users_chdir (hp : s.live p = true) (i j : ℕ) :
    (s.withProcs s.live (update s.cwd p i)).users j + (if s.cwd p = j then 1 else 0) =
      s.users j + if i = j then 1 else 0 := by
  have := s.users_withProcs p true i j
  rw [← hp, update_eq_self] at this
  simpa [hp] using this

theorem Held.chdir (h : Held (s.withCache c) (i ::ₘ 0) ∅) (hp : s.live p = true)
    (hi : (s.inode i).type ≠ .free) :
    Held ((s.withProcs s.live (Function.update s.cwd p i)).withCache c) (s.cwd p ::ₘ 0) ∅ := by
  refine h.move rfl rfl ?_ (by simp) ?_
  · intro j
    have := Fs.users_chdir hp i j
    simp only [Fs.withCache_users, Multiset.count_cons, Multiset.count_zero, zero_add, @eq_comm _ j]
    exact this
  intro j hj
  have := Fs.users_chdir hp i j
  by_cases hij : i = j
  · exact hij ▸ hi
  · refine h.used j ?_
    simp only [hij, if_false, Fs.withCache_users] at this hj ⊢
    omega

theorem sysChdir_rule (h : Held s 0 ∅) (ht : Tree s.inode) (hp : s.live p = true)
    (path : List Char) :
    wp (sysChdir p path) (fun r t => r = none ∧ CacheOnly s 0 ∅ t ∨
        ∃ i, (s.inode i).type = .dir ∧ CacheOnly (s.moved p i) 0 ∅ t)
      (fun e _ => Panics s e) s := by
  simp only [sysChdir, wp_bind]
  refine wp_mono (namei_rule h ht.inRange hp path) ?_ (fun _ _ hE => resolve_panics h ht hp hE)
  rintro _ _ ⟨r, hres, rfl, c, rfl, hheld⟩
  rcases r with _ | r
  · rw [refOf_none] at hheld
    exact .inl ⟨rfl, c, rfl, hheld⟩
  rw [refOf_some] at hheld
  simp only [Option.map_some, wp_bind]
  refine wp_imp (ilock_resolved h ht hp hres hheld) ?_
  rintro _ _ ⟨hfree, c, rfl, hheld⟩
  by_cases hdir : (s.inode r.1).type = .dir
  · simp only [wp_bind, wp_get, Fs.withCache_inode, hdir, ne_eq, not_true_eq_false, if_false]
    refine wp_call (iunlock_rule hheld (by simp)) ?_
    rintro _ _ ⟨c, rfl, hheld⟩
    simp only [Fs.withCache_withCache, Fs.withCache_cwd, wp_modify, wp_pure]
    refine wp_call (iput_procs_rule (hheld.chdir hp hfree)) ?_
    rintro _ t ⟨hlive, hcwd, hout⟩
    refine .inr ⟨r.1, hdir, ?_⟩
    have ht : t.setCwd p r.1 = t.withProcs s.live (update s.cwd p r.1) := by
      rw [← hlive, ← hcwd]
      rfl
    rw [ht]
    exact hout
  · simp only [wp_bind, wp_get, Fs.withCache_inode, hdir, ne_eq, not_false_eq_true, if_true]
    refine wp_call (iunlockput_keep hheld (by simp) (h.not_dies r.1)) ?_
    intro _ t ht
    exact .inl ⟨rfl, ht⟩

theorem exec_rule (h : Held s 0 ∅) (ht : Tree s.inode) (hp : s.live p = true) (path : List Char) :
    wp (exec p path) (fun _ t => CacheOnly s 0 ∅ t) (fun e _ => Panics s e) s := by
  simp only [exec, wp_bind]
  refine wp_mono (namei_rule h ht.inRange hp path) ?_ (fun _ _ hE => resolve_panics h ht hp hE)
  rintro _ _ ⟨r, hres, rfl, c, rfl, hheld⟩
  rcases r with _ | r
  · rw [refOf_none] at hheld
    exact ⟨c, rfl, hheld⟩
  rw [refOf_some] at hheld
  simp only [Option.map_some, wp_run]
  refine wp_imp (ilock_resolved h ht hp hres hheld) ?_
  rintro _ _ ⟨-, c, rfl, hheld⟩
  exact wp_call (iunlockput_keep hheld (by simp) (h.not_dies r.1)) (fun _ _ hQ => hQ)

/-! ## Files -/

section

variable (s : Fs) (T : Multiset ℕ) (i : ℕ)

@[simp] theorem release_ftable : (s.release T i).ftable = s.ftable := by
  unfold Fs.release
  split_ifs <;> rfl

@[simp] theorem release_ofile : (s.release T i).ofile = s.ofile := by
  unfold Fs.release
  split_ifs <;> rfl

@[simp] theorem release_live : (s.release T i).live = s.live := by
  unfold Fs.release
  split_ifs <;> rfl

@[simp] theorem release_cwd : (s.release T i).cwd = s.cwd := by
  unfold Fs.release
  split_ifs <;> rfl

end

/-- The file as `fileclose` leaves it. -/
def File.closed (x : File) : File := if 1 < x.ref then { x with ref := x.ref - 1 } else ⟨0, none⟩

theorem closeFile_frame (s : Fs) (T : Multiset ℕ) (f : Fid) :
    (s.closeFile T f).ftable = update s.ftable f (s.ftable f).closed ∧
      (s.closeFile T f).ofile = s.ofile ∧ (s.closeFile T f).live = s.live ∧
      (s.closeFile T f).cwd = s.cwd := by
  unfold Fs.closeFile File.closed
  by_cases hone : 1 < (s.ftable f).ref
  · simp only [hone, if_true]
    exact ⟨rfl, rfl, rfl, rfl⟩
  simp only [hone, if_false]
  rcases (s.ftable f).ip with _ | i
  · exact ⟨rfl, rfl, rfl, rfl⟩
  simp only [release_ftable, release_ofile, release_live, release_cwd]
  exact ⟨rfl, rfl, rfl, rfl⟩

theorem Fs.closeFile_withCache (s : Fs) (c : ℕ → Cached) (T : Multiset ℕ) (f : Fid) :
    (s.withCache c).closeFile T f = (s.closeFile T f).withCache c := by
  by_cases hone : 1 < (s.ftable f).ref
  · simp only [Fs.closeFile, Fs.withCache_ftable, hone, if_true]
    rfl
  simp only [Fs.closeFile, Fs.withCache_ftable, hone, if_false]
  rcases (s.ftable f).ip with _ | i
  · rfl
  simp only [Fs.setFile_withCache]
  exact Fs.release_withCache c

variable {fd : Fd}

theorem Counted.ref_pos (h : Counted s) (ho : s.ofile p fd = some f) : 0 < (s.ftable f).ref := by
  rw [h.ref f, Fs.descs, fileDescs, Finset.card_pos]
  exact ⟨(p, fd), by simp [ho]⟩

theorem fileclose_rule (h : Held s T L) (hpos : 0 < (s.ftable f).ref)
    (hl : ∀ i, (s.ftable f).ip = some i → i ∉ L) :
    wp (fileclose f) (fun _ t => CacheOnly (s.closeFile T f) T L t) (fun _ _ => False) s := by
  have hnot : ¬ (s.ftable f).ref < 1 := by omega
  simp only [fileclose, panic, wp_run, hnot, Fs.closeFile]
  by_cases hone : 1 < (s.ftable f).ref
  · have hone' : 0 < (s.ftable f).ref - 1 := by omega
    simp only [hone, hone', if_true]
    have hu : ∀ i, (s.setFile f ⟨(s.ftable f).ref - 1, (s.ftable f).ip⟩).users i = s.users i := by
      intro i
      have := s.users_setFile f ⟨(s.ftable f).ref - 1, (s.ftable f).ip⟩ i
      simp only [hpos, hone', true_and] at this
      omega
    exact ⟨s.icache, rfl, h.move rfl rfl (fun i => congrArg (· + T.count i) (hu i)) h.own
      (fun i hi => h.used i (hu i ▸ hi))⟩
  · have hone' : ¬ 0 < (s.ftable f).ref - 1 := by omega
    simp only [hone, hone', wp_run]
    have hu : ∀ i, (s.setFile f ⟨0, none⟩).users i + (if (s.ftable f).ip = some i then 1 else 0) =
        s.users i := by
      intro i
      simpa [hpos] using s.users_setFile f ⟨0, none⟩ i
    have hused : ∀ i, 0 < (s.setFile f ⟨0, none⟩).users i → (s.inode i).type ≠ .free := by
      intro i hi
      have := hu i
      exact h.used i (by omega)
    rcases hip : (s.ftable f).ip with _ | i
    · refine ⟨s.icache, rfl, h.move rfl rfl ?_ h.own hused⟩
      intro i
      have := hu i
      simp only [hip, reduceCtorEq, if_false] at this
      omega
    have hheld : Held (s.setFile f ⟨0, none⟩) (i ::ₘ T) L := by
      refine h.move rfl rfl ?_ (fun j hj => Multiset.mem_cons_of_mem (h.own j hj)) hused
      intro j
      have := hu j
      simp only [hip, Option.some.injEq] at this
      rw [Multiset.count_cons]
      by_cases hij : i = j
      · simp only [hij, if_true] at this ⊢
        omega
      · simp only [hij, Ne.symm hij, if_false] at this ⊢
        omega
    exact iput_rule hheld (hl i hip)

theorem Counted.closeFd (h : Counted s) (ho : s.ofile p fd = some f) :
    Counted (s.closeFd p fd f) := by
  obtain ⟨hft, hof, -, -⟩ := closeFile_frame s 0 f
  have hpos := h.ref_pos ho
  have hdescs : ∀ g, (s.closeFd p fd f).descs g + (if f = g then 1 else 0) = s.descs g := by
    intro g
    have hsame : (s.closeFile 0 f).descs g = s.descs g := by rw [Fs.descs, Fs.descs, hof]
    have := (s.closeFile 0 f).descs_setOfile p fd none g
    simpa [hof, ho, hsame, Fs.closeFd] using this
  have hfile : ∀ g, (s.closeFd p fd f).ftable g = update s.ftable f (s.ftable f).closed g :=
    fun g => congrFun hft g
  refine ⟨fun g => ?_, fun g => ?_⟩
  · have hd := hdescs g
    have hg := h.ref g
    rw [hfile]
    by_cases hfg : f = g
    · subst hfg
      simp only [update_self, File.closed, if_true] at hd ⊢
      split_ifs
      · simp only
        omega
      · simp only
        omega
    · simp only [update_of_ne (Ne.symm hfg), hfg, if_false] at hd ⊢
      omega
  · rw [hfile]
    by_cases hfg : f = g
    · subst hfg
      simp only [update_self, File.closed]
      split_ifs with hone
      · simp only
        omega
      · simp
    · simpa [Ne.symm hfg] using h.idle g

theorem FilesOk.closeFd (h : FilesOk s) (ho : s.ofile p fd = some f) :
    FilesOk (s.closeFd p fd f) := by
  obtain ⟨-, hof, hlive, -⟩ := closeFile_frame s 0 f
  refine ⟨h.toCounted.closeFd ho, fun q hq fd' => ?_⟩
  have hdead := h.dead q (by simpa [Fs.closeFd, Fs.setOfile, hlive] using hq) fd'
  by_cases hqp : q = p
  · subst hqp
    by_cases hfd : fd' = fd
    · simp [Fs.closeFd, Fs.setOfile, hfd]
    · simpa [Fs.closeFd, Fs.setOfile, hfd, hof] using hdead
  · simpa [Fs.closeFd, Fs.setOfile, hqp, hof] using hdead

theorem closeFile_setOfile (s : Fs) (T : Multiset ℕ) (f : Fid) (p : Pid) (fd : Fd) :
    (s.setOfile p fd none).closeFile T f = (s.closeFile T f).setOfile p fd none := by
  have hft : (s.setOfile p fd none).ftable f = s.ftable f := rfl
  simp only [Fs.closeFile, hft]
  split_ifs
  · rfl
  rcases (s.ftable f).ip with _ | i
  · rfl
  simp only [Fs.release]
  by_cases hd : (s.setFile f ⟨0, none⟩).dies T i
  · have hd' : ((s.setOfile p fd none).setFile f ⟨0, none⟩).dies T i := hd
    rw [if_pos hd, if_pos hd']
    rfl
  · have hd' : ¬ ((s.setOfile p fd none).setFile f ⟨0, none⟩).dies T i := hd
    rw [if_neg hd, if_neg hd']
    rfl

theorem Held.setOfile (h : Held s T L) (p : Pid) (fd : Fd) (f : Option Fid) :
    Held (s.setOfile p fd f) T L :=
  h.move rfl rfl (fun _ => rfl) h.own h.used

theorem sysClose_rule (h : Held s 0 ∅) (hf : FilesOk s) (fd : Fd) : wp (sysClose p fd)
      (fun r t => r = none ∧ CacheOnly s 0 ∅ t ∨
        ∃ f, s.ofile p fd = some f ∧ CacheOnly (s.closeFd p fd f) 0 ∅ t)
      (fun _ _ => False) s := by
  simp only [sysClose, wp_run]
  rcases ho : s.ofile p fd with _ | f
  · exact .inl ⟨rfl, s.icache, rfl, h⟩
  simp only [wp_run]
  have hpos : 0 < ((s.setOfile p fd none).ftable f).ref := hf.ref_pos ho
  refine wp_imp (fileclose_rule (h.setOfile p fd none) hpos (by simp)) ?_
  intro _ t ht
  rw [closeFile_setOfile] at ht
  exact .inr ⟨f, rfl, ht⟩

/-! ## `dup` and `fork` -/

theorem users_dup (hpos : 0 < (s.ftable f).ref) (i : ℕ) :
    (s.setFile f ⟨(s.ftable f).ref + 1, (s.ftable f).ip⟩).users i = s.users i := by
  have := s.users_setFile f ⟨(s.ftable f).ref + 1, (s.ftable f).ip⟩ i
  simp only [hpos, Nat.succ_pos, true_and] at this
  omega

theorem Held.dupFd (h : Held s T L) (hpos : 0 < (s.ftable f).ref) (p : Pid) (fd : Fd) :
    Held (s.dupFd p fd f) T L :=
  h.move rfl rfl (fun i => congrArg (· + T.count i) (users_dup hpos i)) h.own
    (fun i hi => h.used i (users_dup hpos i ▸ hi))

theorem Counted.addFd (h : Counted s) (f : Fid) (hnone : s.ofile p fd = none) (o : Option ℕ) :
    Counted ((s.setFile f ⟨(s.ftable f).ref + 1, o⟩).setOfile p fd (some f)) := by
  have hdescs : ∀ g, (s.setOfile p fd (some f)).descs g = s.descs g + if f = g then 1 else 0 := by
    intro g
    have := s.descs_setOfile p fd (some f) g
    simp only [hnone, reduceCtorEq, if_false, Option.some.injEq, add_zero] at this
    exact this
  refine ⟨fun g => ?_, fun g => ?_⟩
  · have hg := h.ref g
    show (update s.ftable f _ g).ref = (s.setOfile p fd (some f)).descs g
    rw [hdescs]
    by_cases hfg : f = g
    · subst hfg
      simp only [update_self, if_true]
      omega
    · simp only [update_of_ne (Ne.symm hfg), hfg, if_false]
      omega
  · show (update s.ftable f _ g).ref = 0 → (update s.ftable f _ g).ip = none
    by_cases hfg : f = g
    · subst hfg
      simp
    · simpa [Ne.symm hfg] using h.idle g

theorem Counted.dupFd (h : Counted s) (f : Fid) (hnone : s.ofile p fd = none) :
    Counted (s.dupFd p fd f) := h.addFd f hnone _

theorem filedup_rule (hpos : 0 < (s.ftable f).ref) : wp (filedup f)
      (fun _ t => t = s.setFile f ⟨(s.ftable f).ref + 1, (s.ftable f).ip⟩) (fun _ _ => False) s := by
  have hnot : ¬ (s.ftable f).ref < 1 := by omega
  simp only [filedup, panic, wp_run, hnot]

theorem sysDup_rule (h : Held s 0 ∅) (hf : FilesOk s) (fd : Fd) : wp (sysDup p fd)
      (fun r t => r = none ∧ CacheOnly s 0 ∅ t ∨ ∃ f fd', s.ofile p fd = some f ∧
        s.ofile p fd' = none ∧ CacheOnly (s.dupFd p fd' f) 0 ∅ t)
      (fun _ _ => False) s := by
  simp only [sysDup, wp_run]
  rcases ho : s.ofile p fd with _ | f
  · exact .inl ⟨rfl, s.icache, rfl, h⟩
  have hpos := hf.ref_pos ho
  simp only [wp_bind]
  refine wp_imp (fdalloc_rule s p f) ?_
  intro r t hr
  rcases r with _ | fd'
  · subst hr
    exact .inl ⟨rfl, t.icache, rfl, h⟩
  obtain ⟨hnone, rfl⟩ := hr
  simp only [wp_run]
  refine wp_imp (filedup_rule (s := s.setOfile p fd' (some f)) hpos) ?_
  rintro _ t rfl
  exact .inr ⟨f, fd', rfl, hnone, s.icache, rfl, h.dupFd hpos p fd'⟩

theorem forkFiles_rule {child : Pid} (fds : List Fd) (hnd : fds.Nodup)
    (h : Held s 0 ∅) (hc : Counted s) (hnone : ∀ fd ∈ fds, s.ofile child fd = none) :
    wp (forkFiles p child fds)
      (fun _ t => t = s.dupFds p child fds ∧ Held t 0 ∅ ∧ Counted t) (fun _ _ => False) s := by
  induction fds generalizing s with
  | nil => exact ⟨rfl, h, hc⟩
  | cons fd fds ih =>
    obtain ⟨hfd, hnd⟩ := List.nodup_cons.1 hnd
    simp only [forkFiles, wp_run]
    rcases ho : s.ofile p fd with _ | f
    · simp only [Fs.dupFds, ho]
      exact ih hnd h hc fun fd' hfd' => hnone fd' (List.mem_cons_of_mem _ hfd')
    have hpos := hc.ref_pos ho
    simp only [wp_run, Fs.dupFds, ho]
    refine wp_imp (filedup_rule hpos) ?_
    rintro _ _ rfl
    refine ih (s := s.dupFd child fd f) hnd (h.dupFd hpos child fd)
      (hc.dupFd f (hnone fd List.mem_cons_self)) ?_
    intro fd' hfd'
    have hne' : fd' ≠ fd := by
      rintro rfl
      exact hfd hfd'
    simpa [Fs.dupFd, Fs.setOfile, Fs.setFile, hne'] using hnone fd' (List.mem_cons_of_mem _ hfd')

/-- Nothing but files and descriptors has changed. -/
structure SameProcs (s t : Fs) : Prop where
  inode : t.inode = s.inode
  live : t.live = s.live
  cwd : t.cwd = s.cwd
  freed : t.freed = s.freed

theorem dupFds_same (s : Fs) (p child : Pid) (fds : List Fd) :
    SameProcs s (s.dupFds p child fds) := by
  induction fds generalizing s with
  | nil => exact ⟨rfl, rfl, rfl, rfl⟩
  | cons fd fds ih =>
    unfold Fs.dupFds
    rcases s.ofile p fd with _ | f
    · exact ih s
    have := ih (s.dupFd child fd f)
    exact ⟨this.inode, this.live, this.cwd, this.freed⟩

theorem dupFds_ofile (s : Fs) {p q child : Pid} (hq : q ≠ child) (fds : List Fd) (fd : Fd) :
    (s.dupFds p child fds).ofile q fd = s.ofile q fd := by
  induction fds generalizing s with
  | nil => rfl
  | cons fd' fds ih =>
    unfold Fs.dupFds
    rcases s.ofile p fd' with _ | f
    · exact ih s
    simp only
    rw [ih]
    simp [Fs.dupFd, Fs.setOfile, Fs.setFile, hq]

theorem Held.begun {child : Pid} (h : Held (s.withCache c) (s.cwd p ::ₘ 0) ∅)
    (hp : s.live p = true) (hchild : s.live child = false) :
    Held ((s.begun p child).withCache c) 0 ∅ := by
  have hu : ∀ j, (s.begun p child).users j = s.users j + if s.cwd p = j then 1 else 0 := by
    intro j
    have := s.users_withProcs child true (s.cwd p) j
    simpa [hchild, Fs.begun] using this
  refine h.move rfl rfl ?_ (by simp) ?_
  · intro j
    simp only [Fs.withCache_users, hu, Multiset.count_cons, Multiset.count_zero, zero_add,
      @eq_comm _ j, add_zero]
  intro j hj
  simp only [Fs.withCache_users, hu] at hj
  by_cases hj' : s.cwd p = j
  · subst hj'
    exact h.used _ (s.users_cwd_pos hp)
  · exact h.used j (by simpa [hj'] using hj)

theorem fork_rule (h : Held s 0 ∅) (hf : FilesOk s) (hp : s.live p = true) {child : Pid}
    (hchild : s.live child = false) :
    wp (fork p child)
      (fun _ t => CacheOnly ((s.dupFds p child (List.finRange 16)).begun p child) 0 ∅ t ∧ FilesOk t)
      (fun _ _ => False) s := by
  simp only [fork, wp_run]
  refine wp_imp (forkFiles_rule (List.finRange 16) (List.nodup_finRange 16) h hf.toCounted
    (fun fd _ => hf.dead child hchild fd)) ?_
  rintro _ t ⟨ht, hheld, hcount⟩
  have hsame := dupFds_same s p child (List.finRange 16)
  rw [← ht] at hsame
  have hp' : t.live p = true := by rw [hsame.live, hp]
  have hchild' : t.live child = false := by rw [hsame.live, hchild]
  refine wp_imp (idup_rule hheld (t.users_cwd_pos hp')) ?_
  rintro _ _ ⟨c, rfl, hheld⟩
  rw [← ht]
  refine ⟨⟨c, rfl, hheld.begun hp' hchild'⟩, ⟨hcount.ref, hcount.idle⟩, ?_⟩
  intro q hq fd
  have hqc : q ≠ child := by
    rintro rfl
    simp at hq
  have hlive : s.live q = false := by
    rw [← hsame.live]
    simpa [Fs.setCwd, hqc] using hq
  have hof := dupFds_ofile s (p := p) hqc (List.finRange 16) fd
  rw [← ht, hf.dead q hlive fd] at hof
  exact hof

/-! ## `exit` -/

theorem closeFds_frame (s : Fs) (p : Pid) (fds : List Fd) :
    (s.closeFds p fds).live = s.live ∧ (s.closeFds p fds).cwd = s.cwd := by
  induction fds generalizing s with
  | nil => exact ⟨rfl, rfl⟩
  | cons fd fds ih =>
    unfold Fs.closeFds
    rcases s.ofile p fd with _ | f
    · exact ih s
    obtain ⟨-, -, hlive, hcwd⟩ := closeFile_frame s 0 f
    obtain ⟨hlive', hcwd'⟩ := ih (s.closeFd p fd f)
    exact ⟨hlive'.trans hlive, hcwd'.trans hcwd⟩

theorem closeFd_ofile (s : Fs) (p : Pid) (fd : Fd) (f : Fid) (q : Pid) (fd' : Fd) :
    (s.closeFd p fd f).ofile q fd' = if q = p ∧ fd' = fd then none else s.ofile q fd' := by
  have hof := (closeFile_frame s 0 f).2.1
  by_cases hq : q = p
  · subst hq
    by_cases hfd : fd' = fd
    · simp [Fs.closeFd, Fs.setOfile, hfd]
    · simp [Fs.closeFd, Fs.setOfile, hfd, hof]
  · simp [Fs.closeFd, Fs.setOfile, hq, hof]

theorem closeFds_none (s : Fs) (p : Pid) (fds : List Fd) :
    ∀ fd, fd ∈ fds ∨ s.ofile p fd = none → (s.closeFds p fds).ofile p fd = none := by
  induction fds generalizing s with
  | nil =>
    rintro fd (h | h)
    · cases h
    · exact h
  | cons fd' fds ih =>
    intro fd h
    unfold Fs.closeFds
    rcases ho : s.ofile p fd' with _ | f
    · refine ih s fd ?_
      rcases h with h | h
      · rcases List.mem_cons.1 h with rfl | h
        · exact .inr ho
        · exact .inl h
      · exact .inr h
    refine ih _ fd ?_
    rw [closeFd_ofile]
    rcases h with h | h
    · rcases List.mem_cons.1 h with rfl | h
      · exact .inr (by simp)
      · exact .inl h
    · exact .inr (by simp [h])

theorem exitFiles_rule (fds : List Fd) (h : Held (s.withCache c) 0 ∅) (hf : FilesOk s) :
    wp (exitFiles p fds)
      (fun _ t => CacheOnly (s.closeFds p fds) 0 ∅ t ∧ FilesOk (s.closeFds p fds))
      (fun _ _ => False) (s.withCache c) := by
  induction fds generalizing s c with
  | nil => exact ⟨⟨c, rfl, h⟩, hf⟩
  | cons fd fds ih =>
    simp only [exitFiles, wp_run, Fs.withCache_ofile]
    rcases ho : s.ofile p fd with _ | f
    · simp only [Fs.closeFds, ho]
      exact ih h hf
    have hpos : 0 < ((s.withCache c).ftable f).ref := hf.ref_pos ho
    simp only [wp_run, Fs.closeFds, ho]
    refine wp_imp (fileclose_rule h hpos (by simp)) ?_
    rintro _ _ ⟨c', rfl, hheld⟩
    rw [Fs.closeFile_withCache] at hheld ⊢
    exact ih (hheld.setOfile p fd none) (hf.closeFd ho)

theorem Held.ended (h : Held (s.withCache c) 0 ∅) (hp : s.live p = true) :
    Held ((s.withProcs (Function.update s.live p false) (Function.update s.cwd p 0)).withCache c)
      (s.cwd p ::ₘ 0) ∅ := by
  have hu : ∀ j, (s.withProcs (Function.update s.live p false) (Function.update s.cwd p 0)).users j +
      (if s.cwd p = j then 1 else 0) = s.users j := by
    intro j
    have := s.users_withProcs p false 0 j
    simpa [hp] using this
  refine h.move rfl rfl ?_ (by simp) ?_
  · intro j
    have := hu j
    simp only [Fs.withCache_users, Multiset.count_cons, Multiset.count_zero, zero_add, add_zero,
      @eq_comm _ j]
    exact this
  · intro j hj
    have := hu j
    simp only [Fs.withCache_users] at hj
    exact h.used j (by simp only [Fs.withCache_users]; omega)

theorem exit_rule (h : Held s 0 ∅) (hf : FilesOk s) (hp : s.live p = true) : wp (exit p)
      (fun _ t => CacheOnly ((s.closeFds p (List.finRange 16)).ended p) 0 ∅ t ∧ FilesOk t)
      (fun e _ => Panics s e) s := by
  by_cases hinit : p = initproc
  · simp only [exit, hinit, panic, wp_run]
    exact .of_ne rfl (by decide)
  simp only [exit, hinit, wp_run]
  refine wp_call (exitFiles_rule (s := s) (c := s.icache) (List.finRange 16) h hf) ?_
  rintro _ _ ⟨⟨c, rfl, hheld⟩, hf'⟩
  obtain ⟨hlive, hcwd⟩ := closeFds_frame s p (List.finRange 16)
  have hrow := closeFds_none s p (List.finRange 16)
  set u := s.closeFds p (List.finRange 16) with hu
  have hp' : u.live p = true := by rw [hlive, hp]
  simp only [Fs.withCache_cwd]
  refine wp_mono (wp_and (iput_frame _ _) (iput_procs_rule (hheld.ended hp'))) ?_
    (fun _ _ hE => hE.2.elim)
  rintro _ t ⟨⟨-, -, hof, hft⟩, htlive, htcwd, hout⟩
  have hend : { t.setCwd p 0 with live := update t.live p false } =
      t.withProcs (update u.live p false) (update u.cwd p 0) := by
    rw [← htlive, ← htcwd]
    rfl
  refine ⟨?_, ⟨fun f => ?_, fun f => ?_⟩, ?_⟩
  · rw [hend]
    exact hout
  · rw [Fs.descs]
    have := hf'.ref f
    rw [Fs.descs] at this
    simpa [Fs.setCwd, hft, hof] using this
  · have := hf'.idle f
    simpa [Fs.setCwd, hft] using this
  · intro q hq fd
    by_cases hqp : q = p
    · subst hqp
      simpa [Fs.setCwd, hof] using hrow fd (.inl (List.mem_finRange fd))
    have hq' : u.live q = false := by
      rw [← htlive]
      simpa [Fs.setCwd, hqp] using hq
    simpa [Fs.setCwd, hof] using hf'.dead q hq' fd

end Xv6.Names

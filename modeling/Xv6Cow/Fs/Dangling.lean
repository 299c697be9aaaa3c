import Xv6Cow.Fs.Links

/-!
# Dangling entries

`unlink` of a directory gives back the link its `..` holds on the parent, although a process may
still stand in it.  Once the parent has been unlinked and given up as well, its inode is freed, and
the `..` of the directory dangles.
-/

namespace Xv6.Names

open Function Prog Lts

/-- An unlinked directory: it has no entry, but is in use. -/
def Orphan (ino : ℕ → Dinode) (d : ℕ) : Prop :=
  (ino d).type = .dir ∧ d ≠ rootino ∧ named ino d = 0

/-- The `..` of an unlinked directory names `i`. -/
def Parented (ino : ℕ → Dinode) (i : ℕ) : Prop :=
  ∃ d, Orphan ino d ∧ d ≠ i ∧ parentOf ino d = i

/-- What a process holds: its current directory and the inodes of its open files. -/
def Uses (s : Fs) (p : Pid) (i : ℕ) : Prop :=
  s.cwd p = i ∨ ∃ fd f, s.ofile p fd = some f ∧ (s.ftable f).ip = some i

/-- If the inode has no links left, the `..` of no unlinked directory names it. -/
def Spared (ino : ℕ → Dinode) (i : ℕ) : Prop :=
  (ino i).type ≠ .free → (ino i).nlink = 0 → ¬ Parented ino i

/-- The call gives up no directory that the `..` of an unlinked directory names: `unlink` does not
remove the last name of such a directory when nobody uses it, nor a directory from an unlinked one
nobody uses, and `chdir`, `close` and `exit` do not drop an unlinked one as its last user. -/
def KeepsParents (s : Fs) : Call → Prop
  | .unlink p path => ∀ dp slot i, UnlinkAt s p path dp slot i → (s.inode i).type = .dir →
      (s.users i = 0 → ¬ Parented s.inode i) ∧ ¬ ((s.inode dp).nlink = 1 ∧ s.users dp = 0)
  | .chdir p _ => s.users (s.cwd p) = 1 → Spared s.inode (s.cwd p)
  | .close p fd => ∀ f i, s.ofile p fd = some f → (s.ftable f).ip = some i → s.users i = 1 →
      Spared s.inode i
  | .exit p => ∀ i, Uses s p i → ((s.closeFds p (List.finRange 16)).ended p).users i = 0 →
      Spared s.inode i
  | _ => True

/-- What some process can name: from the root, its current directory or an open file. -/
inductive Reaches (s : Fs) : ℕ → Prop
  | root : Reaches s rootino
  | cwd {p : Pid} (hp : s.live p = true) : Reaches s (s.cwd p)
  | file {p : Pid} {fd : Fd} {f : Fid} {i : ℕ} (hf : s.ofile p fd = some f)
      (hi : (s.ftable f).ip = some i) : Reaches s i
  | entry {d : ℕ} {e : Dirent} (hd : Reaches s d) (he : e ∈ (s.inode d).ents) (h0 : e.inum ≠ 0) :
      Reaches s e.inum

/-- The entries of what processes can name are allocated. -/
def NoDangling (s : Fs) : Prop :=
  ∀ d, Reaches s d → ∀ e ∈ (s.inode d).ents, e.inum ≠ 0 → (s.inode e.inum).type ≠ .free

/-! ## Every `..` names a directory -/

/-- Every `..` names a directory. -/
def Upward (ino : ℕ → Dinode) : Prop :=
  ∀ d, (ino d).type = .dir → (ino (parentOf ino d)).type = .dir

variable {s t u : Fs} {ino ino' : ℕ → Dinode} {p : Pid} {i j d dp slot : ℕ} {c : Call}

theorem Upward.allAlloc (h : Upward ino) (ht : Tree ino) : AllAlloc ino := by
  intro d e he h0
  have hd := ht.dir_of_mem he
  rcases ht.mem_ents he with heq | heq | hmem
  · rw [heq, hd]
    nofun
  · rw [heq, h d hd]
    nofun
  · exact ht.alloc d e hmem h0

theorem Upward.congr (h : Upward ino) (htype : ∀ d, (ino' d).type = (ino d).type)
    (hpar : ∀ d, parentOf ino' d = parentOf ino d) : Upward ino' := by
  intro d hd
  rw [htype, hpar]
  exact h d (by rw [← htype, hd])

theorem Upward.addLink (h : Upward s.inode) (i : ℕ) (n : ℤ) : Upward (s.addLink i n).inode :=
  h.congr (fun d => (addLink_shape s i n d).1) (parentOf_congr (addLink_shape s i n))

theorem Upward.setEnts (h : Upward s.inode) {es : List Dirent}
    (hpar : parentOf (s.setEnts dp es).inode dp = parentOf s.inode dp) :
    Upward (s.setEnts dp es).inode := by
  refine h.congr (fun d => ?_) (fun d => ?_)
  · by_cases hd : d = dp
    · subst hd
      simp [Fs.setEnts]
    · simp [Fs.setEnts, hd]
  · by_cases hd : d = dp
    · subst hd
      exact hpar
    · simp [parentOf, Fs.setEnts, hd]

theorem parentOf_setEnts (v : Fs) (dp : ℕ) (es : List Dirent) (a b : Dirent) :
    parentOf (v.setEnts dp (a :: b :: es)).inode dp = b.inum := by
  simp [parentOf, Fs.setEnts]

/-- Only unlinked directories have their `..` in a directory without links. -/
theorem Tree.orphan_of_parentOf (h : Tree ino) (hn : (ino i).nlink = 0) (hi : i ≠ 0)
    (hd : (ino d).type = .dir) (hpar : parentOf ino d = i) : Orphan ino d := by
  obtain ⟨-, hchild, hroot⟩ := h.of_nlink_zero hi hn
  refine ⟨hd, ?_, ?_⟩
  · rintro rfl
    exact hroot (hpar.symm.trans h.root.2)
  by_contra hne
  obtain ⟨c, -, e, he, rfl⟩ := exists_of_named_pos (Nat.pos_of_ne_zero hne)
  obtain rfl : c = i := (h.parent c e he hd).1.symm.trans hpar
  exact List.countP_eq_zero.1 hchild e he (by simpa using hd)

theorem Upward.release (h : Upward s.inode) (ht : Tree s.inode) {T : Multiset ℕ}
    (hi : s.dies T i → ¬ Parented s.inode i) : Upward (s.release T i).inode := by
  unfold Fs.release
  split_ifs with hdies
  · intro d hd
    by_cases hdi : d = i
    · simp [hdi] at hd
    have hd : (s.inode d).type = .dir := by simpa [hdi] using hd
    have hpar : parentOf (update s.inode i ⟨.free, 0, []⟩) d = parentOf s.inode d := by
      simp [parentOf, hdi]
    have hne : parentOf s.inode d ≠ i := by
      intro heq
      have h0 := Nat.pos_iff_ne_zero.1 (ht.onDisk i hdies.1).1
      exact hi hdies ⟨d, ht.orphan_of_parentOf hdies.2.1 h0 hd heq, hdi, heq⟩
    simpa [hpar, hne] using h d hd
  · exact h

theorem Upward.putEntry {v : Fs} (h : Upward v.inode) (ht : Tree s.inode)
    (hd : (s.inode dp).type = .dir) (hv : parentOf v.inode dp = parentOf s.inode dp) (e : Dirent) :
    Upward (v.setEnts dp (putEntry e (s.inode dp).ents)).inode := by
  refine h.setEnts ?_
  rw [ht.putEntry_ents hd, parentOf_setEnts, hv]

theorem Upward.linked (h : Upward s.inode) (ht : Tree s.inode) {old new : List Char} {name : Name}
    (hat : LinkAt s p old new i dp name) : Upward (s.linked i dp name).inode :=
  (h.addLink i 1).putEntry ht (resolve_dir hat.target) (parentOf_congr (addLink_shape s i 1) dp) _

variable {path : List Char}

theorem Upward.created (h : Upward s.inode) (ht : Tree s.inode) {name : Name}
    {type : IType} (hat : NewAt s p path dp name i) : Upward (s.created dp name type i).inode := by
  have hdp : (s.inode dp).type = .dir := resolve_dir hat.resolved
  have hne : dp ≠ i := by
    rintro rfl
    rw [hat.free] at hdp
    cases hdp
  have h1 : Upward (s.setInode i ⟨type, 1, Fs.dotsOf type i dp⟩).inode := by
    intro d hd
    by_cases hdi : d = i
    · subst hdi
      have hty : type = .dir := by simpa using hd
      simp [parentOf, Fs.dotsOf, hty, hne, hdp]
    have hd : (s.inode d).type = .dir := by simpa [hdi] using hd
    have hpar : parentOf (s.setInode i ⟨type, 1, Fs.dotsOf type i dp⟩).inode d =
        parentOf s.inode d := by
      simp [parentOf, hdi]
    have hpi : parentOf s.inode d ≠ i := by
      intro heq
      have := h d hd
      rw [heq, hat.free] at this
      cases this
    simpa [hpar, hpi] using h d hd
  refine (h1.addLink dp _).putEntry ht hdp ?_ _
  rw [parentOf_congr (addLink_shape _ dp _)]
  simp [parentOf, hne]

theorem Upward.cutEntry (h : Upward s.inode) (ht : Tree s.inode) (hd : (s.inode dp).type = .dir)
    (hslot : 2 ≤ slot) (i : ℕ) : Upward (s.cutEntry dp slot i).inode := by
  refine Upward.addLink (h.setEnts ?_) dp _
  obtain ⟨k, rfl⟩ := Nat.exists_eq_add_of_le' hslot
  rw [(ht.ents_eq hd).1, List.set_cons_succ, List.set_cons_succ, parentOf_setEnts]

/-- After the entry of `i` is cleared, no directory but `i` has become an unlinked one. -/
theorem Parented.of_cut {e : Dirent} (ht : Tree s.inode) (hslot : 2 ≤ slot)
    (he : (s.inode dp).ents[slot]? = some e) {n m : ℤ}
    (h : Parented (((s.setEnts dp ((s.inode dp).ents.set slot ⟨0, []⟩)).addLink dp n).addLink
      e.inum m).inode e.inum) :
    Parented s.inode e.inum := by
  obtain ⟨d, ⟨hdir, hroot, hnamed⟩, hde, hpar⟩ := h
  have hdp := ht.dir_of_mem (List.mem_of_getElem? he)
  rw [(addLink_shape _ _ _ d).1, (addLink_shape _ _ _ d).1] at hdir
  rw [named_congr (addLink_shape _ _ _), named_congr (addLink_shape _ _ _)] at hnamed
  rw [parentOf_congr (addLink_shape _ _ _), parentOf_congr (addLink_shape _ _ _)] at hpar
  have hdir : (s.inode d).type = .dir := by
    by_cases hd : d = dp
    · rw [hd, hdp]
    · simpa [Fs.setEnts, hd] using hdir
  have hpar : parentOf s.inode d = e.inum := by
    by_cases hd : d = dp
    · subst hd
      obtain ⟨k, rfl⟩ := Nat.exists_eq_add_of_le' hslot
      rw [(ht.ents_eq hdp).1, List.set_cons_succ, List.set_cons_succ, parentOf_setEnts] at hpar
      exact hpar
    · simpa [parentOf, Fs.setEnts, hd] using hpar
  have hnamed : named (cleared s.inode dp slot) d = 0 := hnamed
  rw [ht.named_cleared hslot he (ht.ne_zero_of_dir hdir) hde] at hnamed
  exact ⟨d, ⟨hdir, hroot, hnamed⟩, hde, hpar⟩

theorem Upward.unlinked (h : Upward s.inode) (g : Good s)
    (hat : UnlinkAt s p path dp slot i) (hk : KeepsParents s (.unlink p path)) :
    Upward (s.unlinked dp slot i).inode := by
  obtain ⟨hcut, hspare⟩ := g.sound.cutEntry hat
  have hkeep := hk dp slot i hat
  obtain ⟨hslot, e, he, hmem, rfl, h0⟩ := hat.entry g.tree
  have hd := g.tree.dir_of_mem (List.mem_of_mem_drop hmem)
  have hne := g.tree.ne_self hmem
  have hsame := cutEntry_inode_of_ne s dp slot hne
  -- the directory stays: either it keeps its links, or somebody uses it
  have hstays : ¬ (s.cutEntry dp slot e.inum).dies {e.inum} dp := by
    rintro ⟨-, hn, husers⟩
    have husers : s.users dp = 0 := by
      have : s.users dp + _ = 0 := husers
      omega
    have hn : (s.inode dp).nlink + (if (s.inode e.inum).type = .dir then -1 else 0) = 0 := by
      simpa [Fs.cutEntry, Fs.addLink, Fs.setEnts] using hn
    split_ifs at hn with hdir
    · exact (hkeep hdir).2 ⟨by omega, husers⟩
    · exact g.held.not_dies dp ⟨by rw [hd]; rintro ⟨⟩, by omega, by simpa using husers⟩
  rw [Fs.unlinked, Fs.release_of_not hstays]
  have h1 := (h.cutEntry g.tree hd hslot e.inum).addLink e.inum (-1)
  refine h1.release (hcut.addLink ?_).tree ?_
  · rw [hsame]
    omega
  rintro ⟨-, -, husers⟩ hpar
  have husers : s.users e.inum = 0 := by
    have : s.users e.inum + _ = 0 := husers
    omega
  by_cases hdir : (s.inode e.inum).type = .dir
  · exact (hkeep hdir).1 husers (Parented.of_cut g.tree hslot he hpar)
  -- only a directory is named by a `..`
  · obtain ⟨d, ⟨hdd, -, -⟩, -, hpard⟩ := hpar
    have := h1 d hdd
    rw [hpard, (addLink_shape _ _ _ _).1, hsame] at this
    exact hdir this

theorem Upward.moved (h : Upward s.inode) (ht : Tree s.inode) (hp : s.live p = true)
    (hk : KeepsParents s (.chdir p path)) (i : ℕ) :
    Upward (s.moved p i).inode := by
  refine Upward.release (s := s.setCwd p i) h ht ?_
  rintro ⟨htype, hn, husers⟩
  refine hk ?_ htype hn
  have husers : (s.withProcs s.live (update s.cwd p i)).users (s.cwd p) + 0 = 0 := husers
  have := Fs.users_chdir hp i (s.cwd p)
  simp only [if_true] at this
  split_ifs at this with hi
  · have := Fs.users_cwd_pos (s := s.withProcs s.live (update s.cwd p i)) hp
    simp [Fs.withProcs, hi] at *
    omega
  · omega

theorem users_closeFd (s : Fs) (p : Pid) (fd : Fd) (f : Fid) (i : ℕ) :
    (s.closeFd p fd f).users i = (s.setFile f (s.ftable f).closed).users i := by
  obtain ⟨hft, -, hlive, hcwd⟩ := closeFile_frame s 0 f
  show (s.closeFile 0 f).users i = _
  rw [Fs.users, hft, hlive, hcwd]
  rfl

theorem users_closeFds_le (p : Pid) (fds : List Fd) (i : ℕ) :
    (s.closeFds p fds).users i ≤ s.users i := by
  induction fds generalizing s with
  | nil => exact le_rfl
  | cons fd fds ih =>
    rw [Fs.closeFds]
    split
    · exact ih
    rename_i f _
    refine ih.trans ?_
    have := s.users_setFile f (s.ftable f).closed i
    rw [users_closeFd]
    unfold File.closed at this ⊢
    grind

theorem users_ended (s : Fs) (p : Pid) (i : ℕ) :
    (s.ended p).users i = (s.withProcs (update s.live p false) (update s.cwd p 0)).users i := by
  unfold Fs.ended Fs.release
  split_ifs <;> rfl

theorem users_ended_le (s : Fs) (p : Pid) (i : ℕ) : (s.ended p).users i ≤ s.users i := by
  have := s.users_withProcs p false 0 i
  rw [users_ended]
  simp only [Bool.false_eq_true, false_and, if_false] at this
  omega

theorem Upward.closeFd (h : Upward s.inode) (ht : Tree s.inode) {fd : Fd} {f : Fid}
    (hpos : 0 < (s.ftable f).ref) (hk : ∀ i, (s.ftable f).ip = some i → s.users i = 1 →
      (s.closeFd p fd f).users i = 0 → Spared s.inode i) :
    Upward (s.closeFd p fd f).inode := by
  show Upward (s.closeFile 0 f).inode
  unfold Fs.closeFile
  split_ifs with hone
  · exact h
  split
  · exact h
  rename_i i hi
  refine Upward.release (s := s.setFile f ⟨0, none⟩) h ht ?_
  rintro ⟨htype, hn, husers⟩
  have := s.users_setFile f ⟨0, none⟩ i
  simp only [hpos, hi, and_self, if_true, lt_irrefl, false_and, if_false] at this
  simp only [Multiset.count_zero, add_zero] at husers
  refine hk i hi (by omega) ?_ htype hn
  rw [users_closeFd, File.closed, if_neg hone, husers]

theorem Parented.of_release (ht : Tree s.inode) {T : Multiset ℕ}
    (h : Parented (s.release T j).inode i) : Parented s.inode i := by
  unfold Fs.release at h
  split_ifs at h with hdies
  · obtain ⟨d, ⟨hdir, hroot, hnamed⟩, hdi, hpar⟩ := h
    have hdj : d ≠ j := by
      rintro rfl
      simp at hdir
    have hdir : (s.inode d).type = .dir := by simpa [hdj] using hdir
    refine ⟨d, ⟨hdir, hroot, ?_⟩, hdi, by simpa [parentOf, hdj] using hpar⟩
    obtain ⟨h0, hlt⟩ := ht.onDisk j hdies.1
    obtain ⟨-, hchild, -⟩ := ht.of_nlink_zero (Nat.pos_iff_ne_zero.1 h0) hdies.2.1
    -- what is freed had no directory in it
    have hnone : (entries s.inode j).countP (fun e => e.inum = d) = 0 := by
      refine List.countP_eq_zero.2 fun e he hed => ?_
      obtain rfl : e.inum = d := by simpa using hed
      exact List.countP_eq_zero.1 hchild e he (by simpa using hdir)
    have hnamed : named (update s.inode j ⟨.free, 0, []⟩) d = 0 := hnamed
    have : named (update s.inode j ⟨.free, 0, []⟩) d + _ = named s.inode d + _ := named_update hlt d
    rw [hnone, hnamed, List.drop_nil, List.countP_nil] at this
    omega
  · exact h

theorem Spared.release (h : Spared s.inode i) (ht : Tree s.inode) (T : Multiset ℕ) (j : ℕ) :
    Spared (s.release T j).inode i := by
  by_cases hij : i = j
  · subst hij
    unfold Fs.release
    split_ifs
    · intro htype
      simp at htype
    · exact h
  · intro htype hn hpar
    rw [release_inode_of_ne s T hij] at htype hn
    exact h htype hn (hpar.of_release ht)

theorem Spared.closeFd (h : Spared s.inode i) (ht : Tree s.inode) (fd : Fd) (f : Fid) :
    Spared (s.closeFd p fd f).inode i := by
  show Spared (s.closeFile 0 f).inode i
  unfold Fs.closeFile
  split_ifs
  · exact h
  · split
    · exact h
    · exact Spared.release (s := s.setFile f ⟨0, none⟩) h ht 0 _

theorem Uses.of_closeFd {fd : Fd} {f : Fid} (h : Uses (s.closeFd p fd f) p i) : Uses s p i := by
  obtain ⟨hft, -, -, hcwd⟩ := closeFile_frame s 0 f
  rcases h with h | ⟨fd', f', ho, hi⟩
  · exact .inl (by rw [← h, ← hcwd]; rfl)
  refine .inr ⟨fd', f', ?_, ?_⟩
  · rw [closeFd_ofile] at ho
    split_ifs at ho
    exact ho
  have hi : ((s.closeFile 0 f).ftable f').ip = some i := hi
  rw [hft] at hi
  by_cases hff : f' = f
  · subst hff
    rw [update_self, File.closed] at hi
    split_ifs at hi
    exact hi
  · simpa [hff] using hi

theorem Upward.closeFds (h : Upward s.inode) (hs : Sound s) (hf : Counted s) (fds : List Fd)
    (hk : ∀ i, Uses s p i → ((s.closeFds p fds).ended p).users i = 0 → Spared s.inode i) :
    Upward (s.closeFds p fds).inode ∧ (((s.closeFds p fds).ended p).users (s.cwd p) = 0 →
      Spared (s.closeFds p fds).inode (s.cwd p)) := by
  induction fds generalizing s with
  | nil => exact ⟨h, hk _ (.inl rfl)⟩
  | cons fd fds ih =>
    rw [Fs.closeFds] at hk ⊢
    split at hk
    · exact ih h hs hf hk
    rename_i f ho
    obtain ⟨-, -, -, hcwd⟩ := closeFile_frame s 0 f
    have h' : Upward (s.closeFd p fd f).inode := by
      refine h.closeFd hs.tree (hf.ref_pos ho) fun i hi _ h0 => hk i (.inr ⟨fd, f, ho, hi⟩) ?_
      exact Nat.le_zero.1 (((users_ended_le ..).trans (users_closeFds_le ..)).trans_eq h0)
    have := ih h' (hs.closeFd p fd f) (hf.closeFd ho)
      fun i hi h0 => (hk i hi.of_closeFd h0).closeFd hs.tree fd f
    rwa [show (s.closeFd p fd f).cwd = s.cwd from hcwd] at this

theorem Upward.ended (h : Upward s.inode) (ht : Tree s.inode)
    (hk : (s.ended p).users (s.cwd p) = 0 → Spared s.inode (s.cwd p)) :
    Upward (s.ended p).inode := by
  have h' : Upward (s.withProcs (update s.live p false) (update s.cwd p 0)).inode := h
  refine h'.release ht ?_
  rintro ⟨htype, hn, husers⟩
  exact hk ((users_ended ..).trans husers) htype hn

theorem dupFds_inode (s : Fs) (p child : Pid) (fds : List Fd) :
    (s.dupFds p child fds).inode = s.inode := by
  induction fds generalizing s with
  | nil => rfl
  | cons fd fds ih =>
    rw [Fs.dupFds]
    split
    · exact ih s
    · exact ih (s.dupFd child fd _)

theorem Upward.made (h : Upward s.inode) (ht : Tree s.inode) {type : IType}
    (hm : Made s p path type i u) : Upward u.inode := by
  cases hm with
  | found => exact h
  | new hat => exact h.created ht hat

theorem Upward.opens (h : Upward s.inode) (ht : Tree s.inode)
    (ho : Opens s p path i u) : Upward u.inode := by
  cases ho with
  | made hm => exact h.made ht hm
  | found => exact h

theorem Upward.effect (h : Upward s.inode) (g : Good s) (hk : KeepsParents s c)
    (hp : s.live c.proc = true) (he : Effect s c u) : Upward u.inode := by
  cases he with
  | same => exact h
  | mkdir hm => exact h.made g.tree hm
  | mknod hm => exact h.made g.tree hm
  | openFails ho => exact h.opens g.tree ho
  | openFile ho =>
    have := h.opens g.tree ho
    exact this
  | link hat => exact h.linked g.tree hat
  | unlink hat => exact h.unlinked g hat hk
  | chdir => exact h.moved g.tree hp hk _
  | dup => exact h
  | close ho => exact h.closeFd g.tree (g.files.ref_pos ho) fun i hi hone _ => hk _ i ho hi hone
  | fork =>
    show Upward (s.dupFds _ _ _).inode
    rw [dupFds_inode]
    exact h
  | @exit p =>
    obtain ⟨h', hcwd⟩ := h.closeFds g.sound g.files.toCounted (List.finRange 16) hk
    obtain ⟨-, hcwd'⟩ := closeFds_frame s p (List.finRange 16)
    refine h'.ended (g.sound.closeFds p _).tree ?_
    rw [hcwd']
    exact hcwd

/-! ## Runs -/

theorem Upward.step (h : Upward s.inode) (g : Good s) (hk : KeepsParents s c)
    (hstep : s.step c = some t) : Upward t.inode := by
  obtain ⟨hp, u, heff, ⟨cache, rfl, -⟩, -⟩ := g.effect hstep
  have hu : Upward u.inode := h.effect g hk hp heff
  exact hu

theorem image_upward (img : Image) : Upward img.boot.inode := by
  intro d hd
  obtain rfl := (image_type_dir img).1 hd
  rfl

/-- As long as no call gives up the parent of an unlinked directory, what processes can name has
allocated entries, and no lookup comes to an inode without a type. -/
theorem no_dangling (img : Image) {cs : List Call}
    (run : Run (given (ofFun Fs.step) KeepsParents) img.boot cs s) :
    NoDangling s ∧ ∀ c : Call, c.enabled s = true →
      c.stops s ≠ some (.panic "ilock: no type") := by
  obtain ⟨g, h⟩ : Good s ∧ Upward s.inode :=
    run.invariant (I := fun s => Good s ∧ Upward s.inode) ⟨boot_good img, image_upward img⟩
      fun _ _ _ ⟨g, h⟩ ⟨hk, hstep⟩ => ⟨g.step hstep, h.step g hk hstep⟩
  have hall := h.allAlloc g.tree
  refine ⟨fun d _ e he h0 => hall d e he h0, fun c he hstops => ?_⟩
  rcases g.stops he with ⟨hnone, -⟩ | ⟨j, hj, -⟩ | ⟨e, hsome, -, msg, rfl, hpanic⟩
  · simp [hnone] at hstops
  · simp [hj] at hstops
  · obtain rfl : msg = "ilock: no type" := by simpa [hsome] using hstops
    exact hpanic rfl hall

/-- The current directory of a process is removed. -/
def removeCwd : List Call :=
  [.mkdir initproc "/a".toList, .chdir initproc "/a".toList, .unlink initproc "/a".toList]

theorem no_dangling_removeCwd : NoDangling (noFiles.after removeCwd) := by
  have run : Run (given (ofFun Fs.step) KeepsParents) noFiles.boot removeCwd
      (noFiles.after removeCwd) := by
    refine .cons ⟨trivial, step_after [] (by decide +kernel)⟩
      (.cons ⟨?_, step_after _ (by decide +kernel)⟩
        (.cons ⟨?_, step_after _ (by decide +kernel)⟩ (.nil _)))
    · intro _ _ hn
      exact absurd hn (by decide +kernel)
    rintro dp slot i ⟨⟨name, hres, -, -, hscan⟩, -⟩ -
    let v := noFiles.after [.mkdir initproc "/a".toList, .chdir initproc "/a".toList]
    have hres' : resolve v (v.pinned 0) initproc "/a".toList true =
        .ok (some (1, "a".toList)) := by
      decide +kernel
    have hscan' : scan "a".toList (v.inode 1).ents = some (2, 2) := by decide +kernel
    have hres := hres'.symm.trans hres
    simp only [Except.ok.injEq, Option.some.injEq, Prod.mk.injEq] at hres
    obtain ⟨rfl, rfl⟩ := hres
    have hscan := hscan'.symm.trans hscan
    simp only [Option.some.injEq, Prod.mk.injEq] at hscan
    obtain ⟨rfl, rfl⟩ := hscan
    exact ⟨fun husers => absurd husers (by decide +kernel), by decide +kernel⟩
  exact (no_dangling noFiles run).1

/-- The removal of a directory somebody stands in, and then of its parent. -/
def removeAbove : List Call :=
  [.mkdir initproc "/a".toList, .mkdir initproc "/a/b".toList, .chdir initproc "/a/b".toList,
    .unlink initproc "../b".toList, .unlink initproc "/a".toList]

/-- The `..` of the current directory dangles, and the next lookup through it panics. -/
theorem dangling_dotdot :
    Run (ofFun Fs.step) noFiles.boot removeAbove (noFiles.after removeAbove) ∧
      ¬ NoDangling (noFiles.after removeAbove) ∧
      (Call.chdir initproc "..".toList).stops (noFiles.after removeAbove) =
        some (.panic "ilock: no type") := by
  refine ⟨run_after (by decide +kernel), fun h => ?_, by decide +kernel⟩
  have hlive : (noFiles.after removeAbove).live initproc = true := by decide +kernel
  have hcwd : (noFiles.after removeAbove).cwd initproc = 3 := by decide +kernel
  have := h 3 (hcwd ▸ .cwd hlive) ⟨2, dotdot⟩ (by decide +kernel) (by decide)
  exact this (by decide +kernel)

end Xv6.Names

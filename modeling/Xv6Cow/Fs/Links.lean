import Xv6Cow.Fs.Calls

/-!
# Link counts and locks over whole runs

From an image made by `mkfs`, every sequence of system calls keeps `Good`: the ledger balances, the
inodes form a `Tree`, and the file table counts the descriptors.  So what the tree names is never
freed, and the only call that can wait for its own lock is `link`.
-/

namespace Xv6.Names

open Function Prog Lts

/-! ## Effects of calls -/

/-- What a call that returns does, up to the inode cache. -/
inductive Effect (s : Fs) : Call → Fs → Prop
  | same (c : Call) : Effect s c s
  | mkdir {p : Pid} {path : List Char} {i : ℕ} {u : Fs} (h : Made s p path .dir i u) :
      Effect s (.mkdir p path) u
  | mknod {p : Pid} {path : List Char} {i : ℕ} {u : Fs} (h : Made s p path .dev i u) :
      Effect s (.mknod p path) u
  | openFails {p : Pid} {path : List Char} {omode i : ℕ} {u : Fs} (h : Opens s p path i u) :
      Effect s (.openFile p path omode) u
  | openFile {p : Pid} {path : List Char} {omode i : ℕ} {u : Fs} {f : Fid} {fd : Fd}
      (h : Opens s p path i u) (hf : Free s p f fd) :
      Effect s (.openFile p path omode) (u.opened p f fd i)
  | link {p : Pid} {old new : List Char} {i dp : ℕ} {name : Name}
      (h : LinkAt s p old new i dp name) : Effect s (.link p old new) (s.linked i dp name)
  | unlink {p : Pid} {path : List Char} {dp slot i : ℕ} (h : UnlinkAt s p path dp slot i) :
      Effect s (.unlink p path) (s.unlinked dp slot i)
  | chdir {p : Pid} {path : List Char} {i : ℕ} (h : (s.inode i).type = .dir) :
      Effect s (.chdir p path) (s.moved p i)
  | dup {p : Pid} {fd fd' : Fd} {f : Fid} (h : s.ofile p fd = some f)
      (h' : s.ofile p fd' = none) : Effect s (.dup p fd) (s.dupFd p fd' f)
  | close {p : Pid} {fd : Fd} {f : Fid} (h : s.ofile p fd = some f) :
      Effect s (.close p fd) (s.closeFd p fd f)
  | fork {p child : Pid} :
      Effect s (.fork p child) ((s.dupFds p child (List.finRange 16)).begun p child)
  | exit {p : Pid} : Effect s (.exit p) ((s.closeFds p (List.finRange 16)).ended p)

/-- The states between calls. -/
structure Good (s : Fs) : Prop where
  held : Held s 0 ∅
  tree : Tree s.inode
  files : FilesOk s
  /-- What was freed could not be reached from the root. -/
  past : ∀ x ∈ s.freed, ¬ RootReach x.2 x.1

/-- The call waits for a lock it holds. -/
def Waits (s : Fs) : Call → Prop
  | .link p old new => SelfLink s p old new
  | _ => False

variable {s t u : Fs} {p : Pid} {i j dp slot : ℕ} {c : Call}

/-- The outcome of a call. -/
def Outcome (s : Fs) (c : Call) : Prop :=
  wp c.run (fun _ t => ¬ Waits s c ∧ ∃ u, Effect s c u ∧ CacheOnly u 0 ∅ t ∧ FilesOk t)
    (fun e _ => Waits s c ∧ (∃ j, e = .waits j) ∨ ¬ Waits s c ∧ Panics s e) s

theorem FilesOk.congr (h : FilesOk s) (hft : t.ftable = s.ftable) (hof : t.ofile = s.ofile)
    (hlive : t.live = s.live) : FilesOk t := by
  refine ⟨⟨fun f => ?_, fun f => ?_⟩, fun q => ?_⟩
  · rw [Fs.descs, hft, hof]
    exact h.ref f
  · rw [hft]
    exact h.idle f
  · rw [hlive, hof]
    exact h.dead q

theorem FilesOk.opened (h : FilesOk s) {f : Fid} {fd : Fd} (hf : Free s p f fd)
    (hp : s.live p = true) : FilesOk (s.opened p f fd i) := by
  refine ⟨?_, fun q hq fd' => ?_⟩
  · have hadd := h.toCounted.addFd f hf.slot (some i)
    rwa [hf.file] at hadd
  have hqp : q ≠ p := by
    rintro rfl
    have : s.live q = false := hq
    rw [hp] at this
    cases this
  simpa [Fs.opened, Fs.setOfile, Fs.setFile, hqp] using h.dead q hq fd'

theorem Made.frame {path : List Char} {type : IType} (h : Made s p path type i u) :
    u.ftable = s.ftable ∧ u.ofile = s.ofile ∧ u.live = s.live := by
  cases h with
  | found => exact ⟨rfl, rfl, rfl⟩
  | new => exact ⟨rfl, rfl, rfl⟩

theorem CacheOnly.files {L : Finset ℕ} {T : Multiset ℕ} (h : CacheOnly u T L t) (hf : FilesOk u) :
    FilesOk t := by
  obtain ⟨c, rfl, -⟩ := h
  exact hf.congr rfl rfl rfl

theorem unlinked_frame (s : Fs) (dp slot i : ℕ) :
    (s.unlinked dp slot i).ftable = s.ftable ∧ (s.unlinked dp slot i).ofile = s.ofile ∧
      (s.unlinked dp slot i).live = s.live ∧ (s.unlinked dp slot i).cwd = s.cwd := by
  have hlink : ∀ (v : Fs) (n : ℤ), (v.addLink i n).ftable = v.ftable ∧
      (v.addLink i n).ofile = v.ofile ∧ (v.addLink i n).live = v.live ∧
      (v.addLink i n).cwd = v.cwd := fun _ _ => ⟨rfl, rfl, rfl, rfl⟩
  unfold Fs.unlinked
  rw [release_ftable, release_ofile, release_live, release_cwd]
  obtain ⟨ha, hb, hc, hd⟩ := hlink ((s.cutEntry dp slot i).release {i} dp) (-1)
  rw [ha, hb, hc, hd, release_ftable, release_ofile, release_live, release_cwd]
  exact ⟨rfl, rfl, rfl, rfl⟩

theorem same_outcome (g : Good s) (h : CacheOnly s 0 ∅ t) (c : Call) :
    ∃ u, Effect s c u ∧ CacheOnly u 0 ∅ t ∧ FilesOk t :=
  ⟨s, .same c, h, h.files g.files⟩

/-- Every call returns with one of its effects, panics, or waits for itself. -/
theorem call_rule (g : Good s) (he : c.enabled s = true) : Outcome s c := by
  have hp : s.live c.proc = true := (Bool.and_eq_true_iff.1 he).1
  have ⟨h, ht, hf, _⟩ := g
  have hfail : ∀ {e : Stop}, ¬ Waits s c → Panics s e →
      Waits s c ∧ (∃ j, e = .waits j) ∨ ¬ Waits s c ∧ Panics s e := fun hw he => .inr ⟨hw, he⟩
  unfold Outcome
  cases c with
  | openFile p path omode =>
    refine wp_mono (sysOpen_rule h ht hf hp path omode) ?_ (fun _ _ hE => hfail id hE)
    rintro r t (⟨-, ht⟩ | ⟨i, u, hopens, ⟨-, ht⟩ | ⟨f, fd, hfree, ht⟩⟩)
    · exact ⟨id, same_outcome g ht _⟩
    · obtain ⟨hft, hof, hlive, -⟩ := hopens.frame
      exact ⟨id, u, .openFails hopens, ht, ht.files (hf.congr hft hof hlive)⟩
    · obtain ⟨hft, hof, hlive, -⟩ := hopens.frame
      have hfree' : Free u p f fd := ⟨by rw [hft]; exact hfree.file, by rw [hof]; exact hfree.slot⟩
      refine ⟨id, _, .openFile hopens hfree, ht, ht.files ?_⟩
      exact (hf.congr hft hof hlive).opened hfree' (by rw [hlive]; exact hp)
  | mkdir p path =>
    refine wp_mono (sysCreate_rule h ht hp path (by nofun)) ?_ (fun _ _ hE => hfail id hE)
    rintro r t (⟨ht, -⟩ | ⟨i, u, hmade, ht⟩)
    · exact ⟨id, same_outcome g ht _⟩
    · obtain ⟨hft, hof, hlive⟩ := hmade.frame
      exact ⟨id, u, .mkdir hmade, ht, ht.files (hf.congr hft hof hlive)⟩
  | mknod p path =>
    refine wp_mono (sysCreate_rule h ht hp path (by nofun)) ?_ (fun _ _ hE => hfail id hE)
    rintro r t (⟨ht, -⟩ | ⟨i, u, hmade, ht⟩)
    · exact ⟨id, same_outcome g ht _⟩
    · obtain ⟨hft, hof, hlive⟩ := hmade.frame
      exact ⟨id, u, .mknod hmade, ht, ht.files (hf.congr hft hof hlive)⟩
  | link p old new =>
    refine wp_imp (sysLink_rule h ht hp old new) ?_
    rintro r t ⟨hw, ⟨ht, -⟩ | ⟨i, dp, name, hat, ht⟩⟩
    · exact ⟨hw, same_outcome g ht _⟩
    · exact ⟨hw, _, .link hat, ht, ht.files (hf.congr rfl rfl rfl)⟩
  | unlink p path =>
    refine wp_mono (sysUnlink_rule h ht hp path) ?_ (fun _ _ hE => hfail id hE)
    rintro r t (⟨ht, -⟩ | ⟨dp, slot, i, hat, ht⟩)
    · exact ⟨id, same_outcome g ht _⟩
    · obtain ⟨hft, hof, hlive, -⟩ := unlinked_frame s dp slot i
      exact ⟨id, _, .unlink hat, ht, ht.files (hf.congr hft hof hlive)⟩
  | chdir p path =>
    refine wp_mono (sysChdir_rule h ht hp path) ?_ (fun _ _ hE => hfail id hE)
    rintro r t (⟨-, ht⟩ | ⟨i, hdir, ht⟩)
    · exact ⟨id, same_outcome g ht _⟩
    refine ⟨id, _, .chdir hdir, ht, ht.files (hf.congr ?_ ?_ ?_)⟩
    · exact release_ftable _ _ _
    · exact release_ofile _ _ _
    · exact release_live _ _ _
  | exec p path =>
    refine wp_mono (exec_rule h ht hp path) ?_ (fun _ _ hE => hfail id hE)
    intro r t ht
    exact ⟨id, same_outcome g ht _⟩
  | dup p fd =>
    refine wp_call (sysDup_rule h hf fd) ?_
    rintro r t (⟨-, ht⟩ | ⟨f, fd', ho, hnone, ht⟩)
    · exact ⟨id, same_outcome g ht _⟩
    refine ⟨id, _, .dup ho hnone, ht, ht.files ⟨hf.toCounted.dupFd f hnone, fun q hq fd'' => ?_⟩⟩
    have hqp : q ≠ p := by
      rintro rfl
      exact absurd (hp.symm.trans hq) (by decide)
    simpa [Fs.dupFd, Fs.setOfile, Fs.setFile, hqp] using hf.dead q hq fd''
  | close p fd =>
    refine wp_call (sysClose_rule h hf fd) ?_
    rintro r t (⟨-, ht⟩ | ⟨f, ho, ht⟩)
    · exact ⟨id, same_outcome g ht _⟩
    · exact ⟨id, _, .close ho, ht, ht.files (hf.closeFd ho)⟩
  | fork p child =>
    have hchild : s.live child = false := by simpa using (Bool.and_eq_true_iff.1 he).2
    refine wp_call (fork_rule h hf hp hchild) ?_
    rintro r t ⟨ht, hft⟩
    exact ⟨id, _, .fork, ht, hft⟩
  | exit p =>
    refine wp_mono (exit_rule h hf hp) ?_ (fun _ _ hE => hfail id hE)
    rintro r t ⟨ht, hft⟩
    exact ⟨id, _, .exit, ht, hft⟩

/-! ## What the effects keep -/

/-- The inodes form a tree, and nothing reachable from the root has been freed. -/
structure Sound (s : Fs) : Prop where
  tree : Tree s.inode
  past : ∀ x ∈ s.freed, ¬ RootReach x.2 x.1

namespace Sound

theorem release (h : Sound s) (T : Multiset ℕ) (i : ℕ) : Sound (s.release T i) := by
  unfold Fs.release
  split_ifs with hd
  · obtain ⟨ht, hn, -⟩ := hd
    refine ⟨h.tree.free ht hn, ?_⟩
    intro x hx
    rcases List.mem_cons.1 hx with rfl | hx
    · intro hreach
      have := h.tree.nlink_pos_of_rootReach hreach
      simp only [hn, lt_irrefl] at this
    · exact h.past x hx
  · exact h

theorem needed_release_le (h : Sound s) (T : Multiset ℕ) (hne : i ≠ j) :
    needed (s.release T j).inode i ≤ needed s.inode i := by
  unfold Fs.release
  split_ifs with hd
  · exact needed_free_le (h.tree.onDisk j hd.1).2 hne
  · exact le_rfl

theorem addLink (h : Sound s) {n : ℤ} (hn : (needed s.inode i : ℤ) ≤ (s.inode i).nlink + n) :
    Sound (s.addLink i n) :=
  ⟨h.tree.setLinks hn, h.past⟩

theorem linked (h : Sound s) {old new : List Char} {name : Name}
    (hat : LinkAt s p old new i dp name) : Sound (s.linked i dp name) := by
  have hd : (s.inode dp).type = .dir := resolve_dir hat.target
  have hne : i ≠ dp := by
    rintro rfl
    exact hat.plain hd
  have hi := h.tree.onDisk i hat.alloc
  have hcount := h.tree.count i (Nat.pos_iff_ne_zero.1 hi.1)
  have h1 : Sound (s.addLink i 1) := h.addLink (by omega)
  have hshape := addLink_shape s i 1
  refine ⟨?_, h.past⟩
  have hd1 : ((s.addLink i 1).inode dp).type = .dir := by
    rw [(hshape dp).1, hd]
  have := h1.tree.addEntry (e := ⟨i, name.take dirsiz⟩) hd1 ?_ hne ?_ ?_
  · simpa [Fs.linked, Fs.setEnts, Fs.setInode, (hshape dp).1, (hshape dp).2] using this
  · rw [(hshape i).1]
    exact hat.alloc
  · rw [needed_congr hshape]
    simpa [Fs.addLink] using hcount
  · intro hdir
    rw [(hshape i).1] at hdir
    exact absurd hdir hat.plain

theorem drop_dotsOf (type : IType) (i dp : ℕ) : (Fs.dotsOf type i dp).drop 2 = [] := by
  unfold Fs.dotsOf
  split_ifs <;> rfl

variable {type : IType}

theorem newInode (h : Sound s) (hfree : (s.inode i).type = .free) (h0 : 0 < i) (hlt : i < ninodes)
    (hd : (s.inode dp).type = .dir) :
    Sound (s.setInode i ⟨type, 1, Fs.dotsOf type i dp⟩) ∧
      needed (s.setInode i ⟨type, 1, Fs.dotsOf type i dp⟩).inode i = 0 := by
  have ht := h.tree
  have hnamed := ht.named_of_free (Nat.pos_iff_ne_zero.1 h0) hfree
  have hroot : i ≠ rootino := by
    rintro rfl
    have := ht.root.1
    rw [hfree] at this
    cases this
  have hdp : dp ≠ 0 := ht.ne_zero_of_dir hd
  have hdlt : dp < ninodes := (ht.onDisk dp (by rw [hd]; nofun)).2
  refine ⟨⟨ht.replace hnamed h0 hlt hroot (drop_dotsOf type i dp) ?_ ?_ ?_ (by simp), h.past⟩, ?_⟩
  · intro hne
    simp [Fs.dotsOf, hne]
  · intro (hdir : type = .dir)
    exact ⟨dp, [], by simp [Fs.dotsOf, hdir], hdp⟩
  · intro e he
    by_cases hdir : type = .dir
    · simp only [Fs.dotsOf, hdir, if_true, List.mem_cons, List.not_mem_nil, or_false] at he
      rcases he with rfl | rfl
      · exact hlt
      · exact hdlt
    · simp [Fs.dotsOf, hdir] at he
  · have hup : named (s.setInode i ⟨type, 1, Fs.dotsOf type i dp⟩).inode i + _ =
        named s.inode i + _ := named_update hlt i
    rw [drop_dotsOf, List.countP_nil] at hup
    have hchild : childDirs (s.setInode i ⟨type, 1, Fs.dotsOf type i dp⟩).inode i = 0 := by
      simp [childDirs, entries, drop_dotsOf]
    simp only [needed, hchild, hroot, if_false]
    omega

variable {path : List Char}

section

variable (h : Sound s)

include h

theorem created {name : Name} (hty : type ≠ .free)
    (hat : NewAt s p path dp name i) : Sound (s.created dp name type i) := by
  have hd : (s.inode dp).type = .dir := resolve_dir hat.resolved
  have hne : i ≠ dp := by
    rintro rfl
    rw [hat.free] at hd
    cases hd
  obtain ⟨h1, hneed⟩ := h.newInode hat.free hat.pos hat.lt hd
  set v := s.setInode i ⟨type, 1, Fs.dotsOf type i dp⟩ with hv
  have hvi : v.inode i = ⟨type, 1, Fs.dotsOf type i dp⟩ := by simp [hv]
  have hvdp : v.inode dp = s.inode dp := by simp [hv, hne.symm]
  have hcount := h1.tree.count dp (h.tree.ne_zero_of_dir hd)
  have h2 : Sound (v.addLink dp (if type = .dir then 1 else 0)) := by
    refine h1.addLink ?_
    split_ifs <;> omega
  have hshape := addLink_shape v dp (if type = .dir then 1 else 0)
  have hw : (v.addLink dp (if type = .dir then 1 else 0)).inode i = v.inode i := by
    simp [Fs.addLink, hne]
  refine ⟨?_, h.past⟩
  have hd2 : ((v.addLink dp (if type = .dir then 1 else 0)).inode dp).type = .dir := by
    rw [(hshape dp).1, hvdp, hd]
  have := h2.tree.addEntry (e := ⟨i, name.take dirsiz⟩) hd2 ?_ hne ?_ ?_
  · rw [(hshape dp).2, hvdp] at this
    exact this
  · rw [(hshape i).1, hvi]
    exact hty
  · rw [needed_congr hshape, hneed, hw, hvi]
    simp
  intro hdir
  rw [(hshape i).1, hvi] at hdir
  simp only at hdir
  refine ⟨?_, ?_, ?_, ?_⟩
  · rw [parentOf_congr hshape]
    simp [parentOf, hvi, Fs.dotsOf, hdir]
  · rintro rfl
    have := h.tree.root.1
    rw [hat.free] at this
    cases this
  · have : needed (v.addLink dp (if type = .dir then 1 else 0)).inode i = 0 := by
      rw [needed_congr hshape, hneed]
    unfold needed at this
    show named _ i = 0
    omega
  · rw [needed_congr hshape]
    simp only [hdir, if_true, Fs.addLink, Fs.setInode_inode_self]
    omega

theorem cutEntry (hat : UnlinkAt s p path dp slot i) : Sound (s.cutEntry dp slot i) ∧
      (needed (s.cutEntry dp slot i).inode i : ℤ) + 1 ≤ (s.inode i).nlink := by
  obtain ⟨hslot, e, he, hmem, rfl, h0⟩ := hat.entry h.tree
  obtain ⟨htree, hspare, hdir⟩ := h.tree.clear hslot he h0
  have h1 : Sound (s.setEnts dp ((s.inode dp).ents.set slot ⟨0, []⟩)) := ⟨htree, h.past⟩
  set v := s.setEnts dp ((s.inode dp).ents.set slot ⟨0, []⟩) with hv
  have hvc : v.inode = cleared s.inode dp slot := rfl
  have hvdp : (v.inode dp).nlink = (s.inode dp).nlink := by simp [hv, Fs.setEnts]
  constructor
  -- the link of `..` is given back
  · refine h1.addLink ?_
    rw [hvdp, hvc]
    have hcount := htree.count dp
      (h.tree.ne_zero_of_dir (h.tree.dir_of_mem (List.mem_of_mem_drop hmem)))
    have hnl : (cleared s.inode dp slot dp).nlink = (s.inode dp).nlink := hvdp
    split_ifs with hd
    · have := hdir hd
      omega
    · omega
  · have hshape := addLink_shape v dp (if (s.inode e.inum).type = .dir then -1 else 0)
    have : needed (s.cutEntry dp slot e.inum).inode e.inum = needed v.inode e.inum :=
      needed_congr hshape _
    rw [this]
    exact hspare

theorem unlinked (hat : UnlinkAt s p path dp slot i) : Sound (s.unlinked dp slot i) := by
  obtain ⟨h2, hspare⟩ := h.cutEntry hat
  obtain ⟨-, e, -, hmem, rfl, -⟩ := hat.entry h.tree
  have hne := h.tree.ne_self hmem
  -- freeing the directory leaves the inode its spare link, which is dropped now
  have h3 : Sound ((s.cutEntry dp slot e.inum).release {e.inum} dp) := h2.release _ _
  refine Sound.release (h3.addLink ?_) 0 e.inum
  have hle := h2.needed_release_le {e.inum} hne
  rw [release_inode_of_ne _ _ hne, cutEntry_inode_of_ne s dp slot hne]
  omega

theorem of_eq (hino : t.inode = s.inode) (hfreed : t.freed = s.freed) : Sound t :=
  ⟨hino ▸ h.tree, hfreed ▸ h.past⟩

theorem closeFd (p : Pid) (fd : Fd) (f : Fid) : Sound (s.closeFd p fd f) := by
  refine of_eq (s := s.closeFile 0 f) ?_ rfl rfl
  unfold Fs.closeFile
  split_ifs
  · exact h.of_eq rfl rfl
  · split
    · exact h.of_eq rfl rfl
    · exact release (s := s.setFile f ⟨0, none⟩) (h.of_eq rfl rfl) _ _

theorem closeFds (p : Pid) (fds : List Fd) : Sound (s.closeFds p fds) := by
  induction fds generalizing s with
  | nil => exact h
  | cons fd fds ih =>
    rw [Fs.closeFds]
    split
    · exact ih h
    · exact ih (h.closeFd p fd _)

theorem moved (p : Pid) (i : ℕ) : Sound (s.moved p i) :=
  release (s := s.setCwd p i) (h.of_eq rfl rfl) 0 (s.cwd p)

theorem withProcs (live : Pid → Bool) (cwd : Pid → ℕ) :
    Sound (s.withProcs live cwd) := h.of_eq rfl rfl

theorem ended (p : Pid) : Sound (s.ended p) := (h.withProcs _ _).release 0 (s.cwd p)

theorem dupFds (p child : Pid) (fds : List Fd) : Sound (s.dupFds p child fds) := by
  induction fds generalizing s with
  | nil => exact h
  | cons fd fds ih =>
    rw [Fs.dupFds]
    split
    · exact ih h
    · exact ih (h.of_eq rfl rfl)

theorem made (hty : type ≠ .free) (hm : Made s p path type i u) : Sound u := by
  cases hm with
  | found => exact h
  | new hat => exact h.created hty hat

theorem opens (ho : Opens s p path i u) : Sound u := by
  cases ho with
  | found => exact h
  | made hm => exact h.made (by nofun) hm

theorem effect (he : Effect s c u) : Sound u := by
  cases he with
  | same => exact h
  | mkdir hm => exact h.made (by nofun) hm
  | mknod hm => exact h.made (by nofun) hm
  | openFails ho => exact h.opens ho
  | openFile ho => exact (h.opens ho).of_eq rfl rfl
  | link hat => exact h.linked hat
  | unlink hat => exact h.unlinked hat
  | chdir => exact h.moved _ _
  | dup => exact h.of_eq rfl rfl
  | close => exact h.closeFd _ _ _
  | fork => exact (h.dupFds _ _ _).of_eq rfl rfl
  | exit => exact (h.closeFds _ _).ended _

end

end Sound

/-! ## Runs -/

theorem Good.sound (g : Good s) : Sound s := ⟨g.tree, g.past⟩

/-- A call that returns has had one of the effects, and changed only the cache besides. -/
theorem Good.effect (g : Good s) (h : s.step c = some t) :
    s.live c.proc = true ∧ ∃ u, Effect s c u ∧ CacheOnly u 0 ∅ t ∧ FilesOk t := by
  unfold Fs.step at h
  split_ifs at h with he
  have hrule := call_rule g he
  unfold Outcome wp at hrule
  split at h
  · rename_i r t' hrun
    obtain rfl : t' = t := by simpa using h
    rw [hrun] at hrule
    exact ⟨(Bool.and_eq_true_iff.1 he).1, hrule.2⟩
  · cases h

theorem Good.stops (g : Good s) (he : c.enabled s = true) :
    (c.stops s = none ∧ ¬ Waits s c) ∨ (∃ j, c.stops s = some (.waits j) ∧ Waits s c) ∨
      ∃ e, c.stops s = some e ∧ ¬ Waits s c ∧ Panics s e := by
  have hrule := call_rule g he
  unfold Outcome wp at hrule
  unfold Call.stops
  cases hrun : c.run s with
  | ok r t =>
    rw [hrun] at hrule
    exact .inl ⟨rfl, hrule.1⟩
  | error e t =>
    rw [hrun] at hrule
    rcases hrule with ⟨hw, j, rfl⟩ | ⟨hw, hpanics⟩
    · exact .inr (.inl ⟨j, rfl, hw⟩)
    · exact .inr (.inr ⟨e, rfl, hw, hpanics⟩)

theorem Good.step (g : Good s) (h : s.step c = some t) : Good t := by
  obtain ⟨-, u, heff, ⟨cache, rfl, hheld⟩, hfiles⟩ := g.effect h
  have hu := g.sound.effect heff
  exact ⟨hheld, hu.tree, hfiles, hu.past⟩

section Boot

variable (img : Image)

theorem countP_mapIdx (names : List Name) (b i : ℕ) :
    (names.mapIdx fun k name => (⟨k + b, name.take dirsiz⟩ : Dirent)).countP (fun e => e.inum = i) =
      if b ≤ i ∧ i < b + names.length then 1 else 0 := by
  induction names generalizing b with
  | nil => simp
  | cons name names ih =>
    have hshift : (fun k (n : Name) => (⟨k + 1 + b, n.take dirsiz⟩ : Dirent)) =
        fun k n => ⟨k + (b + 1), n.take dirsiz⟩ := by
      funext k n
      rw [Nat.add_right_comm, Nat.add_assoc]
    rw [List.mapIdx_cons, List.countP_cons, hshift, ih]
    simp only [List.length_cons, zero_add, decide_eq_true_eq]
    split_ifs <;> omega

theorem image_entries {d : ℕ} (hd : d ≠ rootino) : entries img.inode d = [] := by
  unfold entries Image.inode
  rw [if_neg hd]
  split_ifs <;> rfl

theorem image_root_mem {e : Dirent} (he : e ∈ entries img.inode rootino) :
    e.inum = 0 ∨ 2 ≤ e.inum ∧ e.inum < img.names.length + 2 := by
  have he : e ∈ img.rootEnts.drop 2 := he
  simp only [Image.rootEnts, List.cons_append, List.drop_succ_cons, List.drop_zero,
    List.mem_append, List.mem_mapIdx, List.mem_replicate] at he
  rcases he with ⟨k, hk, rfl⟩ | ⟨-, rfl⟩
  · exact .inr ⟨by simp, by simpa using hk⟩
  · exact .inl rfl

theorem image_named {i : ℕ} (hi : i ≠ 0) :
    named img.inode i = if 2 ≤ i ∧ i < img.names.length + 2 then 1 else 0 := by
  unfold named
  rw [Finset.sum_eq_single rootino]
  · have hents : entries img.inode rootino = img.rootEnts.drop 2 := rfl
    rw [hents]
    simp only [Image.rootEnts, List.cons_append, List.drop_succ_cons, List.drop_zero,
      List.countP_append, countP_mapIdx, List.countP_replicate, decide_eq_true_eq, hi.symm, if_false,
      add_zero, Nat.add_comm 2]
  · intro d _ hd
    rw [image_entries img hd, List.countP_nil]
  · intro h
    exact absurd (Finset.mem_range.2 (by decide)) h

theorem image_type_dir {i : ℕ} : (img.inode i).type = .dir ↔ i = rootino := by
  unfold Image.inode
  split_ifs <;> simp_all

theorem image_childDirs (i : ℕ) : childDirs img.inode i = 0 := by
  unfold childDirs
  by_cases hi : i = rootino
  · subst hi
    rw [List.countP_eq_zero]
    intro e he
    rw [decide_eq_true_eq, image_type_dir]
    have := image_root_mem img he
    unfold rootino
    omega
  · rw [image_entries img hi, List.countP_nil]

theorem image_tree : Tree img.inode where
  plain i hi := by
    rw [Ne, image_type_dir] at hi
    unfold Image.inode
    rw [if_neg hi]
    split_ifs <;> rfl
  dots d hd := by
    obtain rfl := (image_type_dir img).1 hd
    exact ⟨rootino, _, rfl, by decide⟩
  inRange d e he := by
    have hfits := img.fits
    by_cases hd : d = rootino
    · subst hd
      have he : e ∈ img.rootEnts := he
      rcases List.mem_cons.1 he with rfl | he
      · decide
      rcases List.mem_cons.1 he with rfl | he
      · decide
      · have := image_root_mem img he
        unfold ninodes at *
        omega
    · unfold Image.inode at he
      rw [if_neg hd] at he
      split_ifs at he <;> simp at he
  onDisk i hi := by
    have hfits := img.fits
    unfold Image.inode at hi
    split_ifs at hi with h₁ h2
    · subst h₁
      decide
    · omega
    · exact absurd rfl hi
  alloc d e he h0 := by
    obtain rfl : d = rootino := by
      by_contra hd
      simp [image_entries img hd] at he
    have := (image_root_mem img he).resolve_left h0
    unfold Image.inode
    simp only [this, and_self, if_true]
    split_ifs <;> nofun
  parent d e he hdir := by
    obtain rfl : d = rootino := by
      by_contra hd
      simp [image_entries img hd] at he
    have h1 := (image_type_dir img).1 hdir
    have := image_root_mem img he
    unfold rootino at h1
    omega
  once d hd := by
    obtain rfl := (image_type_dir img).1 hd
    rw [image_named img (by decide)]
    split_ifs <;> omega
  count i hi := by
    rw [needed, image_named img hi, image_childDirs]
    unfold Image.inode
    by_cases hroot : i = rootino
    · subst hroot
      simp [rootino]
    · simp only [hroot, if_false]
      split_ifs <;> simp
  root := ⟨rfl, rfl⟩

theorem boot_users (i : ℕ) : img.boot.users i = if i = rootino then 1 else 0 := by
  have hfiles : fileUsers img.boot.ftable i = 0 := by simp [fileUsers, Image.boot]
  have hcwd : cwdUsers img.boot.live img.boot.cwd i = if i = rootino then 1 else 0 := by
    have hswap := Refs.card_filter_swap
      (P := fun p => img.boot.live p = true ∧ img.boot.cwd p = i) (Q := fun _ => False) initproc ?_
    · simpa [cwdUsers, Image.boot, eq_comm] using hswap
    · intro p hp
      simp [Image.boot, hp]
  rw [Fs.users, hfiles, hcwd, zero_add]

theorem boot_good : Good img.boot where
  held := by
    have hcache : ∀ i, img.boot.icache i = ⟨if i = rootino then 1 else 0, false, false⟩ := by
      intro i
      by_cases hi : i = rootino
      · simp [Image.boot, hi]
      · simp [Image.boot, hi]
    have hpos : ∀ i, 0 < img.boot.users i → i = rootino := by
      intro i hi
      rw [boot_users] at hi
      by_contra hne
      simp [hne] at hi
    refine ⟨fun i => ?_, fun i => ?_, nofun, nofun, fun i hi => ?_, fun i _ hv => ?_, fun i ht hn => ?_,
      fun i hi => ?_⟩
    · rw [hcache, boot_users, Multiset.count_zero, add_zero]
    · simp [hcache]
    · have hi' : i = rootino := by
        by_contra hne
        simp [hcache, hne] at hi
      subst hi'
      decide
    · simp [hcache] at hv
    · have ht : (img.inode i).type ≠ .free := ht
      have hn : (img.inode i).nlink = 0 := hn
      unfold Image.inode at ht hn
      split_ifs at ht hn
      · simp at hn
      · simp at hn
      · exact absurd rfl ht
    · rw [hpos i hi]
      nofun
  tree := image_tree img
  files := by
    refine ⟨⟨fun f => ?_, fun _ _ => rfl⟩, fun _ _ _ => rfl⟩
    simp [Fs.descs, fileDescs, Image.boot]
  past := nofun

end Boot

theorem run_good (img : Image) {cs : List Call} (run : Run (ofFun Fs.step) img.boot cs s) :
    Good s :=
  run.invariant (boot_good img) fun _ _ _ g h => g.step h

theorem run_after {img : Image} {cs : List Call} (h : (cs.foldlM Fs.step img.boot).isSome = true) :
    Run (ofFun Fs.step) img.boot cs (img.after cs) := by
  obtain ⟨t, ht⟩ := Option.isSome_iff_exists.1 h
  have : img.after cs = t := by simp [Image.after, ht]
  rw [this]
  exact Run.of_foldlM ht

theorem step_after {img : Image} (cs : List Call)
    (h : ((cs ++ [c]).foldlM Fs.step img.boot).isSome = true) :
    ofFun Fs.step (img.after cs) c (img.after (cs ++ [c])) := by
  obtain ⟨t, ht⟩ := Option.isSome_iff_exists.1 h
  have hafter : img.after (cs ++ [c]) = t := by simp [Image.after, ht]
  rw [List.foldlM_append] at ht
  obtain ⟨u, hu, hstep⟩ := Option.bind_eq_some_iff.1 ht
  have hbefore : img.after cs = u := by simp [Image.after, hu]
  rw [hafter, hbefore]
  simpa [ofFun] using hstep

/-- Link counts cover the tree: what it names is allocated, and was never freed while named. -/
theorem nlink_covers_tree (img : Image) {cs : List Call}
    (run : Run (ofFun Fs.step) img.boot cs s) :
    (∀ i, i ≠ 0 → (treeLinks s.inode i : ℤ) ≤ (s.inode i).nlink) ∧
      (∀ d, RootReach s.inode d → ∀ e ∈ (s.inode d).ents, e.inum ≠ 0 →
        (s.inode e.inum).type ≠ .free) ∧
      ∀ x ∈ s.freed, ¬ RootReach x.2 x.1 := by
  have g := run_good img run
  refine ⟨fun i hi => ?_, fun d hd e he h0 => g.tree.alloc_of_rootReach hd he h0, g.past⟩
  have hle := g.tree.treeLinks_le i
  have hcount := g.tree.count i hi
  omega

/-- An image without files. -/
def noFiles : Image := ⟨[], by decide⟩

/-- A process works in a directory it has removed. -/
def removedCwd : List Call :=
  [.mkdir initproc "/a".toList, .chdir initproc "/a".toList, .unlink initproc "/a".toList,
    .openFile initproc "/f".toList oCreate, .unlink initproc "../f".toList,
    .chdir initproc "/".toList]

theorem nlink_covers_removedCwd :
    (removedCwd.foldlM Fs.step noFiles.boot).isSome = true ∧
      (noFiles.after removedCwd).freed.map Prod.fst = [2] ∧
      ∀ x ∈ (noFiles.after removedCwd).freed, ¬ RootReach x.2 x.1 :=
  have h : (removedCwd.foldlM Fs.step noFiles.boot).isSome = true := by decide +kernel
  ⟨h, by decide +kernel, (nlink_covers_tree noFiles (run_after h)).2.2⟩

/-- A directory has at most one name besides `.` and `..`, in the directory that its `..` names; the
root directory has none. -/
theorem directory_names (img : Image) {cs : List Call} (run : Run (ofFun Fs.step) img.boot cs s) {d : ℕ}
    (hd : (s.inode d).type = .dir) :
    (∃ p es, (s.inode d).ents = ⟨d, dot⟩ :: ⟨p, dotdot⟩ :: es) ∧ named s.inode d ≤ 1 ∧
      ∀ e ∈ entries s.inode d, (s.inode e.inum).type = .dir →
        parentOf s.inode e.inum = d ∧ e.inum ≠ rootino ∧ e.inum ≠ d := by
  have g := (run_good img run).tree
  obtain ⟨p, es, hents, -⟩ := g.dots d hd
  exact ⟨⟨p, es, hents⟩, g.once d hd, g.parent d⟩

/-- A directory in another one. -/
def nested : List Call := [.mkdir initproc "/a".toList, .mkdir initproc "/a/b".toList]

theorem directory_names_nested : named (noFiles.after nested).inode 2 ≤ 1 ∧
    ⟨3, "b".toList⟩ ∈ entries (noFiles.after nested).inode 2 ∧ parentOf (noFiles.after nested).inode 3 = 2 := by
  have run := run_after (show (nested.foldlM Fs.step noFiles.boot).isSome = true by decide +kernel)
  have hmem : ⟨3, "b".toList⟩ ∈ entries (noFiles.after nested).inode 2 := by decide +kernel
  obtain ⟨-, honce, hsub⟩ := directory_names noFiles run (d := 2) (by decide +kernel)
  exact ⟨honce, hmem, (hsub _ hmem (by decide +kernel)).1⟩

/-- A call waits for a lock it holds just when it links a file under a name of the directory the
name is looked up in. -/
theorem waits_iff (img : Image) {cs : List Call} (run : Run (ofFun Fs.step) img.boot cs s)
    (c : Call) (he : c.enabled s = true) : (∃ j, c.stops s = some (.waits j)) ↔ Waits s c := by
  rcases (run_good img run).stops he with ⟨hnone, hw⟩ | ⟨j, hj, hw⟩ | ⟨e, hsome, hw, msg, rfl, -⟩
  · simp [hnone, hw]
  · simp [hj, hw]
  · simp [hsome, hw]

/-- An image with one file, `f`. -/
def oneFile : Image := ⟨["f".toList], by decide⟩

/-- `ln f g` waits for no lock. -/
theorem waits_iff_link_g :
    (¬ ∃ j, (Call.link initproc "f".toList "g".toList).stops oneFile.boot = some (.waits j)) ∧
      ¬ Waits oneFile.boot (.link initproc "f".toList "g".toList) := by
  have hstops : (Call.link initproc "f".toList "g".toList).stops oneFile.boot = none := by
    decide +kernel
  have hno : ¬ ∃ j, (Call.link initproc "f".toList "g".toList).stops oneFile.boot =
      some (.waits j) := by
    rintro ⟨j, hj⟩
    rw [hstops] at hj
    cases hj
  exact ⟨hno, fun hw => hno ((waits_iff oneFile (.nil _) _ (by decide)).2 hw)⟩

/-- `ln f .` holds the lock of the root directory when `dirlink` looks up `.` there, finds the root
directory, and gives the reference back: `iput` asks for the lock. -/
theorem link_waits_for_itself :
    Run (ofFun Fs.step) oneFile.boot [] oneFile.boot ∧
      (Call.link initproc "f".toList ".".toList).enabled oneFile.boot = true ∧
      (Call.link initproc "f".toList ".".toList).stops oneFile.boot = some (.waits rootino) :=
  ⟨.nil _, by decide, by decide +kernel⟩

end Xv6.Names

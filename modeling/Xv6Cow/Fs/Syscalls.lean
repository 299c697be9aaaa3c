import Xv6Cow.Fs.FileTable

/-!
# The books balance at every system call

Each system call starts and ends with nothing in hand: no lock, no reference of its own, no operation
outstanding.  So the counts of inodes, files and pipes are right between calls, over every run.
-/

namespace Xv6.Blocks

open Function Bytes Lts Prog Refs
open Names (Name Dirent namecmp dot dotdot oCreate)

variable {good : Prop} {K : Volume → Led → Prop} {sb : Superblock} {c : Ctx} {s t : Fs} {ip dp : Iptr}
  {f : Fid} {p : Pid} {fd : Fd} {ty : Int16} {F : Multiset Fid}

/-- The state between calls. -/
def Rests (good : Prop) (K : Volume → Led → Prop) (sb : Superblock) (s : Fs) : Prop :=
  At good K sb (Ctx.idle s) s

abbrev Idle (good : Prop) (sb : Superblock) (s : Fs) : Prop := Rests good Any sb s

/-- The books of a call on paths, which holds references to inodes and locks. -/
def Ctx.hand (c : Ctx) (n : ℕ) (T : Multiset Iptr) (L : List (Iptr × Int16)) : Ctx :=
  ⟨n, L, T, 0, 0, none, none, c.live, c.cwd, c.ofile⟩

/-- The books of a call that has the current directory of a process in hand. -/
def Ctx.moving (c : Ctx) (p : Pid) (n : ℕ) (T : Multiset Iptr) : Ctx :=
  ⟨n, [], T, 0, 0, none, some p, c.live, c.cwd, c.ofile⟩

theorem At.rests (h : At good K sb (c.hand 0 0 []) t) : Rests good K sb t := by
  have hc : Ctx.idle t = c.hand 0 0 [] := by
    unfold Ctx.idle Ctx.hand
    rw [← show t.live = c.live from h.ledger.procs.1, ← show t.cwd = c.cwd from h.ledger.procs.2.1,
      ← show t.ofile = c.ofile from h.ledger.procs.2.2]
  rw [Rests, hc]
  exact h

theorem At.idle (h : At good K sb (c.hand 0 0 []) t) : Idle good sb t := h.rests.now

/-- What a call leaves.  If it fails, what was known is still known, and the processes have what they
had. -/
def Done (good : Prop) (K : Volume → Led → Prop) (sb : Superblock) (s : Fs) (r : Option ℕ)
    (t : Fs) : Prop :=
  match r with
  | none => At good K sb (Ctx.idle s) t
  | some _ => Idle good sb t

theorem Done.idle {r : Option ℕ} (h : Done good K sb s r t) : Idle good sb t := by
  cases r with
  | none => exact At.idle (c := Ctx.idle s) h
  | some _ => exact h

/-! ## Calls on paths -/

section hand

variable {T : Multiset Iptr} {L : List (Iptr × Int16)}

theorem begin_at (h : Rests good K sb s) (hK : Stable none 0 K) :
    wp beginOp (fun _ t => At good K sb ((Ctx.idle s).hand 1 0 []) t) (Stops good) s := by
  refine wp_imp (beginOp_at h hK) ?_
  rintro _ t ⟨ht, -⟩
  exact ht

theorem end_at (h : At good K sb (c.hand 1 0 []) t) (hK : Stable none 0 K) :
    wp endOp (fun _ u => At good K sb (c.hand 0 0 []) u) (Stops good) t := by
  refine wp_imp (endOp_at h hK) ?_
  rintro _ u ⟨hu, -⟩
  exact hu

theorem lock_at (h : At good K sb (c.hand 1 T L) s) (hK : Stable none T K) (ip : Iptr) :
    wp (ilock ip) (fun _ t => ∃ ty, At good K sb (c.hand 1 T ((ip, ty) :: L)) t ∧ ∀ x ∈ L, x.1 ≠ ip)
      (Stops good) s := by
  refine wp_imp (ilock_at h hK ip) ?_
  rintro _ t ⟨ty, ht, hne, -⟩
  exact ⟨ty, ht, hne⟩

theorem unlock_at (h : At good K sb (c.hand 1 T ((ip, ty) :: L)) s) (hK : Stable none T K)
    (hL : ∀ x ∈ L, x.1 ≠ ip) :
    wp (iunlock ip) (fun _ t => At good K sb (c.hand 1 T L) t) (Stops good) s := by
  refine wp_imp (iunlock_at h hK ip (mem_unlock hL)) ?_
  rintro _ t ⟨ht, -⟩
  exact ht

theorem unlockput_at (h : At good K sb (c.hand 1 (ip ::ₘ T) ((ip, ty) :: L)) s) (hK : Stable none T K)
    (hput : Puts good K sb) (hL : ∀ x ∈ L, x.1 ≠ ip) :
    wp (iunlockput ip) (fun _ t => At good K sb (c.hand 1 T L) t) (Stops good) s :=
  iunlockput_at (c := c.hand 1 T L) h hK hL le_rfl hput rfl

section

variable (h : At good K sb (c.hand 1 T L) s) (hK : Stable none T K) (hput : Puts good K sb)
    (hlive : c.live p = true) (path : List Char)

include h hK hput hlive

theorem name_at : wp (namei p path) (fun r t => match r with
      | none => At good K sb (c.hand 1 T L) t
      | some ip => At good K sb (c.hand 1 (ip ::ₘ T) L) t) (Stops good) s :=
  namei_at h hK hput le_rfl rfl hlive path

theorem parent_at : wp (nameiparent p path) (fun r t => match r with
      | none => At good K sb (c.hand 1 T L) t
      | some (dp, _) => At good K sb (c.hand 1 (dp ::ₘ T) L) t) (Stops good) s :=
  wp_imp (namex_at h hK hput le_rfl rfl hlive path true) fun r t ht => by
    cases r <;> exact ht.1

end

theorem putEnd_at (h : At good K sb (c.hand 1 (ip ::ₘ 0) [(ip, ty)]) s) (hK : Stable none 0 K)
    (hput : Puts good K sb) :
    wp (iunlockput ip) (fun _ t => wp endOp (fun _ u => At good K sb (c.hand 0 0 []) u) (Stops good) t)
      (Stops good) s := by
  refine wp_imp (unlockput_at h hK hput ?_) fun _ t ht => end_at ht hK
  simp

theorem putDone_at (h : At good K sb (c.hand 1 (ip ::ₘ 0) [(ip, ty)]) s) :
    wp (iunlockput ip) (fun _ t => wp endOp (fun _ u => Idle good sb u) (Stops good) t)
      (Stops good) s :=
  wp_imp (putEnd_at h.now stable_any puts_any) fun _ _ ht => wp_imp ht fun _ _ hu => hu.idle

/-! ### `link` -/

/-- What is known while the inode of the entry has one link more. -/
def Linked (K : Volume → Led → Prop) (ip : Iptr) (v : Volume) (l : Led) : Prop :=
  K (v.addLink (l.icache ip).inum (-1)) l

theorem Volume.addLink_addLink (v : Volume) (i : ℕ) : (v.addLink i 1).addLink i (-1) = v := by
  have hn : (v.ino i).nlink + 1 + -1 = (v.ino i).nlink := by
    rw [← Int16.sub_eq_add_neg, Int16.add_sub_cancel]
  unfold Volume.addLink
  rw [Volume.setIno_ino_self, hn]
  unfold Volume.setIno
  rw [update_idem, update_eq_self]

theorem stable_linked (hK : Stable none 0 K) : Stable none (ip ::ₘ 0) (Linked K ip) := by
  intro c c' v l l' hl hl' hc hc' hsame hk
  have hpos : 0 < (l.icache ip).ref :=
    hl.refs.pos_of_mem (Multiset.mem_of_le hc.2 (Multiset.mem_cons_self ip 0))
  unfold Linked
  rw [hsame.inum ip hpos]
  exact hK c c' _ l l' hl hl' ⟨hc.1, Multiset.zero_le _⟩ ⟨hc'.1, Multiset.zero_le _⟩ hsame hk

theorem linkBad_at (h : At good (Linked K ip) sb (c.hand 1 (ip ::ₘ 0) []) s) (hK : Stable none 0 K)
    (hput : Puts good K sb) :
    wp (linkBad ip) (fun r t => r = none ∧ At good K sb (c.hand 0 0 []) t) (Stops good) s := by
  simp only [linkBad, wp_run]
  refine wp_imp (lock_at h (stable_linked hK) ip) ?_
  rintro _ t ⟨ty, ht, -⟩
  refine wp_imp (addLink_at ht List.mem_cons_self le_rfl (-1) fun _ hk => hk) fun _ u hu => ?_
  exact wp_imp (putEnd_at hu hK hput) fun _ w hw => wp_imp hw fun _ x hx => ⟨trivial, hx⟩

theorem linkEntry_at (h : At good K sb c s) (hK : Stable c.proc c.refs K) (hput : Puts good K sb)
    (hp : c.proc = none) (hi : (dp, ty) ∈ c.locks) (ip : Iptr) (hr : ip ∈ c.refs) (ho : 1 ≤ c.out)
    (name : Name) :
    wp (linkEntry dp ip name) (fun r t => match r with
      | false => At good K sb c t
      | true => Now good sb c t) (Stops good) s := by
  simp only [linkEntry, wp_run]
  split
  · exact h
  · refine dirlink_at h hK writes_any hput hp hi ho name fun hg => ?_
    obtain ⟨v, hv, -⟩ := h.content hg
    exact hv.lt ip (h.pos_of_ref hr)

theorem sysLink_at (h : Rests good K sb s) (hK : Stable none 0 K) (hput : Puts good K sb)
    (hlink : ∀ ip, Puts good (Linked K ip) sb) (hlive : s.live p = true) (old new : List Char) :
    wp (sysLink p old new) (Done good K sb s) (Stops good) s := by
  simp only [sysLink, wp_bind]
  refine wp_imp (begin_at h hK) ?_
  intro _ t ht
  refine wp_imp (name_at ht hK hput hlive old) ?_
  rintro (_ | ip) u hu
  · simp only [wp_run]
    exact end_at hu hK
  simp only [wp_run]
  refine wp_imp (lock_at hu (hK.cons ip) ip) ?_
  rintro _ w ⟨ty, hw, hne⟩
  split
  · exact putEnd_at hw hK hput
  have hup : ∀ v, K v w.led → Linked K ip (v.addLink (w.icache ip).inum 1) w.led := fun v hk => by
    unfold Linked
    rw [show (w.led.icache ip).inum = (w.icache ip).inum from rfl, v.addLink_addLink]
    exact hk
  have hbad : ∀ y, At good (Linked K ip) sb ((Ctx.idle s).hand 1 (ip ::ₘ 0) []) y →
      wp (linkBad ip) (Done good K sb s) (Stops good) y := fun y hy =>
    wp_imp (linkBad_at hy hK hput) fun _ _ hz => by
      rw [hz.1]
      exact hz.2
  refine wp_imp (addLink_at hw List.mem_cons_self le_rfl 1 hup) ?_
  intro _ x hx
  refine wp_imp (unlock_at hx (stable_linked hK) hne) ?_
  intro _ y hy
  refine wp_imp (parent_at hy (stable_linked hK) (hlink ip) hlive new) ?_
  rintro (_ | ⟨dp, name⟩) z hz
  · exact hbad z hz
  simp only [wp_run]
  refine wp_imp (lock_at hz ((stable_linked hK).cons dp) dp) ?_
  rintro _ a ⟨ty', ha, hne'⟩
  refine wp_imp (linkEntry_at ha ((stable_linked hK).cons dp) (hlink ip) rfl List.mem_cons_self ip
    (by simp [Ctx.hand]) le_rfl name) ?_
  rintro (_ | _) b hb
  · exact wp_imp (unlockput_at hb (stable_linked hK) (hlink ip) hne') fun _ d hd => hbad d hd
  simp only [if_true]
  refine wp_imp (unlockput_at hb stable_any puts_any hne') ?_
  intro _ d hd
  refine wp_imp (iput_at (c := (Ctx.idle s).hand 1 0 []) hd stable_any le_rfl frees_any) ?_
  intro _ e he
  exact wp_imp (end_at he stable_any) fun _ g hg => hg.idle

/-! ### `unlink` -/

theorem unlinkBad_at (h : At good K sb ((Ctx.idle s).hand 1 (dp ::ₘ 0) [(dp, ty)]) t)
    (hK : Stable none 0 K)
    (hput : Puts good K sb) : wp (unlinkBad dp) (Done good K sb s) (Stops good) t := by
  simp only [unlinkBad, wp_run]
  exact putEnd_at h hK hput

theorem removeEntry_at {off : ℕ}
    (h : Now good sb (c.hand 1 (ip ::ₘ dp ::ₘ 0) [(ip, ty), (dp, tDir)]) s) (hne : dp ≠ ip)
    (hoff : off % direntSize = 0) :
    wp (removeEntry dp off ip) (fun r t => r = some 0 ∧ Idle good sb t) (Stops good) s := by
  have hip : (ip, ty) ∈ [(ip, ty), (dp, tDir)] := List.mem_cons_self
  have hdp : (dp, tDir) ∈ [(ip, ty), (dp, tDir)] := List.mem_cons_of_mem _ List.mem_cons_self
  have hrest : ∀ t, Now good sb (c.hand 1 (ip ::ₘ dp ::ₘ 0) [(ip, ty), (dp, tDir)]) t →
      wp (iunlockput dp) (fun _ u => wp (addLink ip (-1)) (fun _ w => wp (iunlockput ip)
        (fun _ x => wp endOp (fun _ y => True ∧ Idle good sb y) (Stops good) x) (Stops good) w)
        (Stops good) u) (Stops good) t := by
    intro t ht
    rw [Multiset.cons_swap] at ht
    have hswap : Now good sb (c.hand 1 (dp ::ₘ ip ::ₘ 0) [(dp, tDir), (ip, ty)]) t :=
      ht.reorder (L := [(dp, tDir), (ip, ty)]) fun x => by
        show x ∈ [(dp, tDir), (ip, ty)] ↔ x ∈ [(ip, ty), (dp, tDir)]
        simp only [List.mem_cons, List.not_mem_nil, or_false]
        exact or_comm
    refine wp_imp (unlockput_at hswap stable_any puts_any ?_) ?_
    · simpa using hne.symm
    · intro _ u hu
      refine wp_imp (addLink_at hu List.mem_cons_self le_rfl (-1) any_addLink) fun _ w hw => ?_
      exact wp_imp (putDone_at hw) fun _ x hx => wp_imp hx fun _ y hy => ⟨trivial, hy⟩
  simp only [removeEntry, wp_bind, wp_get]
  refine wp_imp (writeDirent_at h stable_any writes_any hdp le_rfl hoff (fun hg => ?_) (by decide)) ?_
  · obtain ⟨v, hv, -⟩ := h.content hg
    exact Nat.zero_lt_of_lt hv.laid.root
  intro _ t ht
  split
  · simp only [wp_bind, wp_pure]
    exact wp_imp (addLink_at ht hdp le_rfl (-1) any_addLink) fun _ u hu => hrest u hu
  · simp only [wp_bind, wp_pure]
    exact hrest t ht

theorem sysUnlink_at (h : Rests good K sb s) (hK : Stable none 0 K) (hput : Puts good K sb)
    (hlive : s.live p = true) (path : List Char) :
    wp (sysUnlink p path) (Done good K sb s) (Stops good) s := by
  simp only [sysUnlink, wp_bind]
  refine wp_imp (begin_at h hK) ?_
  intro _ t ht
  refine wp_imp (parent_at ht hK hput hlive path) ?_
  rintro (_ | ⟨dp, name⟩) u hu
  · simp only [wp_run]
    exact end_at hu hK
  simp only [wp_run]
  refine wp_imp (lock_at hu (hK.cons dp) dp) ?_
  rintro _ w ⟨ty, hw, -⟩
  split
  · exact unlinkBad_at hw hK hput
  refine wp_imp (dirlookup_at hw (hK.cons dp) List.mem_cons_self name) ?_
  rintro (_ | ⟨off, ip⟩) x ⟨rfl, -, hx⟩
  · exact unlinkBad_at hx hK hput
  simp only [Blocks.panic, wp_run]
  refine wp_imp (lock_at (c := Ctx.idle s) hx.1 ((hK.cons dp).cons ip) ip) ?_
  rintro _ y ⟨ty', hy, hne⟩
  split
  · exact hy.panic (by decide)
  refine wp_imp (inUseDir_at hy ((hK.cons dp).cons ip) List.mem_cons_self) ?_
  intro r z hz
  have hdp : dp ≠ ip := hne (dp, tDir) List.mem_cons_self
  split
  · exact wp_imp (unlockput_at hz (hK.cons dp) hput hne) fun _ a ha => unlinkBad_at ha hK hput
  · refine wp_imp (removeEntry_at (c := Ctx.idle s) hz.now hdp hx.2) ?_
    rintro _ a ⟨rfl, ha⟩
    exact ha

/-! ### `mkdir`, `mknod`, `exec`, `chdir` -/

theorem sysCreate_at (h : Rests good K sb s) (hK : Stable none 0 K) (hput : Puts good K sb)
    (hlive : s.live p = true) (path : List Char) (type major minor : Int16) :
    wp (sysCreate p path type major minor) (Done good K sb s) (Stops good) s := by
  simp only [sysCreate, wp_bind]
  refine wp_imp (begin_at h hK) ?_
  intro _ t ht
  refine wp_imp (create_at ht hK hput le_rfl rfl hlive path type major minor) ?_
  rintro (_ | ip) u hu
  · simp only [wp_run]
    exact end_at hu.1 hK
  · obtain ⟨K', ty, -, hu, -⟩ := hu
    simp only [wp_run]
    exact putDone_at (c := Ctx.idle s) hu

theorem execReads_at (h : Now good sb c s) (hi : (ip, ty) ∈ c.locks) (reads : List (ℕ × ℕ)) :
    wp (execReads ip reads) (fun _ t => Now good sb c t) (Stops good) s := by
  induction reads generalizing s with
  | nil => exact h
  | cons x rest ih =>
    obtain ⟨off, n⟩ := x
    simp only [execReads, wp_bind]
    refine wp_imp (readi_at h stable_any hi off n) ?_
    rintro (_ | bs) t ⟨ht, -⟩
    · exact ht
    simp only [wp_run]
    split
    · exact ih ht
    · exact ht

theorem exec_at (h : Idle good sb s) (hlive : s.live p = true) (path : List Char)
    (reads : List (ℕ × ℕ)) : wp (exec p path reads) (fun _ t => Idle good sb t) (Stops good) s := by
  simp only [exec, wp_bind]
  refine wp_imp (begin_at h stable_any) ?_
  intro _ t ht
  refine wp_imp (name_at ht stable_any puts_any hlive path) ?_
  rintro (_ | ip) u hu
  · simp only [wp_run]
    exact wp_imp (end_at hu stable_any) fun _ w hw => hw.idle
  simp only [wp_run]
  refine wp_imp (lock_at hu stable_any ip) ?_
  rintro _ w ⟨ty, hw, -⟩
  exact wp_imp (execReads_at hw List.mem_cons_self reads) fun _ x hx => putDone_at hx

theorem At.takeProc (h : Now good sb (c.hand 1 T []) s) (hlive : c.live p = true) :
    Now good sb (c.moving p 1 (s.cwd p ::ₘ T)) s :=
  ⟨h.ledger.takeProc rfl ((congrFun h.ledger.procs.1 p).trans hlive), h.content⟩

theorem At.giveProc (h : Now good sb (c.moving p 0 (ip ::ₘ 0)) s) : Now good sb ({ c with
      live := update s.live p true
      cwd := update s.cwd p ip }.hand 0 0 [])
      { s.setCwd p ip with live := update s.live p true } :=
  At.change h (Ledger.giveProc (c := c.hand 0 0 []) h.ledger) fun _ hv =>
    hv.same rfl rfl rfl rfl hv.rep.hist rfl

theorem sysChdir_at (h : Rests good K sb s) (hK : Stable none 0 K) (hput : Puts good K sb)
    (hlive : s.live p = true) (path : List Char) :
    wp (sysChdir p path) (Done good K sb s) (Stops good) s := by
  simp only [sysChdir, wp_bind]
  refine wp_imp (begin_at h hK) ?_
  intro _ t ht
  refine wp_imp (name_at ht hK hput hlive path) ?_
  rintro (_ | ip) u hu
  · simp only [wp_run]
    exact end_at hu hK
  simp only [wp_run]
  refine wp_imp (lock_at hu (hK.cons ip) ip) ?_
  rintro _ w ⟨ty, hw, hne⟩
  split
  · exact putEnd_at hw hK hput
  refine wp_imp (unlock_at hw (hK.cons ip) hne) ?_
  intro _ x hx
  refine wp_imp (iput_at (c := (Ctx.idle s).moving p 1 0) (At.takeProc hx.now hlive) stable_any le_rfl
    frees_any) ?_
  intro _ y hy
  refine wp_imp (endOp_at hy stable_any) ?_
  rintro _ z ⟨hz, -⟩
  have hp : true = z.live p := ((congrFun hz.ledger.procs.1 p).trans hlive).symm
  have hnew := At.giveProc (c := Ctx.idle s) hz
  rw [update_eq_self_iff.2 hp] at hnew
  exact At.idle hnew

/-! ### `open` -/

/-- There is no free file, or the process has no free descriptor. -/
def Fs.Full (s : Fs) (p : Pid) : Prop :=
  (∀ f, (s.ftable f).ref ≠ 0) ∨ ∀ fd, (s.ofile p fd).isSome = true

/-- Files have as many references as there are descriptors. -/
theorem At.full_iff {K' : Volume → Led → Prop} {n n' : ℕ} {T' : Multiset Iptr}
    {L' : List (Iptr × Int16)}
    (h : At good K sb (c.hand n T L) s) (h' : At good K' sb (c.hand n' T' L') t) :
    t.Full p ↔ s.Full p := by
  have hofile : t.ofile = s.ofile := h'.ledger.procs.2.2.trans h.ledger.procs.2.2.symm
  have hdescs : ∀ x, t.led.descs none x = s.led.descs none x := fun x =>
    congrFun (congrFun hofile x.1) x.2
  have href : ∀ f, (t.ftable f).ref = (s.ftable f).ref := fun f =>
    ((h'.ledger.frefs.congr (fun _ => rfl) fun x => (hdescs x).symm) f).trans (h.ledger.frefs f).symm
  simp only [Fs.Full, hofile, href]

/-- The inode to open is locked, and a directory only to be read. -/
theorem openInode_at (h : At good K sb (c.hand 1 0 []) s) (hK : Stable none 0 K) (hput : Puts good K sb)
    (hlive : c.live p = true) (path : List Char) (omode : ℕ) :
    wp (openInode p path omode) (fun r t => match r with
      | none => At good K sb (c.hand 1 0 []) t ∧
          (omode &&& oCreate ≠ 0 → Fixed good K fun v => v.lacks (s.start p path) path = false)
      | some ip => ∃ K' ty,
          (K' = K ∧ (omode &&& oCreate ≠ 0 →
              Fixed good K fun v => v.lacks (s.start p path) path = false) ∨
            ∃ i, K' = Made i tFile ∧ FreeInode good K sb i ∧ omode &&& oCreate ≠ 0 ∧
              Fixed good K fun v => v.lacks (s.start p path) path = true) ∧
          At good K' sb (c.hand 1 (ip ::ₘ 0) [(ip, ty)]) t ∧ (good → ty = tDir → omode = 0))
      (Stops good) s := by
  simp only [openInode, wp_ite]
  split
  · next hmode =>
    refine wp_imp (create_at h hK hput le_rfl rfl hlive path tFile 0 0) ?_
    rintro (_ | ip) t ht
    · exact ⟨ht.1, fun _ => ht.2⟩
    obtain ⟨K', ty, hK', ht, -, hty⟩ := ht
    refine ⟨K', ty, hK'.imp (fun h => ⟨h.1, fun _ => h.2⟩) ?_, ht, fun hg hdir => ?_⟩
    · rintro ⟨i, hi, hfree, hlacks⟩
      exact ⟨i, hi, hfree, hmode, hlacks⟩
    rw [hty hg] at hdir
    exact absurd hdir (by decide)
  · next hmode =>
    rw [wp_bind]
    refine wp_imp (name_at h hK hput hlive path) ?_
    rintro (_ | ip) t ht
    · exact ⟨ht, fun hc => absurd hc hmode⟩
    simp only [wp_run]
    refine wp_imp (lock_at ht (hK.cons ip) ip) ?_
    rintro _ u ⟨ty, hu, hne⟩
    have htype := hu.type_of_lock List.mem_cons_self
    split
    · exact wp_imp (unlockput_at hu hK hput hne) fun _ w hw => ⟨hw, fun hc => absurd hc hmode⟩
    next hdir =>
    refine ⟨K, ty, .inl ⟨rfl, fun hc => absurd hc hmode⟩, hu, fun _ hty => ?_⟩
    rw [htype] at hdir
    exact not_not.1 fun hmode => hdir ⟨hty, hmode⟩

theorem openFd_at (h : At good K sb (c.hand 1 (ip ::ₘ 0) [(ip, ty)]) s) (hK : Stable none 0 K)
    (hput : Puts good K sb) (hlive : c.live p = true) {omode : ℕ}
    (hdir : good → ty = tDir → omode = 0) :
    wp (openFd p ip omode) (fun r t => match r with
      | none => At good K sb (c.hand 0 0 []) t ∧ s.Full p
      | some _ => Idle good sb t) (Stops good) s := by
  have hmem : (ip, ty) ∈ [(ip, ty)] := List.mem_cons_self
  have hend : ∀ {u : Fs}, At good K sb (c.hand 1 (ip ::ₘ 0) [(ip, ty)]) u → s.Full p →
      wp (iunlockput ip) (fun _ w => wp endOp (fun _ x => At good K sb (c.hand 0 0 []) x ∧ s.Full p)
        (Stops good) w) (Stops good) u := fun hu hfull =>
    wp_imp (putEnd_at hu hK hput) fun _ w hw => wp_imp hw fun _ x hx => ⟨hx, hfull⟩
  have hfiles : wp filealloc (fun r _ => r = none → ∀ f, (s.ftable f).ref ≠ 0) (fun _ _ => True) s := by
    simp only [filealloc, wp_run]
    split
    · next hnone => exact fun _ f => by simpa using List.find?_eq_none.1 hnone f (List.mem_finRange f)
    · rintro ⟨⟩
  simp only [openFd, wp_bind]
  refine wp_imp (wp_also (filealloc_at h (hK.cons ip)) hfiles) ?_
  rintro (_ | f) t ⟨ht, hfull⟩
  · simp only [wp_run]
    exact hend ht (.inl (hfull rfl))
  obtain ⟨ht, -, x, hx, rfl⟩ := ht
  have hnone : ((s.setFile f x).ftable f).type = .none := by simpa [Fs.setFile] using hx
  have hfds : wp (fdalloc p f) (fun r _ => r = none → ∀ fd, (s.ofile p fd).isSome = true)
      (fun _ _ => True) (s.setFile f x) := by
    simp only [fdalloc, wp_run]
    split
    · next hnone =>
      intro _ fd
      exact Option.isSome_iff_ne_none.2 fun hfd =>
        List.find?_eq_none.1 hnone fd (List.mem_finRange fd) (Option.isNone_iff_eq_none.2 hfd)
    · rintro ⟨⟩
  simp only [wp_bind]
  refine wp_imp (wp_also (fdalloc_at ht.now rfl hlive) hfds) ?_
  rintro (_ | fd) u ⟨hu, hfull⟩
  · subst hu
    simp only [wp_run]
    exact wp_imp (fileclose_none_at ht (hK.cons ip) hnone) fun _ w hw => hend hw (.inr (hfull rfl))
  obtain ⟨rfl, -, hu⟩ := hu
  set u := (s.setFile f x).setOfile p fd (some f)
  simp only [wp_run]
  refine wp_imp (iunlock_at (L := []) hu stable_any ip (mem_unlock (by rintro _ ⟨⟩))) ?_
  rintro _ w ⟨hw, hvalid, htype, -, hft⟩
  refine wp_imp (endOp_at hw stable_any) ?_
  rintro _ z ⟨hz, hft', hic⟩
  have hfile : z.ftable f = (s.setFile f x).ftable f := congrFun (hft'.trans hft) f
  have hpos : 0 < ((s.setFile f x).ftable f).ref :=
    ht.ledger.frefs.pos_of_mem (b := f) (by simp [Ctx.hand])
  refine At.idle (K := Any) (c := { c with ofile := u.ofile })
    (At.openInode (c := { c with ofile := u.ofile }.hand 0 0 [])
    (T := 0) hz ?_ ?_ ?_ ?_ fun hg hwr => ?_)
  · rw [hfile]
    exact hnone
  · rw [hfile]
    exact hpos
  · rfl
  · rfl
  · rw [hic]
    refine ⟨hvalid.trans (hu.valid_of_lock hmem), fun hty => ?_⟩
    rw [htype, hu.type_of_lock hmem] at hty
    rw [hdir hg hty] at hwr
    simp at hwr

theorem sysOpen_at (h : Rests good K sb s) (hK : Stable none 0 K) (hput : Puts good K sb)
    (hlive : s.live p = true) (path : List Char) (omode : ℕ) :
    wp (sysOpen p path omode) (fun r t =>
      Done good K sb s r t ∧ (r = none → omode &&& oCreate ≠ 0 →
        Fixed good K fun v => v.lacks (s.start p path) path = false) ∨
      r = none ∧ omode &&& oCreate ≠ 0 ∧ s.Full p ∧
        (Fixed good K fun v => v.lacks (s.start p path) path = true) ∧
        ∃ i, FreeInode good K sb i ∧ At good (Made i tFile) sb (Ctx.idle s) t) (Stops good) s := by
  have hstart : wp beginOp (fun _ t => t.start p path = s.start p path) (fun _ _ => True) s := by
    simp only [beginOp, wp_run]
    split <;> trivial
  simp only [sysOpen, wp_bind]
  refine wp_imp (wp_also (begin_at h hK) hstart) ?_
  rintro _ t ⟨ht, hstart⟩
  refine wp_imp (openInode_at ht hK hput hlive path omode) ?_
  rw [hstart]
  rintro (_ | ip) u hu
  · simp only [wp_run]
    exact wp_imp (end_at hu.1 hK) fun _ w hw => .inl ⟨hw, fun _ => hu.2⟩
  obtain ⟨K', ty, hK', hu, hdir⟩ := hu
  rcases hK' with ⟨rfl, hlacks⟩ | ⟨i, rfl, hfree, hmode, hlacks⟩
  · refine wp_imp (openFd_at hu hK hput hlive hdir) ?_
    rintro (_ | fd) w hw
    · exact .inl ⟨hw.1, fun _ => hlacks⟩
    · exact .inl ⟨hw, by simp⟩
  · refine wp_imp (openFd_at hu stable_made puts_made hlive hdir) ?_
    rintro (_ | fd) w hw
    · exact .inr ⟨rfl, hmode, (At.full_iff (c := Ctx.idle s) h hu).1 hw.2, hlacks, i, hfree, hw.1⟩
    · exact .inl ⟨hw, by simp⟩

end hand

/-! ## Calls on descriptors -/

theorem sysDup_at (h : Idle good sb s) (hlive : s.live p = true) (fd : Fd) :
    wp (sysDup p fd) (fun _ t => Idle good sb t) (Stops good) s := by
  simp only [sysDup, wp_run]
  rcases hf : s.ofile p fd with _ | f
  · exact h
  simp only [fdalloc, wp_run]
  split
  · exact h
  next fd' hfind =>
  have hnone : s.ofile p fd' = none := by simpa using List.find?_some hfind
  simp only [wp_run]
  -- the new descriptor counts only after `filedup`
  have hset := At.tables h (h.ledger.setDesc rfl (.inl hlive) hnone (some f))
  refine wp_imp (filedup_at hset stable_any f) ?_
  rintro _ t ⟨ht, -, hofile⟩
  refine At.idle (c := { Ctx.idle s with ofile := s.led.setOfile p fd' (some f) })
    ⟨Ledger.giveDesc (c := { Ctx.idle s with ofile := s.led.setOfile p fd' (some f) }) ht.ledger ?_,
      ht.content⟩
  exact (congrFun (congrFun hofile p) fd').trans (s.led.setOfile_self p fd' (some f))

/-- The books of a call that holds references to files. -/
def Ctx.files (c : Ctx) (F : Multiset Fid) : Ctx := ⟨0, [], 0, F, 0, none, none, c.live, c.cwd, c.ofile⟩

theorem At.takeDesc (h : Now good sb (c.files F) s) (hlive : c.live p = true)
    (hf : s.ofile p fd = some f) :
    Now good sb ({ c with ofile := s.led.setOfile p fd none }.files (f ::ₘ F)) (s.setOfile p fd none) :=
  At.tables h (Ledger.clearDesc (c := c.files (f ::ₘ F)) (h.ledger.takeDesc rfl hf) (.inl hlive))

theorem close_at (h : Now good sb (c.files (f ::ₘ F)) s) :
    wp (fileclose f) (fun _ t => Now good sb (c.files F) t) (Stops good) s :=
  fileclose_at (c := c.files F) h

theorem sysClose_at (h : Idle good sb s) (hlive : s.live p = true) (fd : Fd) :
    wp (sysClose p fd) (fun _ t => Idle good sb t) (Stops good) s := by
  simp only [sysClose, wp_run]
  rcases hf : s.ofile p fd with _ | f
  · exact h
  simp only [wp_run]
  exact wp_imp (close_at (At.takeDesc (c := Ctx.idle s) h hlive hf)) fun _ t ht => At.idle ht

theorem closeBoth_at {rf wf : Fid} (h : Now good sb (c.files (rf ::ₘ wf ::ₘ 0)) s) :
    wp (fileclose rf) (fun _ t => wp (fileclose wf) (fun _ u => Idle good sb u) (Stops good) t)
      (Stops good) s := by
  refine wp_imp (close_at h) ?_
  intro _ t ht
  exact wp_imp (close_at ht) fun _ u hu => At.idle hu

theorem alloc_at (h : Now good sb (c.files (f ::ₘ F)) s) (hlive : c.live p = true) :
    wp (fdalloc p f) (fun r t => match r with
      | none => t = s
      | some fd => Now good sb ({ c with ofile := t.ofile }.files F) t ∧ t.ofile p fd = some f)
      (Stops good) s := by
  refine wp_imp (fdalloc_at (c := c.files F) h rfl hlive) ?_
  rintro (_ | fd) t ht
  · exact ht
  · obtain ⟨rfl, -, ht⟩ := ht
    exact ⟨ht, by simp [Fs.setOfile]⟩

theorem sysPipe_at (h : Idle good sb s) (hlive : s.live p = true) {page : Option ℕ}
    (hpage : ∀ q, page = some q → s.pipes q = none) :
    wp (sysPipe p page) (fun _ t => Idle good sb t) (Stops good) s := by
  simp only [sysPipe, wp_bind]
  refine wp_imp (pipealloc_at h hpage) ?_
  rintro (_ | ⟨rf, wf⟩) t ht
  · exact At.idle (c := Ctx.idle s) ht
  simp only [wp_bind]
  refine wp_imp (alloc_at (c := Ctx.idle s) ht hlive) ?_
  rintro (_ | fd0) u hu
  · subst hu
    simp only [wp_run]
    exact closeBoth_at (c := Ctx.idle s) ht
  simp only [wp_bind]
  refine wp_imp (alloc_at hu.1 hlive) ?_
  rintro (_ | fd1) w hw
  · subst hw
    simp only [wp_run]
    exact closeBoth_at (At.takeDesc hu.1 hlive hu.2)
  · exact At.idle hw.1

/-! ## Reading and writing -/

theorem At.usePipe (h : Now good sb c s) {page : ℕ} {pi pi' : Pipes.Pipe} (hpi : s.pipes page = some pi)
    (hopen : ∀ w, pi'.isOpen w = pi.isOpen w) : Now good sb c (s.setPipe page (some pi')) := by
  have hends : Balanced (Led.openEnds { s.led with pipes := update s.led.pipes page (some pi') })
      (fun g => (s.led.ftable g).pipeEnd) c.ends := by
    refine h.ledger.ends.congr (fun e => ?_) fun _ => rfl
    obtain ⟨q, w⟩ := e
    by_cases hq : q = page
    · subst hq
      rw [openEnds_of_some (update_self ..), openEnds_of_some hpi, hopen]
    · exact openEnds_update _ hq
  have hpages : s.led.kallocs page = s.led.kfrees page + 1 := by
    have := h.ledger.pages page
    rwa [show s.led.pipes page = some pi from hpi] at this
  refine At.withPipe h (h.ledger.setPipe _ hends hpages (fun _ _ => rfl)
    (fun _ _ => rfl) fun p' hp' => ?_)
  obtain rfl := Option.some.inj hp'
  rw [Pipes.Pipe.freed_eq_isOpen, hopen, hopen, ← Pipes.Pipe.freed_eq_isOpen]
  exact h.ledger.used page pi hpi

theorem piperead_at (h : Idle good sb s) (page n : ℕ) :
    wp (piperead page n) (fun _ t => Idle good sb t) (Stops good) s := by
  simp only [piperead, wp_run]
  rcases hpi : s.pipes page with _ | pi
  · exact h.sleeps
  have hnew := At.usePipe h hpi (pi.piperead_isOpen false n)
  simp only [wp_run]
  cases (pi.piperead false n).2 with
  | returns bytes => exact hnew
  | fails => exact hnew
  | sleeps => exact hnew.sleeps

theorem pipewrite_at (h : Idle good sb s) (page : ℕ) (src : List UInt8) :
    wp (pipewrite page src) (fun _ t => Idle good sb t) (Stops good) s := by
  simp only [pipewrite, wp_run]
  rcases hpi : s.pipes page with _ | pi
  · exact h.sleeps
  have hnew := At.usePipe h hpi (Pipes.Pipe.pipewrite_isOpen
    (fun k => src.getD k 0) false pi 0 src.length)
  simp only [wp_run]
  cases (pi.pipewrite (fun k => src.getD k 0) false 0 src.length).2.2 with
  | returns => exact hnew
  | fails => exact hnew
  | sleeps => exact hnew.sleeps

theorem fileread_at (h : Idle good sb s) (f : Fid) (n : ℕ) :
    wp (fileread f n) (fun _ t => Idle good sb t) (Stops good) s := by
  simp only [fileread, wp_run]
  split
  · exact h
  cases (s.ftable f).type with
  | none => exact h.panic (by decide)
  | pipe page => exact piperead_at h page n
  | inode ip =>
    simp only [wp_run]
    refine wp_imp (ilock_at h stable_any ip) ?_
    rintro _ t ⟨ty, ht, -⟩
    refine wp_imp (readi_at ht stable_any List.mem_cons_self _ n) ?_
    rintro r u ⟨hu, -⟩
    refine wp_imp (advance_at hu stable_any f _) ?_
    rintro _ w ⟨hw, -⟩
    refine wp_imp (iunlock_at (L := []) hw stable_any ip (mem_unlock nofun)) ?_
    rintro _ x ⟨hx, -⟩
    exact At.idle (c := Ctx.idle s) hx

theorem filestat_at (h : Idle good sb s) (f : Fid) :
    wp (filestat f) (fun _ t => Idle good sb t) (Stops good) s := by
  simp only [filestat, wp_run]
  cases (s.ftable f).type with
  | none => exact h
  | pipe page => exact h
  | inode ip =>
    simp only [wp_run]
    refine wp_imp (ilock_at h stable_any ip) ?_
    rintro _ t ⟨ty, ht, -⟩
    refine wp_imp (iunlock_at (L := []) ht stable_any ip (mem_unlock nofun)) ?_
    rintro _ x ⟨hx, -⟩
    exact At.idle (c := Ctx.idle s) hx

/-- The file is an inode open for writing. -/
def WritesTo (s : Fs) (f : Fid) (ip : Iptr) : Prop :=
  (s.ftable f).type = .inode ip ∧ (s.ftable f).writable = true

theorem writeChunk_at (h : Idle good sb s) (hf : WritesTo s f ip) (src : List UInt8) :
    wp (writeChunk f ip src) (fun _ t => Idle good sb t ∧ WritesTo t f ip) (Stops good) s := by
  simp only [writeChunk, wp_run]
  refine wp_imp (beginOp_at h stable_any) ?_
  rintro _ t ⟨ht, hft⟩
  refine wp_imp (ilock_at ht stable_any ip) ?_
  rintro _ u ⟨ty, hu, -, -, -, hfu⟩
  have hfile : u.ftable f = s.ftable f := congrFun (hfu.trans hft) f
  have hdir : good → ty ≠ tDir := fun hg => by
    obtain ⟨v, hv, -⟩ := hu.content hg
    rw [← hv.type_of_lock hu List.mem_cons_self]
    exact (hv.writable f ip (hfile ▸ hf.1) (hfile ▸ hf.2)).2
  refine wp_imp (writei_at hu stable_any writes_any List.mem_cons_self le_rfl fun hg hty =>
    absurd hty (hdir hg)) ?_
  rintro r w ⟨hw, hfw⟩
  refine wp_imp (advance_at hw stable_any f _) ?_
  rintro _ x ⟨hx, hfx⟩
  refine wp_imp (iunlock_at (L := []) hx stable_any ip (mem_unlock nofun)) ?_
  rintro _ y ⟨hy, -, -, -, hfy⟩
  refine wp_imp (endOp_at hy stable_any) ?_
  rintro _ z ⟨hz, hfz, -⟩
  refine ⟨At.idle (c := Ctx.idle s) hz, ?_⟩
  rw [WritesTo, hfz, hfy, hfx.1, hfx.2, hfw, hfile]
  exact hf

theorem writeChunks_at (h : Idle good sb s) (hf : WritesTo s f ip) (fuel : ℕ) (src : List UInt8) :
    wp (writeChunks f ip fuel src) (fun _ t => Idle good sb t) (Stops good) s := by
  induction fuel generalizing s src with
  | zero => exact h
  | succ fuel ih =>
    simp only [writeChunks, Blocks.panic, wp_run]
    split
    · exact h
    refine wp_imp (writeChunk_at h hf _) ?_
    rintro (_ | r) t ⟨ht, hft⟩
    · exact ht
    simp only [wp_run]
    split
    · exact ht.panic (by decide)
    · exact ih ht hft _

theorem filewrite_at (h : Idle good sb s) (f : Fid) (src : List UInt8) :
    wp (filewrite f src) (fun _ t => Idle good sb t) (Stops good) s := by
  simp only [filewrite, wp_run]
  split
  · exact h
  next hw =>
  cases htype : (s.ftable f).type with
  | none => exact h.panic (by decide)
  | pipe page => exact pipewrite_at h page src
  | inode ip =>
    simp only [wp_run]
    exact writeChunks_at h ⟨htype, not_not.1 hw⟩ _ _

/-! ## Processes -/

theorem forkFiles_at {child : Pid} (fds : List Fd) (hnodup : fds.Nodup)
    (h : Now good sb (c.moving child 0 0) s) (hnone : ∀ fd ∈ fds, s.ofile child fd = none) :
    wp (forkFiles p child fds) (fun _ t => Now good sb ({ c with ofile := t.ofile }.moving child 0 0) t)
      (Stops good) s := by
  induction fds generalizing s c with
  | nil =>
    have hofile : s.ofile = c.ofile := h.ledger.procs.2.2
    refine ⟨?_, h.content⟩
    show Ledger ({ c with ofile := s.ofile }.moving child 0 0) s.led
    rw [hofile]
    exact h.ledger
  | cons fd fds ih =>
    obtain ⟨hfd, hnodup⟩ := List.nodup_cons.1 hnodup
    simp only [forkFiles, wp_run]
    rcases s.ofile p fd with _ | f
    · exact ih hnodup h fun fd' hfd' => hnone fd' (List.mem_cons_of_mem _ hfd')
    simp only [wp_run]
    refine wp_imp (filedup_at h stable_any f) ?_
    rintro _ t ⟨ht, -, hofile⟩
    have hfree : t.led.ofile child fd = none :=
      (congrFun (congrFun hofile child) fd).trans (hnone fd List.mem_cons_self)
    have hset := ht.ledger.setDesc rfl (.inr rfl) hfree (some f)
    have hgive := Ledger.giveDesc
      (c := { c with ofile := t.led.setOfile child fd (some f) }.moving child 0 0)
      (F := 0) hset (t.led.setOfile_self child fd _)
    refine ih (c := { c with ofile := t.led.setOfile child fd (some f) }) hnodup (At.tables ht hgive)
      fun fd' hfd' => ?_
    have hne : (child, fd') ≠ (child, fd) := by
      rintro heq
      rw [(Prod.mk.inj heq).2] at hfd'
      exact hfd hfd'
    refine (t.led.setOfile_of_ne (some f) hne).trans ?_
    exact (congrFun (congrFun hofile child) fd').trans (hnone fd' (List.mem_cons_of_mem _ hfd'))

theorem fork_at (h : Idle good sb s) (hlive : s.live p = true) {child : Option Pid}
    (hchild : ∀ q, child = some q → s.live q = false) :
    wp (fork p child) (fun _ t => Idle good sb t) (Stops good) s := by
  rcases child with _ | child
  · exact h
  have hdead := hchild child rfl
  simp only [fork, wp_run]
  have hnew : Now good sb ((Ctx.idle s).moving child 0 0) s := ⟨h.ledger.newProc rfl hdead, h.content⟩
  refine wp_imp (forkFiles_at (p := p) (List.finRange 16) (List.nodup_finRange 16) hnew fun fd _ =>
    h.ledger.dead child hdead nofun fd) ?_
  intro _ t ht
  have hp : t.live p = true := (congrFun ht.ledger.procs.1 p).trans hlive
  have hne : (.inr p : Fid ⊕ Pid) ≠ .inr child := fun heq => by
    rw [Sum.inr.inj heq, hdead] at hlive
    cases hlive
  have hhold : t.led.holds (some child) (.inr p) = some (t.cwd p) :=
    (t.led.holds_of_ne hne).trans (Led.holds_live hp)
  refine wp_imp (idup_at ht stable_any (ht.ledger.refs.pos_of_hold hhold)) ?_
  intro _ u hu
  exact At.idle (At.giveProc (c := { Ctx.idle s with ofile := t.ofile }) hu)

theorem exitFiles_at (fds : List Fd) (h : Now good sb (c.files 0) s) (hlive : c.live p = true) :
    wp (exitFiles p fds) (fun _ t => Now good sb ({ c with ofile := t.ofile }.files 0) t ∧
      ∀ fd, fd ∈ fds ∨ s.ofile p fd = none → t.ofile p fd = none) (Stops good) s := by
  induction fds generalizing s c with
  | nil =>
    have hofile : s.ofile = c.ofile := h.ledger.procs.2.2
    refine ⟨⟨?_, h.content⟩, fun fd hfd => hfd.resolve_left nofun⟩
    show Ledger ({ c with ofile := s.ofile }.files 0) s.led
    rw [hofile]
    exact h.ledger
  | cons fd fds ih =>
    simp only [exitFiles, wp_run]
    cases hf : s.ofile p fd with
    | none =>
      refine wp_imp (ih h hlive) ?_
      rintro _ t ⟨ht, hnone⟩
      refine ⟨ht, fun fd' hfd' => hnone fd' ?_⟩
      rcases hfd' with hmem | hnil
      · rcases List.mem_cons.1 hmem with rfl | hmem
        · exact .inr hf
        · exact .inl hmem
      · exact .inr hnil
    | some f =>
      simp only [wp_run]
      have htake : Now good sb { c.files (f ::ₘ 0) with desc := some (p, fd) } s :=
        ⟨h.ledger.takeDesc rfl hf, h.content⟩
      refine wp_imp (fileclose_at (c := { c.files 0 with desc := some (p, fd) }) (F := 0) htake) ?_
      intro _ t ht
      have hofile : t.ofile = s.ofile := ht.ledger.procs.2.2.trans h.ledger.procs.2.2.symm
      have hclear := At.tables ht (Ledger.clearDesc (c := c.files 0) ht.ledger (.inl hlive))
      refine wp_imp (ih (c := { c with ofile := t.led.setOfile p fd none }) hclear hlive) ?_
      rintro _ u ⟨hu, hnone⟩
      refine ⟨hu, fun fd' hfd' => hnone fd' ?_⟩
      by_cases heq : fd' = fd
      · rw [heq]
        exact .inr (t.led.setOfile_self p fd none)
      · refine hfd'.imp (fun hmem => (List.mem_cons.1 hmem).resolve_left heq) fun hnil => ?_
        refine (t.led.setOfile_of_ne none fun hpair => heq (congrArg Prod.snd hpair)).trans ?_
        exact (congrFun (congrFun hofile p) fd').trans hnil

theorem exit_at (h : Idle good sb s) (hlive : s.live p = true) :
    wp (exit p) (fun _ t => Idle good sb t) (Stops good) s := by
  simp only [exit, Blocks.panic, wp_run]
  split
  · exact h.panic (by decide)
  refine wp_imp (exitFiles_at (c := Ctx.idle s) (List.finRange 16) h hlive) ?_
  rintro _ t ⟨ht, hnone⟩
  refine wp_imp (beginOp_at ht stable_any) ?_
  rintro _ u ⟨hu, -⟩
  refine wp_imp (iput_at (c := { Ctx.idle s with ofile := t.ofile }.moving p 1 0)
    (At.takeProc (c := { Ctx.idle s with ofile := t.ofile }) hu hlive)
    stable_any le_rfl frees_any) ?_
  intro _ w hw
  refine wp_imp (endOp_at hw stable_any) ?_
  rintro _ x ⟨hx, -⟩
  have hdrop := Ledger.dropProc (c := { Ctx.idle s with ofile := t.ofile }.hand 0 0 [])
    hx.ledger fun fd =>
    (congrFun (congrFun hx.ledger.procs.2.2 p) fd).trans (hnone fd (.inl (List.mem_finRange fd)))
  exact At.idle (c := { Ctx.idle s with ofile := t.ofile, live := update x.live p false })
    (At.change hx hdrop fun _ hv => hv.same rfl rfl rfl rfl hv.rep.hist rfl)

/-! ## Runs -/

theorem At.input (h : Idle good sb s) (input : Option (List UInt8)) :
    Idle good sb { s with input := input } :=
  At.change h h.ledger fun _ hv => hv.same rfl rfl rfl rfl hv.rep.hist rfl

theorem run_at (h : Idle good sb s) {x : Call} (hx : x.enabled s = true) :
    wp x.run (fun _ t => Idle good sb t) (Stops good) s := by
  obtain ⟨hlive, hmatch⟩ := Bool.and_eq_true_iff.1 hx
  have hdone : ∀ r t, Done good Any sb s r t → Idle good sb t := fun _ _ => Done.idle
  cases x with
  | openFile p path omode =>
    refine wp_imp (sysOpen_at h stable_any puts_any hlive path omode) ?_
    rintro r t (⟨ht, -⟩ | ⟨-, -, -, -, i, -, ht⟩)
    · exact ht.idle
    · exact At.idle (c := Ctx.idle s) ht
  | mkdir p path => exact wp_imp (sysCreate_at h stable_any puts_any hlive path tDir 0 0) hdone
  | mknod p path major minor =>
    exact wp_imp (sysCreate_at h stable_any puts_any hlive path tDev major minor) hdone
  | link p old new =>
    exact wp_imp (sysLink_at h stable_any puts_any (fun _ => puts_any) hlive old new) hdone
  | unlink p path => exact wp_imp (sysUnlink_at h stable_any puts_any hlive path) hdone
  | chdir p path => exact wp_imp (sysChdir_at h stable_any puts_any hlive path) hdone
  | exec p path reads input =>
    simp only [Call.run, wp_run]
    exact exec_at (At.input h input) hlive path reads
  | dup p fd => exact sysDup_at h hlive fd
  | pipe p page =>
    refine sysPipe_at h hlive fun q hq => ?_
    subst hq
    simpa using hmatch
  | read p fd n input =>
    simp only [Call.run, sysRead, wp_run]
    cases s.ofile p fd with
    | none => exact At.input h input
    | some f => exact fileread_at (At.input h input) f n
  | write p fd src =>
    simp only [Call.run, sysWrite, wp_run]
    cases s.ofile p fd with
    | none => exact h
    | some f => exact filewrite_at h f src
  | close p fd => exact sysClose_at h hlive fd
  | fstat p fd =>
    simp only [Call.run, sysFstat, wp_run]
    cases s.ofile p fd with
    | none => exact h
    | some f => exact filestat_at h f
  | fork p child =>
    refine fork_at h hlive fun q hq => ?_
    subst hq
    simpa using hmatch
  | exit p => exact exit_at h hlive

theorem step_idle (h : Idle good sb s) {x : Call} (hst : s.step x = some t) : Idle good sb t := by
  unfold Fs.step at hst
  split at hst
  · next hx =>
    have hrun := run_at h hx
    unfold wp at hrun
    cases hr : x.run s with
    | ok a u =>
      rw [hr] at hrun hst
      obtain rfl := Option.some.inj hst
      exact hrun
    | error e u =>
      rw [hr] at hst
      cases hst
  · cases hst

theorem run_idle (h : Idle good sb s) {cs : List Call} (hrun : Run (ofFun Fs.step) s cs t) :
    Idle good sb t :=
  hrun.invariant h fun _ _ _ hs hst => step_idle hs hst

end Xv6.Blocks

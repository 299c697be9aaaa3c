import Xv6Cow.Fs.InodeCache

/-!
# Rules for files, directories and paths

Directories are read and written an entry at a time, and entries of a consistent image name inodes
of the disk.
-/

namespace Xv6.Blocks

open Bytes Lts Prog Refs
open Names (Name Dirent namecmp scan elems absolute dot dotdot dirsiz oCreate)

variable {good : Prop} {K K' : Volume → Led → Prop} {sb : Superblock} {c : Ctx} {v v' : Volume}
  {s t : Fs} {l : Led} {ip jp dp : Iptr} {i off n : ℕ} {ty : Int16} {T : Multiset Iptr}
  {L : List (Iptr × Int16)}

/-! ## Reading -/

theorem At.know (h : At good K sb c s) (hK : ∀ v, Content sb v s → K v s.led → K' v s.led) :
    At good K' sb c s := by
  refine ⟨h.ledger, fun hg => ?_⟩
  obtain ⟨v, hv, hk⟩ := h.content hg
  exact ⟨v, hv, hK v hv hk⟩

/-- What holds of the volume if only one is possible. -/
def Fixed (good : Prop) (K : Volume → Led → Prop) (P : Volume → Prop) : Prop :=
  good → ∀ v, (∀ v' l, K v' l → v' = v) → P v

theorem At.fixed (h : At good K sb c s) (hg : good) (hfix : ∀ v' l, K v' l → v' = v) :
    Content sb v s := by
  obtain ⟨v', hv, hk⟩ := h.content hg
  exact hfix v' _ hk ▸ hv

theorem readi_led (hd : (s.icache ip).type ≠ tDev) (hr : s.hist.reading = false) (off n : ℕ) :
    wp (readi ip off n) (fun _ t => t.led = s.led) Low s := by
  simp only [readi, wp_run, hd]
  split
  · trivial
  refine (frame_readLoop _ _ _ _).step rfl fun _ t ht => ?_
  have hled : ({ t with hist.reading := false } : Fs).led = { t.led with reading := false } := rfl
  rw [hled, ht]
  have hback : s.led = { s.led with reading := false } := by
    show s.led = { s.led with reading := false }
    rw [← show s.led.reading = false from hr]
  rw [hback]
  rfl

/-- What a read of a file that is not a device returns. -/
def ReadOk (sb : Superblock) (s : Fs) (ip : Iptr) (off : ℕ) (r : Option (List UInt8))
  (v : Volume) : Prop := ∀ bs, r = some bs → bs = v.bytes (s.icache ip).inum off bs.length ∧
    off + bs.length ≤ (v.ino (s.icache ip).inum).size.toNat ∧ v.Keeps sb (s.icache ip).inum

theorem readi_at (h : At good K sb c s) (hK : Stable c.proc c.refs K) (hi : (ip, ty) ∈ c.locks)
    (off n : ℕ) : wp (readi ip off n) (fun r t => At good K sb c t ∧ (ty ≠ tDev → good → t = s ∧
      ∃ v, Content sb v s ∧ K v s.led ∧ ReadOk sb s ip off r v)) (Stops good) s := by
  have htype := h.type_of_lock hi
  by_cases hd : ty = tDev
  · subst hd
    simp only [readi, wp_run, htype, consoleread]
    split
    · exact ⟨h, fun hne => absurd rfl hne⟩
    · refine wp_imp (relock_at h hK hi) fun _ t ht => wp_imp ht fun _ u hu => ⟨hu.1, ?_⟩
      exact fun hne => absurd rfl hne
  have hrule : good → wp (readi ip off n) (fun r t => t = s ∧
      ∃ v, Content sb v s ∧ K v s.led ∧ ReadOk sb s ip off r v) Good s := by
    intro hg
    obtain ⟨v, hv, hk⟩ := h.content hg
    have hkeep := hv.keeps_of_lock h hi hd
    refine wp_imp (readi_file hv.rep hv.ok.toBase hkeep (h.caches_of_lock hi)
      h.ledger.reading off n) ?_
    rintro r t ⟨ht, hbs⟩
    exact ⟨ht, v, hv, hk, fun bs hr => ⟨(hbs bs hr).1, (hbs bs hr).2, hkeep⟩⟩
  refine wp_imp (wp_stops (readi_led (htype ▸ hd) h.ledger.reading off n) hrule) ?_
  rintro r t ⟨hled, hgood⟩
  refine ⟨⟨hled ▸ h.ledger, fun hg => ?_⟩, fun _ => hgood⟩
  rw [(hgood hg).1]
  exact h.content hg

variable {msg : String}

theorem readDirent_at (h : At good K sb c s) (hK : Stable c.proc c.refs K) (hi : (dp, tDir) ∈ c.locks)
    (hoff : off % direntSize = 0) (hmsg : msg ∉ lowPanics) :
    wp (readDirent dp off msg) (fun de t => At good K sb c t ∧ (good → de.inum < sb.ninodes))
      (Stops good) s := by
  simp only [readDirent, wp_bind]
  refine wp_imp (readi_at h hK hi off direntSize) ?_
  rintro r t ⟨ht, hread⟩
  rcases r with _ | bs
  · exact ht.panic hmsg
  simp only [wp_run]
  split
  · next hlen =>
    refine ⟨ht, fun hg => ?_⟩
    obtain ⟨-, v, hv, -, hok⟩ := hread (by decide) hg
    obtain ⟨hbs, hsize, hkeep⟩ := hok bs rfl
    rw [hlen] at hbs hsize
    -- the entry is the one at `off / direntSize` of the directory
    have hk : direntSize * (off / direntSize) = off := Nat.mul_div_cancel' (Nat.dvd_of_mod_eq_zero hoff)
    have hnamed := hv.ok.named _ hkeep (hv.type_of_lock h hi) (off / direntSize)
      (by rw [hk]; exact hsize)
    rw [hk] at hnamed
    refine lt_of_eq_of_lt (le_congr fun k hk => ?_) hnamed
    have hk16 : 0 + k < direntSize := by
      unfold direntSize
      omega
    simp only [hbs, Volume.bytes, List.getD_eq_getElem?_getD, List.getElem?_map,
      List.getElem?_range hk16, Option.map_some, Option.getD_some]
  · exact ht.panic hmsg

/-! ## Looking up a name -/

theorem At.dev_of_lock (h : At good K sb c s) (hi : (ip, ty) ∈ c.locks) : (s.icache ip).dev = rootdev :=
  (h.ledger.fits ip).dev (h.pos_of_lock hi)

/-- The entry found, with its inode, is the first one of the name in directory `i`. -/
def Finds (v : Volume) (i : ℕ) (name : Name) (r : Option (ℕ × Iptr)) (t : Fs) : Prop :=
  r.map (fun x => (x.1, (t.icache x.2).inum)) =
    (scan name (v.entries i)).map fun x => (direntSize * x.1, x.2)

section

variable (h : At good K sb c s) (hK : Stable c.proc c.refs K)

include h hK

theorem dirScan_at (hi : (dp, tDir) ∈ c.locks) (name : Name)
    (fuel : ℕ) (hoff : off % direntSize = 0) :
    wp (dirScan dp name fuel off) (fun r t => match r with
        | none => At good K sb c t
        | some (o, ip) => At good K sb { c with refs := ip ::ₘ c.refs } t ∧ o % direntSize = 0)
      (Stops good) s := by
  induction fuel generalizing s off with
  | zero => exact h
  | succ fuel ih =>
    simp only [dirScan, wp_run]
    split
    · refine wp_imp (readDirent_at h hK hi hoff (by decide)) ?_
      rintro de t ⟨ht, hinum⟩
      split
      · rw [ht.dev_of_lock hi]
        refine wp_imp (iget_at ht hK de.inum hinum) ?_
        rintro ip u ⟨hu, -⟩
        exact ⟨hu, hoff⟩
      · refine ih ht ?_
        rw [Nat.add_mod_right]
        exact hoff
    · exact h

theorem dirlookup_at (hi : (dp, ty) ∈ c.locks) (name : Name) : wp (dirlookup dp name)
      (fun r t => ty = tDir ∧ (∀ v, Content sb v s → Finds v (s.icache dp).inum name r t) ∧
        match r with
        | none => At good K sb c t
        | some (o, ip) => At good K sb { c with refs := ip ::ₘ c.refs } t ∧ o % direntSize = 0)
      (Stops good) s := by
  by_cases hty : ty = tDir
  · subst hty
    have hscan := dirScan_at h hK hi name (dirRounds (s.icache dp).size) (Nat.zero_mod _)
    have hrun : dirlookup dp name s = dirScan dp name (dirRounds (s.icache dp).size) 0 s := by
      simp only [dirlookup, bind, EStateM.bind, get, getThe, MonadStateOf.get, EStateM.get,
        h.type_of_lock hi, ne_eq, not_true_eq_false, if_false]
    refine wp_iff.2 ⟨fun r t hr => ⟨rfl, fun v hv => ?_, wp_ok hscan (hrun ▸ hr)⟩,
      fun e t he => wp_error hscan (hrun ▸ he)⟩
    have hrule : wp (dirlookup dp name) (Finds v (s.icache dp).inum name) (fun _ _ => True) s := by
      refine dirlookup_rule hv.rep hv.ok.toBase (hv.keeps_of_lock h hi (by decide))
        (h.caches_of_lock hi)
        h.ledger.reading (hv.type_of_lock h hi) (fun m inum hm => ?_)
          (fun hm => ?_) fun _ _ _ => trivial
      · refine wp_lax (iget_inum _ inum) fun ip t ht => ?_
        simp [Finds, hm, ht]
      · simp [Finds, hm]
    exact wp_ok hrule hr
  · simp only [dirlookup, Blocks.panic, wp_run, h.type_of_lock hi]
    rw [if_pos hty]
    exact h.panic (by decide)

theorem emptyScan_at (hi : (dp, tDir) ∈ c.locks) (fuel : ℕ) (hoff : off % direntSize = 0) :
    wp (emptyScan dp fuel off) (fun o t => At good K sb c t ∧ o % direntSize = 0) (Stops good) s := by
  induction fuel generalizing s off with
  | zero => exact ⟨h, hoff⟩
  | succ fuel ih =>
    simp only [emptyScan, wp_run]
    split
    · refine wp_imp (readDirent_at h hK hi hoff (by decide)) ?_
      rintro de t ⟨ht, -⟩
      split
      · exact ⟨ht, hoff⟩
      · refine ih ht ?_
        rw [Nat.add_mod_right]
        exact hoff
    · exact ⟨h, hoff⟩

theorem emptyFrom_at (hi : (dp, tDir) ∈ c.locks) (fuel : ℕ) (hoff : off % direntSize = 0) :
    wp (emptyFrom dp fuel off) (fun _ t => At good K sb c t) (Stops good) s := by
  induction fuel generalizing s off with
  | zero => exact h
  | succ fuel ih =>
    simp only [emptyFrom, wp_run]
    split
    · refine wp_imp (readDirent_at h hK hi hoff (by decide)) ?_
      rintro de t ⟨ht, -⟩
      split
      · exact ht
      · refine ih ht ?_
        rw [Nat.add_mod_right]
        exact hoff
    · exact h

theorem inUseDir_at (hi : (ip, ty) ∈ c.locks) :
    wp (inUseDir ip) (fun _ t => At good K sb c t) (Stops good) s := by
  simp only [inUseDir, isdirempty, wp_run, h.type_of_lock hi]
  split
  · next hty =>
    subst hty
    exact wp_imp (emptyFrom_at h hK hi _ (by decide)) fun _ t ht => ht
  · exact h

end

/-! ## Paths -/

/-- The inode that the elements lead to from inode `i`, or its parent and the last element. -/
def Volume.walk (v : Volume) (parent : Bool) : ℕ → List Name → Option (ℕ × Name)
  | i, [] => if parent then none else some (i, [])
  | i, name :: rest =>
    if (v.ino i).type ≠ tDir then none
    else if parent ∧ rest = [] then some (i, name)
    else (scan name (v.entries i)).bind fun x => v.walk parent x.2 rest

/-- The path leads to a directory that has no entry of the last name. -/
def Volume.lacks (v : Volume) (i : ℕ) (path : List Char) : Bool :=
  (v.walk true i (elems path)).any fun x => (scan x.2 (v.entries x.1)).isNone

/-- Where the path starts. -/
def Fs.start (s : Fs) (p : Pid) (path : List Char) : ℕ :=
  if absolute path then rootino else (s.icache (s.cwd p)).inum

/-- What a call holds after a path has been looked up. -/
def Walked (good : Prop) (K : Volume → Led → Prop) (sb : Superblock) (c : Ctx)
    (r : Option (Iptr × Name)) (t : Fs) : Prop :=
  match r with
  | none => At good K sb c t
  | some (ip, _) => At good K sb { c with refs := ip ::ₘ c.refs } t

theorem namexFrom_at (hK : Stable c.proc c.refs K) (hput : Puts good K sb) (ho : 1 ≤ c.out)
    (hp : c.proc = none) (parent : Bool) (names : List Name)
    (h : At good K sb { c with refs := ip ::ₘ c.refs } s) :
    wp (namexFrom parent ip names) (fun r t => Walked good K sb c r t ∧ Fixed good K fun v =>
      r.map (fun x => ((t.icache x.1).inum, x.2)) = v.walk parent (s.icache ip).inum names)
      (Stops good) s := by
  induction names generalizing s ip with
  | nil =>
    simp only [namexFrom]
    split
    · next hpar =>
      simp only [wp_run]
      refine wp_imp (iput_at h hK ho (hput c _ s ip hp h)) fun _ t ht => ⟨ht, fun _ v _ => ?_⟩
      simp [Volume.walk, hpar]
    · next hpar => exact ⟨h, fun _ v _ => by simp [Volume.walk, hpar]⟩
  | cons name rest ih =>
    simp only [namexFrom, wp_run]
    refine wp_imp (ilock_at h (hK.cons ip) ip) ?_
    rintro _ t ⟨ty, ht, hne, -, hinum, -⟩
    have hi : (ip, ty) ∈ ((ip, ty) :: c.locks) := List.mem_cons_self
    have htype := ht.type_of_lock hi
    -- the copy of the inode has the type that the volume has
    have hino : good → ∀ v, (∀ v' l, K v' l → v' = v) → (v.ino (s.icache ip).inum).type = ty :=
      fun hg v hfix => hinum ▸ (ht.fixed hg hfix).type_of_lock ht hi
    rw [htype]
    split
    · next hdir =>
      refine wp_imp (iunlockput_at ht hK hne ho hput hp) fun _ u hu => ⟨hu, fun hg v hfix => ?_⟩
      simp [Volume.walk, hino hg v hfix, hdir]
    next hdir =>
    have hdir := not_not.1 hdir
    split
    · next hlast =>
      refine wp_imp (iunlock_at ht (hK.cons ip) ip (mem_unlock hne)) ?_
      rintro _ u ⟨hu, -, -, hinum', -⟩
      refine ⟨hu, fun hg v hfix => ?_⟩
      simp [Volume.walk, hino hg v hfix, hdir, hlast, hinum', hinum]
    next hlast =>
    refine wp_imp (dirlookup_at ht (hK.cons ip) hi name) ?_
    rintro r u ⟨-, hfinds, hu⟩
    have hwalk : ∀ {v}, good → (∀ v' l, K v' l → v' = v) → v.walk parent (s.icache ip).inum
      (name :: rest) =
        (scan name (v.entries (s.icache ip).inum)).bind fun x => v.walk parent x.2 rest := by
      intro v hg hfix
      simp only [Volume.walk, hino hg v hfix, hdir, ne_eq, not_true_eq_false, if_false, hlast]
    rw [hinum] at hfinds
    rcases r with _ | r
    · simp only [wp_run]
      refine wp_imp (iunlockput_at hu hK hne ho hput hp) fun _ w hw => ⟨hw, fun hg v hfix => ?_⟩
      have hnone := hfinds v (ht.fixed hg hfix)
      rw [Finds, Option.map_none, eq_comm, Option.map_eq_none_iff] at hnone
      show none = _
      rw [hwalk hg hfix, hnone]
      rfl
    obtain ⟨o, next⟩ := r
    have hu := hu.1
    simp only [Multiset.cons_swap next ip] at hu
    simp only [wp_bind]
    refine wp_imp (wp_also (iunlockput_at hu (hK.cons next) hne ho hput hp)
      (iunlockput_inum ip next u)) ?_
    rintro _ w ⟨hw, hnext⟩
    refine wp_imp (ih hw) fun r x hx => ⟨hx.1, fun hg v hfix => ?_⟩
    obtain ⟨⟨m, j⟩, hscan, heq⟩ := Option.map_eq_some_iff.1 (hfinds v (ht.fixed hg hfix)).symm
    have hj : j = (u.icache next).inum := (Prod.mk.inj heq).2
    rw [hwalk hg hfix, hscan, hx.2 hg v hfix, hnext, ← hj]
    rfl

section

variable (h : At good K sb c s) (hK : Stable c.proc c.refs K) (hput : Puts good K sb)
    (ho : 1 ≤ c.out) (hp : c.proc = none) {p : Pid} (hlive : c.live p = true) (path : List Char)

include h hK hput ho hp hlive

theorem namex_at (parent : Bool) :
    wp (namex p path parent) (fun r t => Walked good K sb c r t ∧ Fixed good K fun v =>
      r.map (fun x => ((t.icache x.1).inum, x.2)) = v.walk parent (s.start p path) (elems path))
      (Stops good) s := by
  simp only [namex, Fs.start, wp_run]
  split
  · have hroot : good → rootino < sb.ninodes := fun hg => by
      obtain ⟨v, hv, -⟩ := h.content hg
      exact hv.laid.root
    refine wp_imp (iget_at h hK rootino hroot) ?_
    rintro ip t ⟨ht, hinum, -⟩
    rw [← hinum]
    exact namexFrom_at hK hput ho hp parent _ ht
  · have hhold : s.led.holds c.proc (.inr p) = some (s.cwd p) := by
      rw [hp]
      exact if_pos ⟨(congrFun h.ledger.procs.1 p).trans hlive, nofun⟩
    have hinum : wp (idup (s.cwd p)) (fun _ t => (t.icache (s.cwd p)).inum = (s.icache (s.cwd p)).inum)
        (fun _ _ => True) s := setHandle_inum rfl
    refine wp_imp (wp_also (idup_at h hK (h.ledger.refs.pos_of_hold hhold)) hinum) ?_
    rintro _ t ⟨ht, hinum⟩
    rw [← hinum]
    exact namexFrom_at hK hput ho hp parent _ ht

theorem namei_at : wp (namei p path) (fun r t => match r with
      | none => At good K sb c t
      | some ip => At good K sb { c with refs := ip ::ₘ c.refs } t) (Stops good) s := by
  simp only [namei, wp_run]
  refine wp_imp (namex_at h hK hput ho hp hlive path false) ?_
  rintro r t ⟨ht, -⟩
  cases r with
  | none => exact ht
  | some r => exact ht

end

/-! ## Writing -/

/-- The state of a call about whose volume nothing more is known. -/
abbrev Now (good : Prop) (sb : Superblock) (c : Ctx) (s : Fs) : Prop := At good Any sb c s

theorem At.now (h : At good K sb c s) : Now good sb c s := h.know fun _ _ _ => trivial

/-- What is known before and after a change of the content of a file. -/
def Writes (K K' : Volume → Led → Prop) : Prop := ∀ v v' l i, v.Rewritten v' i → K v l → K' v' l

theorem writes_any : Writes K Any := fun _ _ _ _ _ _ => trivial

theorem At.write (h : At good K sb c s) (hled : t.led = s.led)
    (hgood : good → ∃ v v', Content sb v s ∧ Rep sb v' v'.ino t ∧ v'.Ok sb ∧ s.Moves v v' ∧
    K' v' t.led) :
    At good K' sb c t := by
  refine ⟨hled ▸ h.ledger, fun hg => ?_⟩
  obtain ⟨v, v', hv, hrep, hok, hmove, hk⟩ := hgood hg
  exact ⟨v', hv.move hrep hok hmove hled, hk⟩

theorem writei_led (hd : (s.icache ip).type ≠ tDev) (src : List UInt8) (off : ℕ) :
    wp (writei ip src off) (fun _ t => t.led = s.led) Low s := by
  simp only [writei, wp_run, hd]
  split
  · trivial
  split
  · trivial
  refine (frame_writeLoop _ _ _ _).step rfl fun _ t ht => ?_
  split
  · exact (frame_iupdate _).step (led_setCopy ht rfl) fun _ _ hu => hu
  · exact ht

/-- What a write to a file that is not a device does to its bytes. -/
theorem writei_puts (h : At good K sb c s) (hi : (ip, ty) ∈ c.locks) (hd : ty ≠ tDev)
    (ho : 1 ≤ c.out) {src : List UInt8}
    (hfit : good → ty = tDir → off % direntSize = 0 ∧
      ∃ e : Dirent, src = direntBytes e ∧ e.inum < sb.ninodes) :
    wp (writei ip src off) (fun r t => t.led = s.led ∧ (good → ∃ v v', Content sb v s ∧ K v s.led ∧
      Content sb v' t ∧ v.Rewritten v' (s.icache ip).inum ∧
      (off ≤ (v.ino (s.icache ip).inum).size.toNat → off + src.length ≤ maxfile * bsize →
        r = some src.length ∧ v.Put v' (s.icache ip).inum off src))) (Stops good) s := by
  have htype := h.type_of_lock hi
  have hrule : good → wp (writei ip src off) (fun r t => ∃ v v', Content sb v s ∧ K v s.led ∧
      Content sb v' t ∧ v.Rewritten v' (s.icache ip).inum ∧
      (off ≤ (v.ino (s.icache ip).inum).size.toNat → off + src.length ≤ maxfile * bsize →
        r = some src.length ∧ v.Put v' (s.icache ip).inum off src)) Good s := by
    intro hg
    obtain ⟨v, hv, hk⟩ := h.content hg
    have hfits : v.Fits sb (s.icache ip).inum off src := fun hdir =>
      hfit hg ((hv.type_of_lock h hi).symm.trans hdir)
    refine wp_imp (writei_file hv.rep hv.laid hv.ok.toBase (hv.keeps_of_lock h hi hd)
      (h.caches_of_lock hi) (by rw [h.outstanding]; exact ho) h.ledger.reading src off) ?_
    rintro r t ⟨v', hrep, ⟨-, hok⟩, ⟨hre, hled⟩, hput⟩
    exact ⟨v, v', hv, hk, hv.move hrep (hok hv.ok hfits) (.of_lock (h.locked hi) hre.type hre.ino)
      hled, hre, hput⟩
  exact wp_stops (writei_led (htype ▸ hd) src off) hrule

section

variable (h : At good K sb c s) (hK : Stable c.proc c.refs K) (hW : Writes K K')

include h hK hW

theorem writei_at (hi : (ip, ty) ∈ c.locks) (ho : 1 ≤ c.out) {src : List UInt8}
    (hfit : good → ty = tDir → off % direntSize = 0 ∧
      ∃ e : Dirent, src = direntBytes e ∧ e.inum < sb.ninodes) :
    wp (writei ip src off) (fun _ t => At good K' sb c t ∧ t.ftable = s.ftable) (Stops good) s := by
  have htype := h.type_of_lock hi
  have hsame : ∀ u, At good K sb c u → At good K' sb c u := fun u hu =>
    hu.know fun v _ hk => hW v v _ 0 (.refl v 0) hk
  by_cases hd : ty = tDev
  · subst hd
    simp only [writei, wp_run, htype, consolewrite]
    split
    · exact ⟨hsame s h, trivial⟩
    · exact wp_imp (relock_at h hK hi) fun _ t ht => wp_imp ht fun _ u hu => ⟨hsame u hu.1, hu.2⟩
  · refine wp_imp (writei_puts h hi hd ho hfit) ?_
    rintro _ t ⟨hled, hgood⟩
    refine ⟨⟨hled ▸ h.ledger, fun hg => ?_⟩, congrArg Led.ftable hled⟩
    obtain ⟨v, v', -, hk, hv', hre, -⟩ := hgood hg
    rw [hled]
    exact ⟨v', hv', hW v v' _ _ hre hk⟩

theorem writeDirent_at
    (hi : (dp, tDir) ∈ c.locks) (ho : 1 ≤ c.out) (hoff : off % direntSize = 0) {e : Dirent}
    (he : good → e.inum < sb.ninodes) (hmsg : msg ∉ lowPanics) :
    wp (writeDirent dp off e msg) (fun _ t => At good K' sb c t) (Stops good) s := by
  simp only [writeDirent, Blocks.panic, wp_bind]
  refine wp_imp (writei_at h hK hW hi ho fun hg _ => ⟨hoff, e, rfl, he hg⟩) ?_
  rintro r t ⟨ht, -⟩
  simp only [wp_run]
  split
  · exact ht.panic hmsg
  · exact ht

/-- `dirlink` changes nothing if it fails. -/
theorem dirlink_at
    (hput : Puts good K sb) (hp : c.proc = none) (hi : (dp, ty) ∈ c.locks) (ho : 1 ≤ c.out)
    (name : Name) {inum : ℕ} (hinum : good → inum < sb.ninodes) :
    wp (dirlink dp name inum) (fun r t => match r with
      | false => At good K sb c t
      | true => At good K' sb c t) (Stops good) s := by
  simp only [dirlink, wp_bind]
  refine wp_imp (dirlookup_at h hK hi name) ?_
  rintro r t ⟨rfl, -, ht⟩
  cases r with
  | some r =>
    obtain ⟨o, ip⟩ := r
    simp only [wp_run]
    exact iput_at ht.1 hK ho (hput c _ t ip hp ht.1)
  | none =>
    simp only [wp_run]
    refine wp_imp (emptyScan_at ht hK hi _ (Nat.zero_mod _)) ?_
    rintro o u ⟨hu, hoff⟩
    exact writeDirent_at hu hK hW hi ho hoff hinum (by decide)

end

theorem recopy_at (h : At good K sb c s) (hi : (ip, ty) ∈ c.locks) (ho : 1 ≤ c.out) {d : Dinode}
    (htype : d.type = (s.icache ip).type) (hsize : d.size = (s.icache ip).size)
    (haddrs : d.addrs = (s.icache ip).addrs)
    (hK : ∀ v, Content sb v s → K v s.led → K' (v.setIno (s.icache ip).inum d) s.led) :
    wp (iupdate ip) (fun _ t => At good K' sb c t) (Stops good) (s.setCopy ip d) := by
  have hled : (s.setCopy ip d).led = s.led := setCopy_led s htype
  have hc := h.caches_of_lock hi
  have hrule : good → wp (iupdate ip) (fun _ t => ∃ v v', Content sb v s ∧ Rep sb v' v'.ino t ∧
      v'.Ok sb ∧ s.Moves v v' ∧ K' v' s.led) Good (s.setCopy ip d) := by
    intro hg
    obtain ⟨v, hv, hk⟩ := h.content hg
    have hcopy := hv.rep.copy ip _ hc
    have hlt := hv.lt ip hc.1
    refine wp_imp (iupdate_rule (hv.rep.setCopy hc d) hv.laid hlt (by simpa using hc)
      (by show 1 ≤ s.outstanding; rw [h.outstanding]; exact ho)) ?_
    rintro _ t ⟨hrep, -, -⟩
    have hino : Function.update v.ino (s.icache ip).inum ((v.setIno (s.icache ip).inum d).ino
        (s.icache ip).inum) = (v.setIno (s.icache ip).inum d).ino := by
      rw [Volume.setIno_ino_self]
      rfl
    rw [hino] at hrep
    refine ⟨v, _, hv, hrep, hv.ok.relabel hlt ?_ ?_ ?_,
      .of_lock (h.locked hi) ?_ fun j hj => v.setIno_ino_of_ne hj d, hK v hv hk⟩
    · rw [htype, hcopy]
    · rw [hsize, hcopy]
    · rw [haddrs, hcopy]
    · rw [Volume.setIno_ino_self, htype, hcopy]
  refine wp_imp (wp_stops (frame_iupdate ip _) hrule) ?_
  rintro _ t ⟨ht, hgood⟩
  refine h.write (ht.trans hled) fun hg => ?_
  rw [ht.trans hled]
  exact hgood hg

/-- `n` more links to inode `i`. -/
def Volume.addLink (v : Volume) (i : ℕ) (n : Int16) : Volume :=
  v.setIno i { v.ino i with nlink := (v.ino i).nlink + n }

theorem addLink_at (h : At good K sb c s) (hi : (ip, ty) ∈ c.locks) (ho : 1 ≤ c.out) (n : Int16)
    (hK : ∀ v, K v s.led → K' (v.addLink (s.icache ip).inum n) s.led) :
    wp (addLink ip n) (fun _ t => At good K' sb c t) (Stops good) s := by
  simp only [addLink, wp_run]
  refine recopy_at h hi ho rfl rfl rfl fun v hv hk => ?_
  rw [hv.rep.copy ip _ (h.caches_of_lock hi)]
  exact hK v hk

theorem any_addLink {l : Led} {n : Int16} (v : Volume) (h : Any v l) : Any (v.addLink i n) l := h

/-! ## Making an inode -/

/-- Inode `i` has been made with this type; nothing is said of directories. -/
def Made (i : ℕ) (type : Int16) (v : Volume) (_ : Led) : Prop :=
  type ≠ tDir → (v.ino i).type = type ∧ (v.ino i).nlink ≠ 0

variable {type : Int16}

theorem stable_made {o : Option Pid} : Stable o T (Made i type) := fun _ _ _ _ _ _ _ _ _ _ hk => hk

theorem writes_made : Writes (Made i type) (Made i type) := by
  intro v v' l j hre hk hd
  rw [hre.type_eq, hre.nlink_eq]
  exact hk hd

theorem puts_made : Puts good (Made i type) sb := by
  intro c R s ip _ _ _ v j l' hk _ _ hn _ hd
  have hij : i ≠ j := by
    rintro rfl
    exact (hk hd).2 hn
  rw [v.free_ino_of_ne hij]
  exact hk hd

theorem putDinode_at (h : At good K sb c s) (ho : 1 ≤ c.out) (type : Int16)
    (hi : i < s.sb.ninodes) (hfree : (s.dinode i).type = 0) :
    wp (putDinode i (.fresh type)) (fun _ t => At good (fun v _ => (v.ino i).type = type) sb c t)
      (Stops good) s := by
  have hrule : good → wp (putDinode i (.fresh type)) (fun _ t => ∃ v v', Content sb v s ∧
      Rep sb v' v'.ino t ∧ v'.Ok sb ∧ s.Moves v v' ∧ (v'.ino i).type = type) Good s := by
    intro hg
    obtain ⟨v, hv, -⟩ := h.content hg
    have hout : 1 ≤ s.outstanding := by rwa [h.outstanding]
    obtain rfl := hv.rep.sb_eq
    have hzero : (v.ino i).type = 0 := by rw [← hv.rep.ino i hi, hfree]
    have hino : ∀ j, j ≠ i → (v.setIno i (.fresh type)).ino j = v.ino j := fun j hj =>
      v.setIno_ino_of_ne hj _
    have hself : (v.setIno i (.fresh type)).ino i = .fresh type := Volume.setIno_ino_self ..
    -- no entry of the inode cache holds a copy of a free inode
    have hcopy : ∀ ip j, (s.icache ip).Caches j →
        (s.icache ip).toDinode = (v.setIno i (.fresh type)).ino j := by
      intro ip j hc
      have hj : j ≠ i := fun heq => hv.valid ip i (heq ▸ hc) hzero
      rw [hino j hj]
      exact hv.rep.copy ip j hc
    simp only [putDinode, wp_run]
    refine wp_imp (modifyBlk_rule hv.rep.histOk hout _ _) ?_
    rintro _ _ ⟨lh, rfl⟩
    have hused : (v.setIno i (.fresh type)).used = v.used := rfl
    have hrep := (hv.rep.putDinode hv.laid hi hused rfl hcopy (fun _ => hself.symm) hino).setLh lh
    refine ⟨v, v.setIno i (.fresh type), hv, hrep, hv.ok.blank (fun k => ?_) (fun _ => rfl) rfl,
      fun j hj => ?_, ?_⟩
    · exact Volume.own_none_of_not fun hk => hk.2.1 hzero
    · rw [hino j fun heq => hj (heq ▸ hzero)]
      exact ⟨rfl, fun _ => rfl⟩
    · rw [hself]
      rfl
  refine wp_imp (wp_stops (frame_putDinode i _ s) hrule) ?_
  rintro _ t ⟨hled, hgood⟩
  exact h.write hled hgood

/-- A free inode of the volume. -/
def FreeInode (good : Prop) (K : Volume → Led → Prop) (sb : Superblock) (i : ℕ) : Prop :=
  good → i < sb.ninodes ∧ ∃ v l, K v l ∧ (v.ino i).type = 0

theorem newInode_at (h : At good K sb c s) (ho : 1 ≤ c.out) (type major minor : Int16) :
    wp (newInode rootdev type major minor) (fun ip t => ∃ i ty, FreeInode good K sb i ∧
      At good (Made i type) sb { c with refs := ip ::ₘ c.refs, locks := (ip, ty) :: c.locks } t ∧
      (∀ x ∈ c.locks, x.1 ≠ ip) ∧ (good → ty = type)) (Stops good) s := by
  simp only [newInode, ialloc, wp_bind, wp_get]
  split
  · exact h.panic (by decide)
  next i hfind =>
  have hi : i < s.sb.ninodes := by
    have hmem := List.mem_range'_1.1 (List.mem_of_find?_eq_some hfind)
    omega
  have hfree : (s.dinode i).type = 0 := by simpa using List.find?_some hfind
  have hK : ∀ {R}, Stable c.proc R fun v _ => (v.ino i).type = type :=
    fun _ _ _ _ _ _ _ _ _ _ hk => hk
  have hnew : FreeInode good K sb i := fun hg => by
    obtain ⟨v, hv, hk⟩ := h.content hg
    obtain rfl := hv.rep.sb_eq
    exact ⟨hi, v, s.led, hk, by rw [← hv.rep.ino i hi, hfree]⟩
  simp only [wp_bind]
  refine wp_imp (putDinode_at h ho type hi hfree) ?_
  intro _ t ht
  refine wp_imp (iget_at ht hK i fun hg => (hnew hg).1) ?_
  rintro ip u ⟨hu, hinum, -⟩
  refine wp_imp (ilock_at hu hK ip) ?_
  rintro _ w ⟨ty, hw, hne, -, hinum', -⟩
  have hmem : (ip, ty) ∈ ((ip, ty) :: c.locks) := List.mem_cons_self
  have hty : good → ty = type := fun hg => by
    obtain ⟨v, hv, hk⟩ := hw.content hg
    rw [← hv.type_of_lock hw hmem, hinum', hinum]
    exact hk
  simp only [wp_modify, wp_pure]
  refine wp_imp (recopy_at hw hmem ho rfl rfl rfl fun v hv hk => ?_) fun _ x
    (hx : At good (Made i type) sb _ x) => ⟨i, ty, hnew, hx, hne, hty⟩
  intro _
  rw [hinum', hinum, Volume.setIno_ino_self]
  refine ⟨?_, (by decide : (1 : Int16) ≠ 0)⟩
  show (w.icache ip).type = type
  rw [hw.type_of_lock hmem, ← hv.type_of_lock hw hmem, hinum', hinum]
  exact hk

theorem At.inum_lt_of_lock (h : At good K sb c s) (hi : (ip, ty) ∈ c.locks) (hg : good) :
    (s.icache ip).inum < sb.ninodes := by
  obtain ⟨v, hv, -⟩ := h.content hg
  exact hv.lt ip (h.pos_of_lock hi)

theorem mustLink_at (h : At good K sb c s) (hK : Stable c.proc c.refs K) (hW : Writes K K)
    (hput : Puts good K sb) (hp : c.proc = none) (hi : (dp, ty) ∈ c.locks) (ho : 1 ≤ c.out)
    (name : Name) {inum : ℕ} (hinum : good → inum < sb.ninodes) (hmsg : msg ∉ lowPanics) :
    wp (mustLink dp name inum msg) (fun _ t => At good K sb c t) (Stops good) s := by
  simp only [mustLink, wp_bind]
  refine wp_imp (dirlink_at h hK hW hput hp hi ho name hinum) ?_
  intro r t ht
  cases r with
  | true => exact ht
  | false => exact ht.panic hmsg

theorem createNew_at (h : At good K sb { c with refs := dp ::ₘ T, locks := (dp, ty) :: L } s)
    (hL : ∀ x ∈ L, x.1 ≠ dp) (ho : 1 ≤ c.out) (hp : c.proc = none) (name : Name)
    (type major minor : Int16) :
    wp (createNew dp name type major minor) (fun ip t => ∃ i ty, FreeInode good K sb i ∧
      At good (Made i type) sb { c with refs := ip ::ₘ T, locks := (ip, ty) :: L } t ∧
      (∀ x ∈ L, x.1 ≠ ip) ∧ (good → ty = type)) (Stops good) s := by
  have hdp : (dp, ty) ∈ ((dp, ty) :: L) := List.mem_cons_self
  simp only [createNew, wp_bind, wp_get]
  rw [h.dev_of_lock hdp]
  refine wp_imp (newInode_at h ho type major minor) ?_
  rintro ip t ⟨i, ty', hnew, ht, hne, hty⟩
  have hip : (ip, ty') ∈ ((ip, ty') :: (dp, ty) :: L) := List.mem_cons_self
  have hdp' : (dp, ty) ∈ ((ip, ty') :: (dp, ty) :: L) := List.mem_cons_of_mem _ List.mem_cons_self
  have hlink : ∀ {u : Fs} {d : Iptr} {tyd : Int16} {n : Name} {inum : ℕ} {msg : String}, At good
      (Made i type) sb { c with refs := ip ::ₘ dp ::ₘ T, locks := (ip, ty') :: (dp, ty) :: L } u →
      (d, tyd) ∈ ((ip, ty') :: (dp, ty) :: L) → (good → inum < sb.ninodes) →
      msg ∉ lowPanics →
      wp (mustLink d n inum msg) (fun _ w => At good (Made i type) sb
        { c with refs := ip ::ₘ dp ::ₘ T, locks := (ip, ty') :: (dp, ty) :: L } w) (Stops good) u :=
    fun hu hd hinum hmsg => mustLink_at hu stable_made writes_made puts_made hp hd ho _ hinum hmsg
  -- the entry in the parent
  have hrest : ∀ u, At good (Made i type) sb
      { c with refs := ip ::ₘ dp ::ₘ T, locks := (ip, ty') :: (dp, ty) :: L } u →
      wp (mustLink dp name (u.icache ip).inum "create: dirlink") (fun _ w => wp (iunlockput dp)
        (fun _ x => ∃ i ty, FreeInode good K sb i ∧
          At good (Made i type) sb { c with refs := ip ::ₘ T, locks := (ip, ty) :: L } x ∧
          (∀ y ∈ L, y.1 ≠ ip) ∧ (good → ty = type)) (Stops good) w) (Stops good) u := by
    intro u hu
    refine wp_imp (hlink hu hdp' (hu.inum_lt_of_lock hip) (by decide)) ?_
    intro _ w hw
    rw [Multiset.cons_swap] at hw
    have hswap := hw.reorder (L := (dp, ty) :: (ip, ty') :: L) fun x => by
      simp only [List.mem_cons]
      tauto
    refine wp_imp (iunlockput_at hswap stable_made (fun x hx => ?_) ho puts_made hp) fun _ x hx =>
      ⟨i, ty', hnew, hx, fun y hy => hne y (List.mem_cons_of_mem _ hy), hty⟩
    rcases List.mem_cons.1 hx with rfl | hx
    · exact (hne _ hdp).symm
    · exact hL x hx
  split
  · next hdir =>
    simp only [wp_bind, wp_get, wp_pure]
    have hmade : ∀ v, Made i type v t.led → Made i type (v.addLink (t.icache dp).inum 1) t.led :=
      fun _ _ hne => absurd hdir hne
    refine wp_imp (addLink_at ht hdp' ho 1 hmade) ?_
    intro _ u hu
    refine wp_imp (hlink hu hip (hu.inum_lt_of_lock hip) (by decide)) ?_
    intro _ w hw
    refine wp_imp (hlink hw hip (hw.inum_lt_of_lock hdp') (by decide)) ?_
    intro _ x hx
    exact hrest x hx
  · simp only [wp_bind, wp_get, wp_pure]
    exact hrest t ht

/-- What a call holds after `create`: the inode was there, or the directory had no entry and the
inode is new. -/
def Created (good : Prop) (K : Volume → Led → Prop) (sb : Superblock) (c : Ctx) (type : Int16)
    (lacks : Volume → Bool) (r : Option Iptr) (t : Fs) : Prop :=
  match r with
  | none => At good K sb c t ∧ Fixed good K fun v => lacks v = false
  | some ip => ∃ K' ty, (K' = K ∧ (Fixed good K fun v => lacks v = false) ∨
        ∃ i, K' = Made i type ∧ FreeInode good K sb i ∧ Fixed good K fun v => lacks v = true) ∧
      At good K' sb { c with refs := ip ::ₘ c.refs, locks := (ip, ty) :: c.locks } t ∧
      (∀ x ∈ c.locks, x.1 ≠ ip) ∧ (good → ty = type)

theorem create_at (h : At good K sb c s) (hK : Stable c.proc c.refs K) (hput : Puts good K sb)
    (ho : 1 ≤ c.out) (hp : c.proc = none) {p : Pid} (hlive : c.live p = true) (path : List Char)
    (type major minor : Int16) :
    wp (create p path type major minor)
      (Created good K sb c type fun v => v.lacks (s.start p path) path) (Stops good) s := by
  simp only [create, nameiparent, wp_bind]
  refine wp_imp (namex_at h hK hput ho hp hlive path true) ?_
  rintro r t ⟨ht, hwalk⟩
  rcases r with _ | r
  · exact ⟨ht, fun hg v hfix => by simp [Volume.lacks, ← hwalk hg v hfix]⟩
  obtain ⟨dp, name⟩ := r
  simp only [wp_bind]
  refine wp_imp (ilock_at ht (hK.cons dp) dp) ?_
  rintro _ u ⟨ty, hu, hne, -, hinum, -⟩
  refine wp_imp (dirlookup_at hu (hK.cons dp) List.mem_cons_self name) ?_
  rintro r w ⟨-, hfinds, hw⟩
  have hlacks : Fixed good K fun v => v.lacks (s.start p path) path = r.isNone := by
    intro hg v hfix
    have hscan := congrArg Option.isNone (hfinds v (hu.fixed hg hfix))
    rw [Option.isNone_map, Option.isNone_map, hinum] at hscan
    simp [Volume.lacks, ← hwalk hg v hfix, ← hscan]
  rcases r with _ | r
  · simp only [wp_run]
    refine wp_imp (createNew_at hw hne ho hp name type major minor) ?_
    rintro ip x ⟨i, ty', hfree, hx, hne', hty⟩
    exact ⟨_, ty', .inr ⟨i, rfl, hfree, hlacks⟩, hx, hne', hty⟩
  obtain ⟨o, ip⟩ := r
  have hw := hw.1
  simp only [Multiset.cons_swap ip dp] at hw
  simp only [wp_run]
  refine wp_imp (iunlockput_at hw (hK.cons ip) hne ho hput hp) ?_
  intro _ x hx
  refine wp_imp (ilock_at hx (hK.cons ip) ip) ?_
  rintro _ y ⟨ty', hy, hne', -⟩
  have hip : (ip, ty') ∈ ((ip, ty') :: c.locks) := List.mem_cons_self
  rw [hy.type_of_lock hip]
  split
  · next hfile =>
    exact ⟨K, ty', .inl ⟨rfl, hlacks⟩, hy, hne', fun _ => hfile.2.trans hfile.1.symm⟩
  · exact wp_imp (iunlockput_at hy hK hne' ho hput hp) fun _ z hz => ⟨hz, hlacks⟩

end Xv6.Blocks

import Xv6Cow.Fs.Scan

/-!
# Rules for the inode cache

An entry in use stays with its inode; `iget` fills an entry only if no other in use has the inode;
and `iput` frees an inode only if the reference it drops is the last one.
-/

namespace Xv6.Blocks

open Function Bytes Lts Prog Refs

variable {good : Prop} {K : Volume → Led → Prop} {sb : Superblock} {c : Ctx} {v v' : Volume} {s t : Fs}
  {l : Led} {ip jp : Iptr} {i : ℕ} {ty : Int16} {R T : Multiset Iptr} {L : List (Iptr × Int16)}

section counting

variable {hold : Fid ⊕ Pid → Option Iptr} {y : Handle}

theorem balanced_same (h : Balanced (fun jp => (l.icache jp).ref) hold T)
    (hy : y.ref = (l.icache ip).ref) :
    Balanced (fun jp => (update l.icache ip y jp).ref) hold T := by
  refine h.congr (fun jp => ?_) fun _ => rfl
  by_cases hj : jp = ip
  · rw [hj, update_self, hy]
  · rw [update_of_ne hj]

theorem balanced_inc (h : Balanced (fun jp => (l.icache jp).ref) hold T)
    (hy : y.ref = (l.icache ip).ref + 1) :
    Balanced (fun jp => (update l.icache ip y jp).ref) hold (ip ::ₘ T) :=
  h.inc (by rw [update_self, hy]) fun _ hj => by rw [update_of_ne hj]

theorem balanced_dec (h : Balanced (fun jp => (l.icache jp).ref) hold (ip ::ₘ T))
    (hy : y.ref = (l.icache ip).ref - 1) :
    Balanced (fun jp => (update l.icache ip y jp).ref) hold T :=
  h.dec (by rw [update_self, hy]) fun _ hj => by rw [update_of_ne hj]

end counting

/-! ## States of a call -/

theorem Rep.congr {D : ℕ → Dinode} (h : Rep sb v D s) (hblk : t.blk = s.blk) (hsb : t.sb = s.sb)
    (hic : t.icache = s.icache) (hh : HistOk sb t.hist) : Rep sb v D t := by
  have hused : ∀ b, t.used b = s.used b := fun b => by simp only [Fs.used, hblk, hsb]
  have hino : ∀ i, t.dinode i = s.dinode i := fun i => by simp only [Fs.dinode, hblk, hsb]
  refine ⟨hsb.trans h.sb_eq, ?_, fun b hb => (hused b).trans (h.used b hb),
    fun i hi => (hino i).trans (h.ino i hi), fun b hb => ?_, ?_, ?_, ?_, hh⟩
  · rw [hblk]
    exact h.super
  · rw [hblk]
    exact h.data b hb
  · rw [hic]
    exact h.copy
  · rw [hic]
    exact h.disk
  · rw [hic]
    exact h.uniq

theorem Content.congr (h : Content sb v s) (hblk : t.blk = s.blk) (hsb : t.sb = s.sb)
    (hic : t.icache = s.icache) (hh : HistOk sb t.hist) (hlast : t.hist.last = s.hist.last)
    (hf : ∀ f ip, (t.ftable f).type = .inode ip → (t.ftable f).writable = true →
      (v.ino (s.icache ip).inum).type ≠ 0 ∧ (v.ino (s.icache ip).inum).type ≠ tDir) :
    Content sb v t := by
  refine ⟨h.laid, h.rep.congr hblk hsb hic hh, h.ok, ?_, ?_, ?_, ?_⟩
  · rw [hic]
    exact h.lt
  · rw [hic]
    exact h.valid
  · rw [hic]
    exact hf
  · rw [hlast]
    unfold Fs.Unlocked
    rw [hic]
    exact h.last

/-- No allocated inode has another type, and those that are not locked are as they were. -/
def Fs.Moves (s : Fs) (v v' : Volume) : Prop :=
  ∀ j, (v.ino j).type ≠ 0 → (v'.ino j).type = (v.ino j).type ∧ (s.Unlocked j → v'.ino j = v.ino j)

theorem Fs.Moves.of_lock (hip : (s.icache ip).locked = true)
    (htype : (v'.ino (s.icache ip).inum).type = (v.ino (s.icache ip).inum).type)
    (hino : ∀ j, j ≠ (s.icache ip).inum → v'.ino j = v.ino j) : s.Moves v v' := by
  intro j _
  by_cases hj : j = (s.icache ip).inum
  · exact ⟨hj ▸ htype, fun hun => absurd hj.symm (hun ip hip)⟩
  · rw [hino j hj]
    exact ⟨rfl, fun _ => rfl⟩

theorem Content.move (h : Content sb v s) (hrep : Rep sb v' v'.ino t) (hok : v'.Ok sb)
    (hmove : s.Moves v v') (hled : t.led = s.led) : Content sb v' t := by
  have hhandle : ∀ ip, (t.icache ip).toHandle = (s.icache ip).toHandle :=
    congrFun (congrArg Led.icache hled)
  have hft : t.ftable = s.ftable := congrArg Led.ftable hled
  have hlast : t.hist.last = s.hist.last := congrArg Led.last hled
  have hun : ∀ i, t.Unlocked i → s.Unlocked i := fun i hun ip hip => by
    have := hun ip
    rw [hhandle] at this
    exact this hip
  refine ⟨h.laid, hrep, hok, fun ip hip => ?_, fun ip i hc => ?_, fun f ip hf hw => ?_,
    fun i d hd => ?_⟩
  · rw [hhandle] at hip ⊢
    exact h.lt ip hip
  · rw [hhandle] at hc
    rw [(hmove i (h.valid ip i hc)).1]
    exact h.valid ip i hc
  · rw [hft] at hf hw
    have hold := h.writable f ip hf hw
    rw [hhandle, (hmove _ hold.1).1]
    exact hold
  · rw [hlast] at hd
    obtain ⟨⟨hlt, hne⟩, heq⟩ := h.last i d hd
    refine ⟨⟨hlt, (hmove i hne).1.symm ▸ hne⟩, fun hi => ?_⟩
    rw [(hmove i hne).2 (hun i hi)]
    exact heq (hun i hi)

namespace At

section

variable (h : At good K sb c s)

include h

theorem hist (hg : good) : HistOk s.sb s.hist := by
  obtain ⟨v, hv, -⟩ := h.content hg
  exact hv.rep.histOk

theorem panic {msg : String} (hmsg : msg ∉ lowPanics) :
    Stops good (.panic msg) s := fun hg => .panic (h.hist hg) hmsg

theorem sleeps : Stops good .sleeps s := fun hg => .sleeps (h.hist hg)

theorem congr {c' : Ctx} (hK : Stable c.proc c.refs K) (hl : Ledger c' t.led)
    (hc : c'.proc = c.proc ∧ c'.refs = c.refs) (hsame : s.led.Same t.led)
    (hcontent : ∀ v, Content sb v s → Content sb v t) : At good K sb c' t := by
  refine ⟨hl, fun hg => ?_⟩
  obtain ⟨v, hv, hk⟩ := h.content hg
  exact ⟨v, hcontent v hv, hK c c' _ _ _ h.ledger hl ⟨rfl, le_rfl⟩ ⟨hc.1, hc.2.ge⟩ hsame hk⟩

theorem reorder (hL : ∀ x, x ∈ L ↔ x ∈ c.locks) : At good K sb { c with locks := L } s := by
  refine ⟨⟨h.ledger.out, h.ledger.reading, h.ledger.refs, h.ledger.frefs, h.ledger.ends,
    fun x hx => h.ledger.locked x ((hL x).1 hx), fun ip hip => ?_, h.ledger.fits, h.ledger.uniq,
    h.ledger.idle, h.ledger.dead, h.ledger.procs, h.ledger.pages, h.ledger.used⟩, h.content⟩
  obtain ⟨ty, hty⟩ := h.ledger.held ip hip
  exact ⟨ty, (hL _).2 hty⟩

theorem outstanding : s.outstanding = c.out := h.ledger.out

end

section

variable (h : At good K sb c s) (hi : (ip, ty) ∈ c.locks)

include h hi

theorem type_of_lock : (s.icache ip).type = ty := (h.ledger.locked _ hi).2

theorem locked : (s.icache ip).locked = true := (h.ledger.locked _ hi).1

theorem valid_of_lock : (s.icache ip).valid = true := (h.ledger.fits ip).read (h.locked hi)

theorem pos_of_lock : 0 < (s.icache ip).ref := (h.ledger.fits ip).held (h.locked hi)

theorem caches_of_lock :
    (s.icache ip).Caches (s.icache ip).inum := ⟨h.pos_of_lock hi, h.valid_of_lock hi, rfl⟩

end

theorem pos_of_ref (h : At good K sb c s) (hi : ip ∈ c.refs) : 0 < (s.icache ip).ref :=
  h.ledger.refs.pos_of_mem hi

end At

theorem Content.type_of_lock (hv : Content sb v s) (h : At good K sb c s) (hi : (ip, ty) ∈ c.locks) :
    (v.ino (s.icache ip).inum).type = ty := by
  rw [← hv.rep.copy ip _ (h.caches_of_lock hi)]
  exact h.type_of_lock hi

theorem Content.keeps_of_lock (hv : Content sb v s) (h : At good K sb c s) (hi : (ip, ty) ∈ c.locks)
    (hd : ty ≠ tDev) : v.Keeps sb (s.icache ip).inum := by
  refine ⟨hv.lt ip (h.pos_of_lock hi), hv.valid ip _ (h.caches_of_lock hi), ?_⟩
  rw [hv.type_of_lock h hi]
  exact hd

/-! ## Changes of an entry -/

namespace At

theorem setInode (h : At good K sb c s) (hK : Stable c.proc R K) (hR : R ≤ c.refs ∧ R ≤ T) (x : Inode)
    (hstay : Stays s ip x)
    (hrefs : Balanced (fun jp => (update s.led.icache ip x.toHandle jp).ref) (s.led.holds c.proc) T)
    (hL : Relock c.locks L ip x.locked x.type) (hfits : x.Fits)
    (huniq : 0 < x.ref → ∀ jp, jp ≠ ip → 0 < (s.icache jp).ref → (s.icache jp).inum ≠ x.inum)
    (hcontent : good → ∀ v, Content sb v s →
      (∀ i, x.Caches i → x.toDinode = v.ino i ∧ (v.ino i).type ≠ 0) ∧ (0 < x.ref → x.inum < sb.ninodes))
    (hlast : x.locked = false → (s.icache ip).locked = true → good → ∀ v, Content sb v s →
      ∀ d, s.hist.last (s.icache ip).inum = some d → d = v.ino (s.icache ip).inum) :
    At good K sb { c with refs := T, locks := L } (s.setInode ip x) := by
  have hl : Ledger { c with refs := T, locks := L } (s.setInode ip x).led := by
    rw [setInode_led]
    exact h.ledger.setEntry _ _ hrefs hL hfits huniq
  refine ⟨hl, fun hg => ?_⟩
  obtain ⟨v, hv, hk⟩ := h.content hg
  obtain ⟨hcopy, hlt⟩ := hcontent hg v hv
  have hsame : s.led.Same (s.setInode ip x).led :=
    ⟨fun _ => rfl, rfl, rfl, rfl, fun jp hj => hstay.inum hj⟩
  exact ⟨v, hv.setInode h.ledger hstay hcopy hlt huniq fun hx hs => hlast hx hs hg v hv,
    hK _ _ _ _ _ h.ledger hl ⟨rfl, hR.1⟩ ⟨rfl, hR.2⟩ hsame hk⟩

theorem setHandle (h : At good K sb c s) (hK : Stable c.proc R K) (hR : R ≤ c.refs ∧ R ≤ T) (y : Handle)
    (hpos : 0 < (s.icache ip).ref)
    (hinum : y.inum = (s.icache ip).inum) (hvalid : y.valid = true → (s.icache ip).valid = true)
    (hrefs : Balanced (fun jp => (update s.led.icache ip y jp).ref) (s.led.holds c.proc) T)
    (hL : Relock c.locks L ip y.locked (s.icache ip).type) (hfits : y.Fits)
    (hlast : y.locked = false → (s.icache ip).locked = true → good → ∀ v, Content sb v s →
      ∀ d, s.hist.last (s.icache ip).inum = some d → d = v.ino (s.icache ip).inum) :
    At good K sb { c with refs := T, locks := L } (s.setHandle ip y) := by
  have huniq : ∀ jp, jp ≠ ip → 0 < (s.icache jp).ref → (s.icache jp).inum ≠ y.inum := by
    rw [hinum]
    exact h.ledger.apart hpos
  refine h.setInode hK hR _ (fun _ => hinum) hrefs hL hfits (fun _ => huniq)
    (fun _ v hv => ⟨?_, ?_⟩) hlast
  · intro i hc
    have hold : (s.icache ip).Caches i := ⟨hpos, hvalid hc.2.1, hinum.symm.trans hc.2.2⟩
    exact ⟨hv.rep.copy ip i hold, hv.valid ip i hold⟩
  intro _
  show y.inum < sb.ninodes
  rw [hinum]
  exact hv.lt ip hpos

end At

/-- The record of a release of the lock. -/
def Fs.recorded (s : Fs) (ip : Iptr) : Fs :=
  { s with
    hist.released := if (s.icache ip).valid then
      ((s.icache ip).toDinode, s.dinode (s.icache ip).inum) :: s.hist.released else s.hist.released
    hist.last := if (s.icache ip).valid then
      update s.hist.last (s.icache ip).inum (some (s.icache ip).toDinode) else s.hist.last }

theorem Ledger.setLast (h : Ledger c l) (last : ℕ → Option Dinode) : Ledger c { l with last := last } :=
  ⟨h.out, h.reading, h.refs, h.frefs, h.ends, h.locked, h.held, h.fits, h.uniq, h.idle, h.dead, h.procs,
    h.pages, h.used⟩

theorem Rep.recorded (h : Rep sb v v.ino s) (hpos : 0 < (s.icache ip).ref)
    (hlt : (s.icache ip).valid = true → (s.icache ip).inum < sb.ninodes) :
    Rep sb v v.ino (s.recorded ip) := by
  refine h.congr rfl rfl rfl ⟨h.hist.given, h.hist.truncated, fun x hx => ?_⟩
  simp only [Fs.recorded] at hx
  split_ifs at hx with hval
  · rcases List.mem_cons.1 hx with rfl | hx
    · rw [h.copy ip _ ⟨hpos, hval, rfl⟩, h.ino _ (hlt hval)]
    · exact h.hist.released x hx
  · exact h.hist.released x hx

theorem Content.recorded (h : Content sb v s) (hpos : 0 < (s.icache ip).ref) :
    Content sb v (s.recorded ip) := by
  have hrep := h.rep.recorded hpos fun _ => h.lt ip hpos
  by_cases hval : (s.icache ip).valid = true
  · have hc : (s.icache ip).Caches (s.icache ip).inum := ⟨hpos, hval, rfl⟩
    simp only [Fs.recorded, hval, if_true] at hrep ⊢
    refine ⟨h.laid, hrep, h.ok, h.lt, h.valid, h.writable, fun i d hd => ?_⟩
    by_cases hi : i = (s.icache ip).inum
    · subst hi
      simp only [update_self, Option.some.injEq] at hd
      subst hd
      exact ⟨⟨h.lt ip hpos, h.valid ip _ hc⟩, fun _ => h.rep.copy ip _ hc⟩
    · simp only [update_of_ne hi] at hd
      exact h.last i d hd
  · simp only [Fs.recorded, hval, Bool.false_eq_true, if_false]
    exact h

/-- The record of a release: a valid inode is as on the disk. -/
theorem At.recorded (h : At good K sb c s) (hK : Stable c.proc c.refs K)
    (hpos : 0 < (s.icache ip).ref) : At good K sb c (s.recorded ip) :=
  h.congr hK (h.ledger.setLast _) ⟨rfl, rfl⟩ ⟨fun _ => rfl, rfl, rfl, rfl, fun _ _ => rfl⟩
    fun _ hv => hv.recorded hpos

theorem At.last_recorded (hval : (s.icache ip).valid = true) (hpos : 0 < (s.icache ip).ref)
    (hv : Content sb v (s.recorded ip)) {d : Dinode}
    (hd : (s.recorded ip).hist.last (s.icache ip).inum = some d) : d = v.ino (s.icache ip).inum := by
  simp only [Fs.recorded, hval, if_true, update_self, Option.some.injEq] at hd
  rw [← hd]
  exact hv.rep.copy ip _ ⟨hpos, hval, rfl⟩

/-! ## Rules -/

/-- `ilock`: the inode was not locked before, and its type is known then. -/
theorem ilock_at (h : At good K sb c s) (hK : Stable c.proc c.refs K) (ip : Iptr) :
    wp (ilock ip) (fun _ t => ∃ ty, At good K sb { c with locks := (ip, ty) :: c.locks } t ∧
      (∀ x ∈ c.locks, x.1 ≠ ip) ∧ ((s.icache ip).valid = true → ty = (s.icache ip).type) ∧
      (t.icache ip).inum = (s.icache ip).inum ∧ t.ftable = s.ftable) (Stops good) s := by
  simp only [ilock, acquiresleep, Blocks.panic, wp_bind, wp_get, wp_ite, wp_throw, wp_set]
  by_cases href : (s.icache ip).ref < 1
  · rw [if_pos href]
    exact h.panic (by decide)
  rw [if_neg href]
  by_cases hlocked : (s.icache ip).locked = true
  · rw [if_pos hlocked]
    exact h.sleeps
  rw [if_neg hlocked]
  have hpos : 0 < (s.icache ip).ref := by omega
  have hfits := h.ledger.fits ip
  have hne : ∀ x ∈ c.locks, x.1 ≠ ip := by
    rintro x hx rfl
    exact hlocked (h.ledger.locked x hx).1
  simp only [Fs.setHandle, Fs.setInode_icache_self, Fs.setInode_setInode]
  by_cases hval : (s.icache ip).valid = true
  · rw [if_neg (not_not.2 hval)]
    refine ⟨(s.icache ip).type, h.setHandle hK ⟨le_rfl, le_rfl⟩ _ hpos rfl id
      (balanced_same h.ledger.refs rfl) (.lock hne) ⟨fun _ => hval, fun _ => hpos, hfits.dev,
      hfits.freed⟩ (by rintro ⟨⟩), hne, fun _ => rfl, ?_, rfl⟩
    rw [Fs.setInode_icache_self]
  -- the copy is read from the disk
  rw [if_pos hval]
  rw [Fs.setInode_dinode]
  split
  · exact fun hg => .panic (t := s.setInode ip _) (h.hist hg) (by decide : "ilock: no type" ∉ _)
  next htype =>
  refine ⟨(s.dinode (s.icache ip).inum).type, h.setInode hK ⟨le_rfl, le_rfl⟩ _ (fun _ => rfl)
    (balanced_same h.ledger.refs rfl) (.lock hne) ⟨fun _ => rfl, fun _ => hpos, hfits.dev, hfits.freed⟩
    (fun _ => h.ledger.apart hpos) (fun _ v hv => ⟨fun i hc => ?_, fun _ => hv.lt ip hpos⟩)
      (by rintro ⟨⟩), hne,
    fun hv => absurd hv hval, ?_, rfl⟩
  · obtain rfl : (s.icache ip).inum = i := hc.2.2
    have hino := hv.rep.ino _ (hv.lt ip hpos)
    exact ⟨hino, hino ▸ htype⟩
  · rw [Fs.setInode_icache_self]

theorem iunlock_at (h : At good K sb c s) (hK : Stable c.proc c.refs K) (ip : Iptr)
    (hL : ∀ x, x ∈ L ↔ x ∈ c.locks ∧ x.1 ≠ ip) :
    wp (iunlock ip) (fun _ t => At good K sb { c with locks := L } t ∧
      (t.icache ip).valid = (s.icache ip).valid ∧ (t.icache ip).type = (s.icache ip).type ∧
      (t.icache ip).inum = (s.icache ip).inum ∧ t.ftable = s.ftable) (Stops good) s := by
  simp only [iunlock, releasesleep, Blocks.panic, wp_run]
  split
  · exact h.panic (by decide)
  next hcond =>
  obtain ⟨hlocked, href⟩ := not_or.1 hcond
  have hpos : 0 < (s.icache ip).ref := by omega
  have hfits := h.ledger.fits ip
  have hval := hfits.read (not_not.1 hlocked)
  have hnew := (h.recorded hK hpos).setHandle hK ⟨le_rfl, le_rfl⟩
    { (s.icache ip).toHandle with locked := false } hpos rfl id (balanced_same h.ledger.refs rfl)
    (.unlock hL) ⟨(by rintro ⟨⟩), (by rintro ⟨⟩), hfits.dev, hfits.freed⟩
    fun _ _ _ v hv d hd => At.last_recorded hval hpos hv hd
  refine ⟨hnew, ?_, ?_, ?_, rfl⟩
  · simp only [Fs.setHandle, Fs.setInode_icache_self]
  · simp only [Fs.setHandle, Fs.setInode_icache_self]
  · simp only [Fs.setHandle, Fs.setInode_icache_self]

theorem mem_unlock (hL : ∀ x ∈ L, x.1 ≠ ip) (x : Iptr × Int16) : x ∈ L ↔
    x ∈ (ip, ty) :: L ∧ x.1 ≠ ip := by
  constructor
  · exact fun hx => ⟨List.mem_cons_of_mem _ hx, hL x hx⟩
  rintro ⟨hx, hne⟩
  rcases List.mem_cons.1 hx with rfl | hx
  · exact absurd rfl hne
  · exact hx

section

variable (h : At good K sb c s) (hK : Stable c.proc c.refs K)

include h hK

theorem relock_at (hi : (ip, ty) ∈ c.locks) :
    wp (iunlock ip) (fun _ t => wp (ilock ip) (fun _ u => At good K sb c u ∧ u.ftable = s.ftable)
      (Stops good) t) (Stops good) s := by
  have hL : ∀ x, x ∈ c.locks.filter (·.1 ≠ ip) ↔ x ∈ c.locks ∧ x.1 ≠ ip := fun x => by
    simp
  refine wp_imp (iunlock_at h hK ip hL) ?_
  rintro _ t ⟨ht, hvalid, htype, -, hft⟩
  refine wp_imp (ilock_at ht hK ip) ?_
  rintro _ u ⟨ty', hu, -, hty, -, hfu⟩
  have hty' : ty' = (s.icache ip).type := (hty (hvalid.trans (h.valid_of_lock hi))).trans htype
  refine ⟨hu.reorder fun x => ?_, hfu.trans hft⟩
  by_cases hxi : x.1 = ip
  · have htyx : ty = ty' := (h.type_of_lock hi).symm.trans hty'.symm
    constructor
    · intro hx
      have hx' : x = (ip, ty') := Prod.ext hxi
        (by rw [hty', ← hxi]; exact (h.ledger.locked x hx).2.symm)
      rw [hx']
      exact List.mem_cons_self
    · intro hx
      rcases List.mem_cons.1 hx with rfl | hx
      · rw [← htyx]
        exact hi
      · exact absurd hxi ((hL x).1 hx).2
  · rw [List.mem_cons, or_iff_right fun heq => hxi (by rw [heq]), hL x, and_iff_left hxi]

theorem idup_at (hpos : 0 < (s.icache ip).ref) :
    wp (idup ip) (fun _ t => At good K sb { c with refs := ip ::ₘ c.refs } t) (Stops good) s := by
  have hfits := h.ledger.fits ip
  exact h.setHandle hK ⟨le_rfl, Multiset.le_cons_self _ _⟩ _ hpos rfl id
    (balanced_inc h.ledger.refs rfl) (.same h.ledger ip)
    ⟨hfits.read, fun _ => Nat.succ_pos _, fun _ => hfits.dev hpos, fun _ => hfits.freed hpos⟩
    fun hy hs => absurd hs (Bool.eq_false_iff.1 hy)

theorem iget_at (inum : ℕ) (hi : good → inum < sb.ninodes) :
    wp (iget rootdev inum) (fun ip t => At good K sb { c with refs := ip ::ₘ c.refs } t ∧
      (t.icache ip).inum = inum ∧ t.blk = s.blk) (Stops good) s := by
  simp only [iget, wp_run]
  split
  · next ip hfind =>
    have hip := List.find?_some hfind
    simp only [decide_eq_true_eq] at hip
    simp only [wp_run]
    refine ⟨idup_at h hK hip.1, ?_, rfl⟩
    simp only [Fs.setHandle, Fs.setInode_icache_self]
    exact hip.2.2
  · next hmiss =>
    split
    · exact h.panic (by decide)
    next ip hfind =>
    have hzero : (s.icache ip).ref = 0 := by simpa using List.find?_some hfind
    have hlocked : ¬ (s.icache ip).locked = true := fun hl => by
      have := (h.ledger.fits ip).held hl
      exact absurd this (by show ¬ 0 < (s.icache ip).ref; omega)
    simp only [wp_run]
    refine ⟨h.setInode hK ⟨le_rfl, Multiset.le_cons_self _ _⟩ _ (fun hpos => absurd hpos (by omega))
      (balanced_inc h.ledger.refs ?_)
      (.same h.ledger ip) ⟨fun hl => absurd hl hlocked, fun _ => Nat.one_pos, fun _ => rfl,
      fun _ => rfl⟩ (fun _ jp _ hjp => ?_) (fun hg v hv => ⟨fun i hc => ?_, fun _ => hi hg⟩)
      (fun _ hs => absurd hs hlocked), ?_, rfl⟩
    · show 1 = (s.icache ip).ref + 1
      rw [hzero]
    · have hnot := List.find?_eq_none.1 hmiss jp (List.mem_finRange jp)
      simp only [decide_eq_true_eq] at hnot
      exact fun heq => hnot ⟨hjp, (h.ledger.fits jp).dev hjp, heq⟩
    · exact absurd hc.2.1 Bool.false_ne_true
    · simp only [Fs.setHandle, Fs.setInode_icache_self]

end

/-! ## Dropping a reference -/

theorem wp_stops {α : Type} {x : FsM α} {Q1 Q2 : α → Fs → Prop} {E1 : Stop → Fs → Prop}
    (h1 : wp x Q1 E1 s)
    (h2 : good → wp x Q2 Good s) : wp x (fun a t => Q1 a t ∧ (good → Q2 a t)) (Stops good) s := by
  rw [wp_iff] at h1 ⊢
  refine ⟨fun a t hx => ⟨h1.1 a t hx, fun hg => wp_ok (h2 hg) hx⟩, fun e t hx hg => ?_⟩
  exact wp_error (h2 hg) hx

theorem freeInode_led (ip : Iptr) (s : Fs) : wp (freeInode ip) (fun _ t => t.led = { s.led with
        icache := update s.led.icache ip
          { (s.icache ip).toHandle with valid := false, freed := true }
        type := update s.led.type ip 0
        last := update s.led.last (s.icache ip).inum none }) Low s := by
  simp only [freeInode, wp_run]
  refine (frame_itrunc ip).step rfl fun _ t ht => ?_
  refine (frame_iupdate ip).step rfl fun _ u hu => ?_
  have hhandle : (t.icache ip).toHandle = (s.icache ip).toHandle := congrFun (congrArg Led.icache ht) ip
  have hled : u.led = { s.led with type := update s.led.type ip 0 } := by
    rw [hu, Fs.setCopy, setInode_led, ht]
    simp only [hhandle]
    rw [show (s.icache ip).toHandle = s.led.icache ip from rfl, update_eq_self]
  have hself : (u.icache ip).toHandle = (s.icache ip).toHandle := congrFun (congrArg Led.icache hled) ip
  have htype : (u.icache ip).type = 0 :=
    (congrFun (congrArg Led.type hled) ip).trans (update_self ..)
  have hlast : u.hist.last = s.hist.last := congrArg Led.last hled
  show { (u.setInode ip _).led with last := update u.hist.last (u.icache ip).inum none } = _
  rw [setInode_led, hled]
  simp only [hself, htype, hlast, update_idem]
  rfl

theorem freeInode_rule (hv : Content sb v s) (hc : (s.icache ip).Caches i) (ho : 1 ≤ s.outstanding) :
    wp (freeInode ip) (fun _ t => Rep sb (v.free i) (v.free i).ino t) Good s := by
  have hlt : i < sb.ninodes := hc.2.2 ▸ hv.lt ip hc.1
  simp only [freeInode, wp_bind]
  refine wp_imp (itrunc_rule hv.rep hv.laid hv.ok.toBase hlt (hv.valid ip i hc) hc ho) ?_
  rintro _ t ⟨hrep, hled⟩
  have hc' := hc.of_led hled
  have hout : t.outstanding = s.outstanding := congrArg Led.outstanding hled
  simp only [wp_modify, hrep.copy ip i hc']
  refine wp_imp (iupdate_rule (hrep.setCopy hc' _) hv.laid hlt (by simpa using hc')
    (show 1 ≤ t.outstanding by omega)) ?_
  rintro _ u ⟨hrep', -, -⟩
  have hino : update (v.trunc i).ino i ((v.free i).ino i) = (v.free i).ino := by
    rw [Volume.free, Volume.setIno_ino_self]
    rfl
  have hfree : Rep sb (v.free i) (v.free i).ino u := by
    rw [← hino]
    exact hrep'
  have hset : Rep sb (v.free i) (v.free i).ino
      (u.setHandle ip { (u.icache ip).toHandle with valid := false, freed := true }) :=
    hfree.setInode _ (fun j hj => absurd hj.2.1 (by rintro ⟨⟩)) fun j hj => absurd hj.2.1 (by rintro ⟨⟩)
  exact hset.congr rfl rfl rfl ⟨hset.hist.given, hset.hist.truncated, hset.hist.released⟩

theorem Content.free (h : Content sb v s) (hl : Ledger c s.led) (hc : (s.icache ip).Caches i)
    (halone : ∀ f, (s.ftable f).type ≠ .inode ip) (hft : t.ftable = s.ftable)
    (hrep : Rep sb (v.free i) (v.free i).ino t) (hself : (t.icache ip).ref = 0)
    (hother : ∀ jp, jp ≠ ip → (t.icache jp).toHandle = (s.icache jp).toHandle)
    (hlast : t.hist.last = update s.hist.last i none) : Content sb (v.free i) t := by
  have hne : ∀ jp, jp ≠ ip → 0 < (s.icache jp).ref → (s.icache jp).inum ≠ i := fun jp hj hpos =>
    hc.2.2 ▸ hl.apart hc.1 jp hj hpos
  have hlt : i < sb.ninodes := hc.2.2 ▸ h.lt ip hc.1
  refine ⟨h.laid, hrep, h.ok.free hlt (h.valid ip i hc), fun jp hj => ?_, fun jp j hj => ?_,
    fun f jp hf hw => ?_, fun j d hd => ?_⟩
  · have hji : jp ≠ ip := by
      rintro rfl
      omega
    rw [hother jp hji] at hj ⊢
    exact h.lt jp hj
  · have hji : jp ≠ ip := by
      rintro rfl
      exact absurd hj.1 (by omega)
    rw [hother jp hji] at hj
    rw [v.free_ino_of_ne (hj.2.2 ▸ hne jp hji hj.1)]
    exact h.valid jp j hj
  · rw [hft] at hf hw
    have hji : jp ≠ ip := by
      rintro rfl
      exact halone f hf
    rw [hother jp hji, v.free_ino_of_ne (hne jp hji (hl.pos_of_file hf))]
    exact h.writable f jp hf hw
  · have hji : j ≠ i := by
      rintro rfl
      rw [hlast, update_self] at hd
      cases hd
    rw [hlast, update_of_ne hji] at hd
    rw [v.free_ino_of_ne hji]
    refine ⟨(h.last j d hd).1, fun hun => (h.last j d hd).2 fun jp hj heq => ?_⟩
    by_cases hjp : jp = ip
    · rw [hjp, hc.2.2] at heq
      exact hji heq.symm
    · have := hun jp
      rw [hother jp hjp] at this
      exact this hj heq

theorem releaseDrop {u : Fs} {P : Fs → Prop} {E : Stop → Fs → Prop}
    (h : P ((u.recorded ip).setHandle ip
      { (u.icache ip).toHandle with ref := (u.icache ip).ref - 1, locked := false })) :
    wp (releasesleep ip)
      (fun _ t => P (t.setHandle ip { (t.icache ip).toHandle with ref := (t.icache ip).ref - 1 })) E
      u := by
  simp only [releasesleep, wp_modify, Fs.recorded, Fs.setHandle, Fs.setInode, update_self,
    update_idem] at h ⊢
  exact h

theorem setHandle_inum {u : Fs} {y : Handle} (hy : y.inum = (u.icache ip).inum) :
    ((u.setHandle ip y).icache jp).inum = (u.icache jp).inum := by
  by_cases hj : jp = ip
  · rw [hj, Fs.setHandle, Fs.setInode_icache_self, hy]
  · rw [Fs.setHandle, Fs.setInode_icache_of_ne _ _ hj]

/-- The entries of the cache stay with their inodes. -/
theorem iput_inum (ip jp : Iptr) (s : Fs) :
    wp (iput ip) (fun _ t => (t.icache jp).inum = (s.icache jp).inum) (fun _ _ => True) s := by
  simp only [iput, acquiresleep, wp_run]
  split
  · trivial
  generalize hu : s.setHandle ip _ = u
  have hus : (u.icache jp).inum = (s.icache jp).inum := hu ▸ setHandle_inum rfl
  split
  · refine wp_lax (freeInode_led ip u) fun _ t ht => ?_
    have hic : t.led.icache = update u.led.icache ip
        { (u.icache ip).toHandle with valid := false, freed := true } := congrArg Led.icache ht
    refine releaseDrop (P := fun w => (w.icache jp).inum = _) ((setHandle_inum ?_).trans ?_)
    · rfl
    show (t.led.icache jp).inum = _
    rw [hic, ← hus, update_apply]
    split_ifs with hj
    · rw [hj]
    · rfl
  · refine releaseDrop (P := fun w => (w.icache jp).inum = _) ((setHandle_inum ?_).trans hus)
    rfl

theorem iunlockput_inum (ip jp : Iptr) (s : Fs) :
    wp (iunlockput ip) (fun _ t => (t.icache jp).inum = (s.icache jp).inum) (fun _ _ => True) s := by
  simp only [iunlockput, iunlock, releasesleep, Blocks.panic, wp_run]
  split
  · trivial
  · refine wp_imp (iput_inum ip jp _) fun _ t ht => ht.trans ?_
    exact setHandle_inum (y := { (s.icache ip).toHandle with locked := false }) rfl

/-- What is known when an inode is freed. -/
def Frees (good : Prop) (K : Volume → Led → Prop) (ip : Iptr) (s : Fs) : Prop :=
  good → ∀ v i l', K v s.led → (s.icache ip).Caches i → (v.ino i).type ≠ 0 → (v.ino i).nlink = 0 →
    (s.icache ip).ref = 1 → K (v.free i) l'

theorem freeInode_at (h : At good K sb { c with refs := ip ::ₘ T, locks := (ip, ty) :: c.locks } s)
    (ho : 1 ≤ c.out)
    (hc : (s.icache ip).Caches i) (hnlink : (s.icache ip).nlink = 0) (hone : (s.icache ip).ref = 1)
    (hne : ∀ x ∈ c.locks, x.1 ≠ ip) (hfree : Frees good K ip s) :
    wp (freeInode ip) (fun _ t => wp (releasesleep ip) (fun _ u => At good K sb { c with refs := T }
      (u.setHandle ip { (u.icache ip).toHandle with ref := (u.icache ip).ref - 1 })) (Stops good) t)
      (Stops good) s := by
  have hout : 1 ≤ s.outstanding := by
    rw [h.outstanding]
    exact ho
  have hrule : good → wp (freeInode ip) (fun _ t => ∃ v, Content sb v s ∧ K v s.led ∧
      Rep sb (v.free i) (v.free i).ino t) Good s := by
    intro hg
    obtain ⟨v, hv, hk⟩ := h.content hg
    exact wp_imp (freeInode_rule hv hc hout) fun _ t ht => ⟨v, hv, hk, ht⟩
  refine wp_imp (wp_stops (freeInode_led ip s) hrule) ?_
  rintro _ t ⟨hled, hgood⟩
  have hself : (t.icache ip).toHandle = { (s.icache ip).toHandle with valid := false, freed := true } :=
    (congrFun (congrArg Led.icache hled) ip).trans (update_self ..)
  have hother : ∀ jp, jp ≠ ip → (t.icache jp).toHandle = (s.icache jp).toHandle := fun jp hj =>
    (congrFun (congrArg Led.icache hled) jp).trans (update_of_ne hj ..)
  have htype : (t.icache ip).type = 0 :=
    (congrFun (congrArg Led.type hled) ip).trans (update_self ..)
  refine releaseDrop (P := At good K sb { c with refs := T }) ?_
  rw [hself]
  have hrec : t.recorded ip = t := by
    have hval : (t.icache ip).valid = false := by rw [hself]
    simp only [Fs.recorded, hval, Bool.false_eq_true, if_false]
  rw [hrec]
  simp only [hone]
  refine ⟨?_, fun hg => ?_⟩
  · rw [Fs.setHandle, setInode_led, hled]
    simp only [update_idem, htype]
    have hrefs : 1 - 1 = (s.led.icache ip).ref - 1 := by rw [show (s.led.icache ip).ref = 1 from hone]
    have hentry := h.ledger.setEntry
      { (s.icache ip).toHandle with ref := 1 - 1, valid := false, locked := false, freed := true } 0
      (balanced_dec h.ledger.refs hrefs) (.unlock (mem_unlock hne))
        ⟨by simp, by simp, by simp, by simp⟩ (by simp)
    exact hentry.setLast _
  · obtain ⟨v, hv, hk, hrep⟩ := hgood hg
    have hcopy : (v.ino i).nlink = 0 := by rw [← hv.rep.copy ip i hc, hnlink]
    refine ⟨v.free i, ?_, hfree hg v i _ hk hc (hv.valid ip i hc) hcopy hone⟩
    refine hv.free h.ledger hc (fun f hf => ?_) (congrArg Led.ftable hled)
      (hrep.setInode _ (fun j hj => absurd hj.2.1 Bool.false_ne_true) fun j hj =>
      absurd hj.2.1 Bool.false_ne_true) ?_ (fun jp hj => ?_)
      ?_
    · refine (h.ledger.refs.alone hone).1 (.inl f) ?_
      rw [Led.holds, show (s.led.ftable f).type = .inode ip from hf]
      rfl
    · rw [Fs.setHandle, Fs.setInode_icache_self]
    · rw [Fs.setHandle, Fs.setInode_icache_of_ne _ _ hj]
      exact hother jp hj
    · rw [← hc.2.2]
      exact congrArg Led.last hled

theorem iput_at (h : At good K sb { c with refs := ip ::ₘ T } s) (hK : Stable c.proc T K)
    (ho : 1 ≤ c.out) (hfree : Frees good K ip s) :
    wp (iput ip) (fun _ t => At good K sb { c with refs := T } t) (Stops good) s := by
  have hpos : 0 < (s.icache ip).ref := h.pos_of_ref (Multiset.mem_cons_self ip T)
  have hfits := h.ledger.fits ip
  simp only [iput, acquiresleep, wp_run]
  by_cases hlocked : (s.icache ip).locked = true
  · rw [if_pos hlocked]
    exact h.sleeps
  rw [if_neg hlocked]
  have hne : ∀ x ∈ c.locks, x.1 ≠ ip := by
    rintro x hx rfl
    exact hlocked (h.ledger.locked x hx).1
  have hic : (s.setHandle ip { (s.icache ip).toHandle with locked := true }).icache ip =
      { s.icache ip with locked := true } := Fs.setInode_icache_self ..
  rw [hic]
  split
  · next hcond =>
    obtain ⟨hval, hnlink, hone⟩ := hcond
    have hlock := h.setHandle (hK.cons ip) ⟨le_rfl, le_rfl⟩
      { (s.icache ip).toHandle with locked := true } hpos rfl id
      (balanced_same h.ledger.refs rfl) (.lock hne)
        ⟨fun _ => hval, fun _ => hpos, hfits.dev, hfits.freed⟩
      nofun
    have hsame : (s.setHandle ip { (s.icache ip).toHandle with locked := true }).led.Same s.led := by
      have hstay : Stays s ip { s.icache ip with locked := true } := fun _ => rfl
      refine ⟨fun _ => rfl, rfl, rfl, rfl, fun jp hj => (hstay.inum ?_).symm⟩
      by_cases hji : jp = ip
      · rw [hji]
        exact hpos
      · have hj : 0 < ((s.setInode ip _).icache jp).ref := hj
        rwa [s.setInode_icache_of_ne _ hji] at hj
    refine freeInode_at hlock ho (i := (s.icache ip).inum) ?_ ?_ ?_ hne ?_
    · rw [hic]
      exact ⟨hpos, hval, rfl⟩
    · rw [hic]
      exact hnlink
    · rw [hic]
      exact hone
    · intro hg v i l' hk hc ht hn _
      rw [hic] at hc
      exact hfree hg v i l' (hK.cons ip _ _ _ _ _ hlock.ledger h.ledger ⟨rfl, le_rfl⟩
        ⟨rfl, le_rfl⟩ hsame hk)
        hc ht hn hone
  · refine releaseDrop (P := At good K sb { c with refs := T }) ?_
    have hkeep : ∀ x, x ∈ c.locks ↔ x ∈ c.locks ∧ x.1 ≠ ip := fun x =>
      ⟨fun hx => ⟨hx, hne x hx⟩, And.left⟩
    have hfin := (h.recorded (hK.cons ip) hpos).setHandle hK ⟨Multiset.le_cons_self _ _, le_rfl⟩
      { (s.icache ip).toHandle with ref := (s.icache ip).ref - 1, locked := false } hpos rfl id
      (balanced_dec h.ledger.refs rfl) (.unlock hkeep)
      ⟨nofun, nofun, fun _ => hfits.dev hpos, fun _ => hfits.freed hpos⟩ fun _ hs => absurd hs hlocked
    rw [hic]
    simp only [Fs.recorded, Fs.setHandle, Fs.setInode, update_self, update_idem] at hfin ⊢
    exact hfin

/-- Nothing is known of the volume. -/
def Any (_ : Volume) (_ : Led) : Prop := True

theorem stable_any {o : Option Pid} : Stable o T Any := fun _ _ _ _ _ _ _ _ _ _ _ => trivial

theorem frees_any : Frees good Any ip s := fun _ _ _ _ _ _ _ _ _ => trivial

/-- What is known stays known when the call drops a reference. -/
def Puts (good : Prop) (K : Volume → Led → Prop) (sb : Superblock) : Prop :=
  ∀ (c : Ctx) (T : Multiset Iptr) (s : Fs) (ip : Iptr), c.proc = none →
    At good K sb { c with refs := ip ::ₘ T } s → Frees good K ip s

theorem puts_any : Puts good Any sb := fun _ _ _ _ _ _ => frees_any

theorem iunlockput_at (h : At good K sb { c with refs := ip ::ₘ T, locks := (ip, ty) :: L } s)
    (hK : Stable c.proc T K)
    (hL : ∀ x ∈ L, x.1 ≠ ip) (ho : 1 ≤ c.out) (hput : Puts good K sb) (hp : c.proc = none) :
    wp (iunlockput ip) (fun _ t => At good K sb { c with refs := T, locks := L } t) (Stops good) s := by
  simp only [iunlockput, wp_bind]
  refine wp_imp (iunlock_at h (hK.cons ip) ip (mem_unlock hL)) ?_
  rintro _ t ⟨ht, -⟩
  exact iput_at (c := { c with locks := L }) ht hK ho (hput { c with locks := L } T t ip hp ht)

end Xv6.Blocks

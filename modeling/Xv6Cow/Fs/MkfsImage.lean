import Xv6Cow.Fs.Mkfs

/-!
# What `mkfs` writes

The blocks below `freeblock` are the blocks of a volume.  Errors are left open in the rules by a
proposition `fits`: an error refutes it.  With `True` for `fits` a rule says that the program returns,
with `False` it is about runs that happened to return.
-/

namespace Xv6.Mkfs

open Function Bytes Blocks Prog

variable {v v' : Volume} {s s' : Img} {b i j n fbn : ℕ} {k : Slot} {fits : Prop}

/-! ## The regions of the image -/

/-- The layout with all inodes that the inode blocks have room for. -/
def wide : Superblock := { sb with ninodes := ipb * ninodeblocks }

theorem wide_laid : wide.Laid := by
  constructor <;> decide

theorem area_iff : wide.Area b ↔ nmeta ≤ b ∧ b < fssize := Iff.rfl

theorem fssize_lt : fssize < 2 ^ 31 := by decide

/-- What the image says about blocks that belong to no file yet. -/
structure Shows (v : Volume) (s : Img) : Prop where
  used : ∀ b, v.used b = decide (b < s.freeblock)
  data : ∀ b, nmeta ≤ b → v.data b = s.blk b
  clear : ∀ b, s.freeblock ≤ b → s.blk b = fun _ => 0
  start : nmeta ≤ s.freeblock
  fits : s.freeblock ≤ fssize

/-- The metadata blocks and the inode counter are as they were. -/
structure Kept (s s' : Img) : Prop where
  blk : ∀ b < nmeta, s'.blk b = s.blk b
  freeinode : s'.freeinode = s.freeinode

theorem Kept.refl (s : Img) : Kept s s := ⟨fun _ _ => rfl, rfl⟩

theorem Kept.trans {s'' : Img} (h : Kept s s') (h' : Kept s' s'') : Kept s s'' :=
  ⟨fun b hb => (h'.blk b hb).trans (h.blk b hb), h'.freeinode.trans h.freeinode⟩

def Img.put (s : Img) (b : ℕ) (f : ℕ → UInt8) : Img := { s with blk := update s.blk b f }

def Img.next (s : Img) : Img := { s with freeblock := s.freeblock + 1 }

theorem Kept.put (hb : nmeta ≤ b) (f : ℕ → UInt8) : Kept s (s.put b f) :=
  ⟨fun c hc => update_of_ne (by omega) .., rfl⟩

theorem Kept.next : Kept s s.next := ⟨fun _ _ => rfl, rfl⟩

namespace Shows

section

variable (h : Shows v s)

include h

theorem alloc (hroom : s.freeblock < fssize) : Shows (v.alloc s.freeblock) s.next where
  used b := by
    show update v.used s.freeblock true b = decide (b < s.freeblock + 1)
    by_cases hb : b = s.freeblock
    · rw [hb, update_self]
      simp
    · rw [update_of_ne hb, h.used]
      exact decide_eq_decide.2 (by omega)
  data b hb := by
    show update v.data s.freeblock (fun _ => 0) b = s.blk b
    by_cases hbf : b = s.freeblock
    · rw [hbf, update_self, h.clear _ le_rfl]
    · rw [update_of_ne hbf, h.data b hb]
  clear b hb := h.clear b (Nat.le_of_succ_le hb)
  start := h.start.trans (Nat.le_succ _)
  fits := hroom

theorem setIno (i : ℕ) (d : Dinode) : Shows (v.setIno i d) s :=
  ⟨h.used, h.data, h.clear, h.start, h.fits⟩

theorem put (hb : b < s.freeblock) (f : ℕ → UInt8) : Shows (v.setData b f) (s.put b f) where
  used := h.used
  data c hc := by
    show update v.data b f c = update s.blk b f c
    by_cases hcb : c = b
    · rw [hcb, update_self, update_self]
    · rw [update_of_ne hcb, update_of_ne hcb, h.data c hc]
  clear c hc := by
    have hne : c ≠ b := by
      change s.freeblock ≤ c at hc
      omega
    exact (update_of_ne hne ..).trans (h.clear c hc)
  start := h.start
  fits := h.fits

theorem free : v.used s.freeblock = false := by
  rw [h.used]
  simp

theorem ptr_lt (hv : v.Base wide) (hi : v.Keeps wide i) (hp : v.ptr i k ≠ 0) :
    nmeta ≤ v.ptr i k ∧ v.ptr i k < s.freeblock := by
  have hu := hv.toOwned.used_of_ptr hi hp
  rw [h.used, decide_eq_true_eq] at hu
  exact ⟨(hv.toOwned.area_of_ptr hi hp).1, hu⟩

theorem ind_lt (hv : v.Base wide) (hi : v.Keeps wide i) (hind : (v.ino i).addrs 12 ≠ 0) :
    nmeta ≤ ((v.ino i).addrs 12).toNat ∧ ((v.ino i).addrs 12).toNat < s.freeblock :=
  h.ptr_lt (k := .indirect) hv hi fun hz => hind (addrs_eq_zero.2 hz)

end

end Shows

/-! ## A file gets a block -/

/-- The file has its first `n` blocks, and the indirect block if it needs it. -/
structure Has (v : Volume) (i n : ℕ) : Prop where
  block : ∀ bn < maxfile, v.ptr i (slotOf bn) ≠ 0 ↔ bn < n
  ind : (v.ino i).addrs 12 ≠ 0 ↔ ndirect < n

/-- Blocks taken by a file with `n` blocks of data. -/
def cost (n : ℕ) : ℕ := n + if ndirect < n then 1 else 0

/-- The block `freeblock` enters the empty slot `k` of inode `i`. -/
structure Extended (v v' : Volume) (s s' : Img) (i : ℕ) (k : Slot) : Prop where
  shows : Shows v' s'
  base : v'.Base wide
  grown : Volume.Grown wide v v' i
  new : v'.ptr i k = s.freeblock
  clear : v'.data s.freeblock = fun _ => 0
  next : s'.freeblock = s.freeblock + 1
  kept : Kept s s'

/-- No other slot changes: the blocks that are held are those below `freeblock`. -/
theorem Extended.other (h : Extended v v' s s' i k) (hs : Shows v s) (hv : v.Base wide)
    (hi : v.Keeps wide i) {l : Slot} (hj : v.Keeps wide j) (hne : (j, l) ≠ (i, k)) :
    v'.ptr j l = v.ptr j l := by
  by_cases hp : v.ptr j l = 0
  · rw [hp]
    by_contra hp'
    have hj' := h.grown.keeps_iff.2 hj
    have harea := h.base.toOwned.area_of_ptr hj' hp'
    have hlt := (h.shows.ptr_lt h.base hj' hp').2
    rw [h.next] at hlt
    by_cases heq : v'.ptr j l = s.freeblock
    · obtain ⟨rfl, rfl⟩ :=
        h.base.toOwned.slot_eq hj' (h.grown.keeps_iff.2 hi) hp' (heq.trans h.new.symm)
      exact hne rfl
    have hused : v.used (v'.ptr j l) = true := by
      rw [hs.used, decide_eq_true_eq]
      omega
    obtain ⟨⟨j0, l0⟩, h0⟩ := hv.covers harea hused
    obtain ⟨hk0, hb0, hp0⟩ := Volume.own_eq_some.1 h0
    have hold := h.grown.ptr hk0 (hp0 ▸ hb0)
    obtain ⟨rfl, rfl⟩ := h.base.toOwned.slot_eq hj' (h.grown.keeps_iff.2 hk0) hp'
      (hold.trans hp0).symm
    exact hb0 (hp0.symm.trans hp)
  · exact h.grown.ptr hj hp

theorem Extended.others (h : Extended v v' s s' i k) (hs : Shows v s) (hv : v.Base wide)
    (hi : v.Keeps wide i) (j : ℕ) (hne : j ≠ i) (hj : v.Keeps wide j) (l : Slot) :
    v'.ptr j l = v.ptr j l :=
  h.other hs hv hi hj fun he => hne (Prod.mk.inj he).1

variable {E : String → Img → Prop}

theorem wp_rsect {Q : (ℕ → UInt8) → Img → Prop} (sec : ℕ) :
    wp (rsect sec) Q E s = if fssize ≤ sec then E "read" s else Q (s.blk sec) s := by
  unfold rsect
  split
  · next h =>
    simp only [wp_run]
  · simp only [wp_run]

theorem wp_nextBlock {Q : ℕ → Img → Prop} : wp nextBlock Q E s = Q s.freeblock s.next := rfl

theorem wp_wsect {Q : Unit → Img → Prop} (sec : ℕ) (f : ℕ → UInt8) :
    wp (wsect sec f) Q E s = Q () (s.put sec f) := rfl

theorem addr_new (hs : Shows v s) (hv : v.Base wide)
    (hi : v.Keeps wide i) {j : Fin 13} (hz : (v.ino i).addrs j = 0) (hroom : s.freeblock < fssize) :
    wp (addr (v.ino i) j)
      (fun r t => ∃ v', Extended v v' s t i (addrSlot j) ∧ r = (v'.ino i, s.freeblock)) E s := by
  have harea : wide.Area s.freeblock := area_iff.2 ⟨hs.start, hroom⟩
  have hlt := wide_laid.area_lt harea
  obtain ⟨hbase, hgrown, hnew⟩ := hv.alloc_addr wide_laid hi hz harea hs.free
  simp only [addr, hz, wp_run, wp_nextBlock]
  refine ⟨_, ⟨(hs.alloc hroom).setIno i _, hbase, hgrown, ?_, ?_, rfl, .next⟩, ?_⟩
  · rw [Volume.ptr, ptr_addrSlot, hnew]
  · exact update_self ..
  · rw [Volume.setIno_ino_self, Volume.setAddr_addrs_self, toNat_ofNat_of_lt hlt]

theorem entry_new (hs : Shows v s) (hv : v.Base wide)
    (hi : v.Keeps wide i) (hind : (v.ino i).addrs 12 ≠ 0) {e : Fin 128}
    (hz : v.ptr i (.entry e) = 0) (hroom : s.freeblock < fssize) :
    wp (entry ((v.ino i).addrs 12).toNat e)
      (fun r t => ∃ v', Extended v v' s t i (.entry e) ∧ v'.ino = v.ino ∧ r = s.freeblock) E s := by
  have harea : wide.Area s.freeblock := area_iff.2 ⟨hs.start, hroom⟩
  have hlt := wide_laid.area_lt harea
  obtain ⟨hbase, hgrown, hnew⟩ := hv.alloc_entry wide_laid hi hind e hz harea hs.free
  obtain ⟨hlo, hhi⟩ := hs.ind_lt hv hi hind
  have hread : ¬ fssize ≤ ((v.ino i).addrs 12).toNat := by omega
  have hword : v.ptr i (.entry e) = word (v.data ((v.ino i).addrs 12).toNat) e := if_neg hind
  rw [hword, hs.data _ hlo] at hz
  simp only [entry, wp_run, wp_rsect, hread, hz, wp_nextBlock, wp_wsect,
    Volume.word_patch_self _ _ hlt]
  rw [hs.data _ hlo] at hbase hgrown hnew
  have hshow := (hs.alloc hroom).put (b := ((v.ino i).addrs 12).toNat) (Nat.lt_succ_of_lt hhi)
    (patch (s.blk ((v.ino i).addrs 12).toNat) (4 * e) 4 (leByte s.freeblock))
  refine ⟨_, ⟨hshow, hbase, hgrown, hnew, ?_, rfl, Kept.next.trans (.put hlo _)⟩, rfl, trivial⟩
  exact (update_of_ne (by omega) ..).trans (update_self ..)

/-- What `block` leaves. -/
structure Located (v v' : Volume) (s s' : Img) (i n fbn : ℕ) (r : Dinode × ℕ × (ℕ → UInt8)) :
    Prop where
  shows : Shows v' s'
  base : v'.Base wide
  grown : Volume.Grown wide v v' i
  other : ∀ j, j ≠ i → v.Keeps wide j → ∀ l, v'.ptr j l = v.ptr j l
  has : Has v' i (fbn + 1)
  din : r.1 = v'.ino i
  ptr : r.2.1 = v'.ptr i (slotOf fbn)
  buf : r.2.2 = v'.data r.2.1
  same : v.ptr i (slotOf fbn) ≠ 0 → v' = v
  clear : v.ptr i (slotOf fbn) = 0 → v'.data r.2.1 = fun _ => 0
  count : s'.freeblock + cost n = s.freeblock + cost (fbn + 1)
  kept : Kept s s'

theorem Has.succ (hn : Has v i n) (hlt : n < maxfile) (hnew : v'.ptr i (slotOf n) ≠ 0)
    (hother : ∀ bn, slotOf bn ≠ slotOf n → v'.ptr i (slotOf bn) = v.ptr i (slotOf bn))
    (hind : (v'.ino i).addrs 12 ≠ 0 ↔ ndirect < n + 1) : Has v' i (n + 1) := by
  refine ⟨fun bn hbn => ?_, hind⟩
  by_cases hbe : bn = n
  · rw [hbe]
    exact iff_of_true hnew (Nat.lt_succ_self n)
  · rw [hother bn fun he => hbe (slotOf_inj hbn hlt he), hn.block bn hbn]
    omega

theorem Shows.freeblock_ne (h : Shows v s) : s.freeblock ≠ 0 := by
  have := h.start
  have : nmeta ≠ 0 := by decide
  omega

section

variable (hs : Shows v s) (hv : v.Base wide) (hi : v.Keeps wide i)

include hs hv hi

theorem entry_fetch (hind : (v.ino i).addrs 12 ≠ 0) {e : Fin 128} (hz : v.ptr i (.entry e) = 0)
    (hroom : fits → s.freeblock < fssize) (din : Dinode) :
    wp (do
        let x ← entry ((v.ino i).addrs 12).toNat e
        return (din, x, ← rsect x))
      (fun r t => ∃ v', Extended v v' s t i (.entry e) ∧ v'.ino = v.ino ∧
        r = (din, s.freeblock, v'.data s.freeblock))
      (fun _ _ => ¬ fits) s := by
  by_cases hlt : s.freeblock < fssize
  · rw [wp_bind]
    refine wp_imp (entry_new hs hv hi hind hz hlt) ?_
    rintro _ t ⟨v', h, hino, rfl⟩
    have hread : ¬ fssize ≤ s.freeblock := by omega
    simp only [wp_run, wp_rsect, hread]
    exact ⟨v', h, hino, by rw [h.shows.data _ hs.start]⟩
  have hfull : s.freeblock = fssize := by
    have := hs.fits
    omega
  obtain ⟨hlo, hhi⟩ := hs.ind_lt hv hi hind
  have hread : ¬ fssize ≤ ((v.ino i).addrs 12).toNat := by omega
  have hword : v.ptr i (.entry e) = word (v.data ((v.ino i).addrs 12).toNat) e := if_neg hind
  rw [hword, hs.data _ hlo] at hz
  simp only [entry, wp_run, wp_rsect, hread, hz, wp_nextBlock, wp_wsect, hfull,
    Volume.word_patch_self _ _ fssize_lt, le_refl]
  exact fun hf => hlt (hroom hf)

theorem block_old (hbn : fbn < maxfile) (hn : Has v i (fbn + 1)) :
    wp (block (v.ino i) fbn) (fun r t => Located v v s t i (fbn + 1) fbn r) E s := by
  have hp : v.ptr i (slotOf fbn) ≠ 0 := (hn.block fbn hbn).2 (Nat.lt_succ_self fbn)
  obtain ⟨hlo, hhi⟩ := hs.ptr_lt hv hi hp
  have hfits := hs.fits
  have hread : ¬ fssize ≤ v.ptr i (slotOf fbn) := by omega
  have hdone : Located v v s s i (fbn + 1) fbn
      (v.ino i, v.ptr i (slotOf fbn), s.blk (v.ptr i (slotOf fbn))) :=
    ⟨hs, hv, .refl wide v i, fun _ _ _ _ => rfl, hn, rfl, rfl, (hs.data _ hlo).symm, fun _ => rfl,
      fun hz => absurd hz hp, rfl, .refl s⟩
  unfold block
  by_cases hd : fbn < ndirect
  · have hx : v.ptr i (slotOf fbn) = ((v.ino i).addrs (Fin.ofNat 13 fbn)).toNat := by
      rw [slotOf_direct hd, Volume.ptr, ptr_addrSlot]
    have hne : ¬ (v.ino i).addrs (Fin.ofNat 13 fbn) = 0 := by
      rw [addrs_eq_zero, ← hx]
      exact hp
    simp only [hd, addr, hne, wp_run, wp_rsect, ← hx, hread]
    exact hdone
  · obtain ⟨e, hslot, he⟩ := slotOf_entry hd hbn
    have hind : ¬ (v.ino i).addrs 12 = 0 := hn.ind.2 (by omega)
    obtain ⟨hlo', hhi'⟩ := hs.ind_lt hv hi hind
    have hread' : ¬ fssize ≤ ((v.ino i).addrs 12).toNat := by omega
    have hx : v.ptr i (slotOf fbn) = word (s.blk ((v.ino i).addrs 12).toNat) (fbn - ndirect) := by
      rw [hslot, ← he, ← hs.data _ hlo']
      exact if_neg hind
    simp only [hd, addr, hind, entry, wp_run, wp_rsect, hread', ← hx, hp, hread]
    exact hdone

theorem block_direct (hd : n < ndirect)
    (hn : Has v i n) (hz : v.ptr i (slotOf n) = 0) (hroom : fits → s.freeblock < fssize) :
    wp (block (v.ino i) n) (fun r t => ∃ v', Located v v' s t i n n r) (fun _ _ => ¬ fits) s := by
  have hza : (v.ino i).addrs (Fin.ofNat 13 n) = 0 := by
    rw [slotOf_direct hd, Volume.ptr, ptr_addrSlot] at hz
    exact addrs_eq_zero.2 hz
  unfold block
  rw [if_pos hd]
  by_cases hlt : s.freeblock < fssize
  · rw [wp_bind]
    refine wp_imp (addr_new hs hv hi hza hlt) ?_
    rintro _ t ⟨v', h, rfl⟩
    rw [← slotOf_direct hd] at h
    have hread : ¬ fssize ≤ s.freeblock := by omega
    have hother : ∀ l, l ≠ slotOf n → v'.ptr i l = v.ptr i l := fun l hl =>
      h.other hs hv hi hi fun he => hl (Prod.mk.inj he).2
    have hind : (v'.ino i).addrs 12 = (v.ino i).addrs 12 :=
      UInt32.toNat_inj.1 (hother .indirect (slotOf_ne_indirect n).symm)
    have hhas : Has v' i (n + 1) := by
      refine hn.succ (hd.trans (by decide)) (h.new ▸ hs.freeblock_ne) (fun bn => hother _) ?_
      rw [hind, hn.ind]
      omega
    simp only [wp_run, wp_rsect, hread]
    refine ⟨v', h.shows, h.base, h.grown, h.others hs hv hi, hhas, rfl, h.new.symm,
      (h.shows.data _ hs.start).symm, fun hp => absurd hz hp, fun _ => h.clear, ?_, h.kept⟩
    rw [h.next, cost, cost, if_neg (by omega), if_neg (by omega)]
    omega
  · have hfull : s.freeblock = fssize := by
      have := hs.fits
      omega
    simp only [addr, hza, wp_run, wp_nextBlock, wp_rsect, Volume.setAddr_addrs_self, hfull,
      toNat_ofNat_of_lt fssize_lt, le_refl]
    exact fun hf => hlt (hroom hf)

theorem block_entry (hd : ndirect < n)
    (hbn : n < maxfile) (hn : Has v i n) (hz : v.ptr i (slotOf n) = 0)
    (hroom : fits → s.freeblock < fssize) :
    wp (block (v.ino i) n) (fun r t => ∃ v', Located v v' s t i n n r) (fun _ _ => ¬ fits) s := by
  obtain ⟨e, hslot, he⟩ := slotOf_entry (Nat.lt_asymm hd) hbn
  have hind : (v.ino i).addrs 12 ≠ 0 := hn.ind.2 hd
  unfold block
  rw [if_neg (Nat.lt_asymm hd)]
  simp only [addr, hind, if_false, ← he]
  refine wp_imp (entry_fetch hs hv hi hind (hslot ▸ hz) hroom (v.ino i)) ?_
  rintro _ t ⟨v', h, hino, rfl⟩
  have hhas : Has v' i (n + 1) := by
    refine hn.succ hbn (hslot ▸ h.new ▸ hs.freeblock_ne) (fun bn hne => ?_) ?_
    · exact h.other hs hv hi hi fun he => hne ((Prod.mk.inj he).2.trans hslot.symm)
    rw [hino]
    exact iff_of_true hind (by omega)
  refine ⟨v', h.shows, h.base, h.grown, h.others hs hv hi, hhas, by rw [hino], hslot ▸ h.new.symm, rfl,
    fun hp => absurd hz hp, fun _ => h.clear, ?_, h.kept⟩
  rw [h.next, cost, cost, if_pos hd, if_pos (by omega)]
  omega

theorem block_indirect (hn : Has v i ndirect) (hz : v.ptr i (slotOf ndirect) = 0)
    (hroom : fits → s.freeblock + 1 < fssize) :
    wp (block (v.ino i) ndirect) (fun r t => ∃ v', Located v v' s t i ndirect ndirect r)
      (fun _ _ => ¬ fits) s := by
  obtain ⟨e, hslot, he⟩ := slotOf_entry (Nat.lt_irrefl ndirect) (by decide)
  have hnone : (v.ino i).addrs 12 = 0 := by
    by_contra hne
    exact absurd (hn.ind.1 hne) (Nat.lt_irrefl _)
  unfold block
  rw [if_neg (Nat.lt_irrefl ndirect), ← he]
  by_cases hlt : s.freeblock < fssize
  · rw [wp_bind]
    refine wp_imp (addr_new hs hv hi hnone hlt) ?_
    rintro _ t ⟨v1, h1, rfl⟩
    have hind : ((v1.ino i).addrs 12).toNat = s.freeblock := h1.new
    have hind0 : (v1.ino i).addrs 12 ≠ 0 := fun h => hs.freeblock_ne (by rw [← hind, h]; rfl)
    have hi1 := h1.grown.keeps_iff.2 hi
    have hz1 : v1.ptr i (.entry e) = 0 := by
      rw [h1.other hs hv hi hi (l := .entry e) (by rintro ⟨⟩), ← hslot, hz]
    have hroom1 : fits → t.freeblock < fssize := by
      rw [h1.next]
      exact hroom
    rw [← hind]
    refine wp_imp (entry_fetch h1.shows h1.base hi1 hind0 hz1 hroom1 (v1.ino i)) ?_
    rintro _ u ⟨v', h, hino, rfl⟩
    have hhas : Has v' i (ndirect + 1) := by
      refine hn.succ (by decide) ?_ (fun bn hne => ?_) ?_
      · rw [hslot, h.new]
        exact h1.shows.freeblock_ne
      · rw [h.other h1.shows h1.base hi1 hi1 fun he => hne ((Prod.mk.inj he).2.trans hslot.symm)]
        exact h1.other hs hv hi hi fun he => slotOf_ne_indirect bn (Prod.mk.inj he).2
      · rw [hino]
        exact iff_of_true hind0 (Nat.lt_succ_self _)
    refine ⟨v', h.shows, h.base, h1.grown.trans h.grown, fun j hj hk l => ?_, hhas, by rw [hino],
      hslot ▸ h.new.symm, rfl, fun hp => absurd hz hp, fun _ => h.clear, ?_, h1.kept.trans h.kept⟩
    · rw [h.others h1.shows h1.base hi1 j hj (h1.grown.keeps_iff.2 hk), h1.others hs hv hi j hj hk]
    rw [h.next, h1.next, cost, cost, if_neg (Nat.lt_irrefl _), if_pos (Nat.lt_succ_self _)]
    omega
  · have hfull : s.freeblock = fssize := by
      have := hs.fits
      omega
    simp only [addr, hnone, wp_run, wp_nextBlock, entry, wp_rsect, Volume.setAddr_addrs_self, hfull,
      toNat_ofNat_of_lt fssize_lt, le_refl]
    exact fun hf => hlt (Nat.lt_of_succ_lt (hroom hf))

theorem block_rule (hbn : fbn < maxfile) (hn : Has v i n) (hlo : fbn ≤ n) (hhi : n ≤ fbn + 1)
    (hroom : fits → s.freeblock + cost (fbn + 1) ≤ fssize + cost n) :
    wp (block (v.ino i) fbn) (fun r t => ∃ v', Located v v' s t i n fbn r) (fun _ _ => ¬ fits) s := by
  rcases Nat.lt_or_ge fbn n with hold | hnew
  · obtain rfl : n = fbn + 1 := by omega
    exact wp_imp (block_old hs hv hi hbn hn) fun r t h => ⟨v, h⟩
  obtain rfl : fbn = n := by omega
  have hz : v.ptr i (slotOf fbn) = 0 := by
    by_contra hp
    exact absurd ((hn.block fbn hbn).1 hp) (Nat.lt_irrefl fbn)
  unfold cost at hroom
  rcases Nat.lt_trichotomy fbn ndirect with hd | rfl | hd
  · rw [if_neg (by omega), if_neg (by omega)] at hroom
    exact block_direct hs hv hi hd hn hz fun hf => by have := hroom hf; omega
  · rw [if_neg (Nat.lt_irrefl _), if_pos (Nat.lt_succ_self _)] at hroom
    exact block_indirect hs hv hi hn hz fun hf => by have := hroom hf; omega
  · rw [if_pos (by omega), if_pos (by omega)] at hroom
    exact block_entry hs hv hi hd hbn hn hz fun hf => by have := hroom hf; omega

end

/-! ## Appending -/

variable {off : ℕ} {p : List UInt8}

/-- Blocks with data in a file of `n` bytes. -/
def blocksOf (n : ℕ) : ℕ := (n + bsize - 1) / bsize

/-- After the end of the file its last block is clear. -/
def Pad (v : Volume) (i off : ℕ) : Prop :=
  ∀ o, off ≤ o → o < blocksOf off * bsize → v.byteAt i o = 0

theorem cost_mono {m : ℕ} (h : m ≤ n) : cost m ≤ cost n := by
  unfold cost
  split <;> split <;> omega

theorem Has.mapped (h : Has v i (blocksOf off)) (hoff : off ≤ maxfile * bsize) : v.Mapped i off := by
  intro bn hbn
  have hlt : bn < maxfile := by
    unfold bsize at *
    omega
  refine ⟨hlt, (h.block bn hlt).2 ?_⟩
  unfold blocksOf bsize at *
  omega

/-- The bytes `p` are appended to file `i` of `off` bytes; its size is not changed yet. -/
structure Appended (v v' : Volume) (s s' : Img) (i off : ℕ) (p : List UInt8) : Prop where
  shows : Shows v' s'
  base : v'.Base wide
  written : Volume.Written wide v v' i off p
  other : ∀ j, j ≠ i → v.Keeps wide j → ∀ l, v'.ptr j l = v.ptr j l
  has : Has v' i (blocksOf (off + p.length))
  pad : Pad v' i (off + p.length)
  count : s'.freeblock + cost (blocksOf off) = s.freeblock + cost (blocksOf (off + p.length))
  kept : Kept s s'

theorem Appended.nil (hs : Shows v s) (hv : v.Base wide) (hn : Has v i (blocksOf off))
    (hpad : Pad v i off) : Appended v v s s i off [] :=
  ⟨hs, hv, .nil wide v i off, fun _ _ _ _ => rfl, hn, hpad, rfl, .refl s⟩

theorem Appended.append {v'' : Volume} {s'' : Img} {a q : List UInt8}
    (h : Appended v v' s s' i off a) (h' : Appended v' v'' s' s'' i (off + a.length) q)
    (hi : v.Keeps wide i) (hoff : v.Mapped i off) : Appended v v'' s s'' i off (a ++ q) := by
  have hlen : off + (a ++ q).length = off + a.length + q.length := by
    rw [List.length_append, Nat.add_assoc]
  refine ⟨h'.shows, h'.base, h.written.append h'.written hi hoff, fun j hj hk l => ?_, ?_, ?_, ?_,
    h.kept.trans h'.kept⟩
  · rw [h'.other j hj (h.written.keeps_iff.2 hk), h.other j hj hk]
  · rw [hlen]
    exact h'.has
  · rw [hlen]
    exact h'.pad
  · have := h.count
    have := h'.count
    rw [hlen]
    omega

theorem byteAt_setData (hv : v.Base wide) (hi : v.Keeps wide i) {bn o : ℕ} (ho : bn = o / bsize)
    (f : ℕ → UInt8) : (v.setData (v.ptr i (slotOf bn)) f).byteAt i o = f (o % bsize) := by
  rw [Volume.byteAt, hv.toOwned.ptr_setData hi (slotOf_ne_indirect _) f hi, ← ho]
  exact congrFun (update_self ..) _

/-- One round of the loop: `part` goes to the block at the end of the file. -/
theorem Located.write {r : Dinode × ℕ × (ℕ → UInt8)}
    (h : Located v v' s s' i (blocksOf off) (off / bsize) r) (part : List UInt8) (hv : v.Base wide)
    (hi : v.Keeps wide i) (hbn : off / bsize < maxfile) (hn : Has v i (blocksOf off))
    (hpad : Pad v i off) (hpos : 0 < part.length) (hfit : off % bsize + part.length ≤ bsize) :
    ∃ v'', Appended v v'' s
      (s'.put r.2.1 (patch r.2.2 (off % bsize) part.length fun k => part.getD k 0)) i off part ∧
      v''.ino i = r.1 := by
  obtain ⟨din, x, buf⟩ := r
  obtain rfl : x = v'.ptr i (slotOf (off / bsize)) := h.ptr
  obtain rfl : buf = v'.data (v'.ptr i (slotOf (off / bsize))) := h.buf
  have hp : v'.ptr i (slotOf (off / bsize)) ≠ 0 := (h.has.block _ hbn).2 (Nat.lt_succ_self _)
  have hi' := h.grown.keeps_iff.2 hi
  have hne := slotOf_ne_indirect (off / bsize)
  obtain ⟨hbase, hw⟩ := hv.write h.grown h.base hi hpos hfit hbn hp fun hp0 => by rw [h.same hp0]
  obtain ⟨hlo, hhi⟩ := h.shows.ptr_lt h.base hi' hp
  have hblocks : blocksOf (off + part.length) = off / bsize + 1 := by
    unfold blocksOf bsize at *
    omega
  refine ⟨_, ⟨h.shows.put hhi _, hbase, hw, fun j hj hk l => ?_, ?_, ?_, ?_,
    h.kept.trans (.put hlo _)⟩, h.din.symm⟩
  · rw [h.base.toOwned.ptr_setData hi' hne _ (h.grown.keeps_iff.2 hk), h.other j hj hk]
  · rw [hblocks]
    refine ⟨fun bn hlt => ?_, h.has.ind⟩
    rw [h.base.toOwned.ptr_setData hi' hne _ hi', h.has.block bn hlt]
  · intro o h1 h2
    rw [hblocks] at h2
    have hdiv : o / bsize = off / bsize := by
      unfold bsize at *
      omega
    have hout : off % bsize + part.length ≤ o % bsize := by
      unfold bsize at *
      omega
    have hbyte : v'.data (v'.ptr i (slotOf (off / bsize))) (o % bsize) = 0 := by
      by_cases hz : v.ptr i (slotOf (off / bsize)) = 0
      · exact congrFun (h.clear hz) _
      · have hlt := (hn.block _ hbn).1 hz
        have hold := hpad o (by omega) (h2.trans_le (Nat.mul_le_mul_right _ hlt))
        rwa [Volume.byteAt, hdiv, ← h.same hz] at hold
    rw [← hbyte, byteAt_setData h.base hi' hdiv.symm]
    exact patch_out (.inr hout)
  · rw [hblocks]
    exact h.count

theorem patch_congr {f g g' : ℕ → UInt8} {o m : ℕ} (h : ∀ k < m, g k = g' k) :
    patch f o m g = patch f o m g' := by
  funext x
  unfold patch
  split
  · exact h _ (by omega)
  · rfl

theorem appendLoop_rule (hs : Shows v s) (hv : v.Base wide) (hi : v.Keeps wide i)
    (hn : Has v i (blocksOf off)) (hpad : Pad v i off) (hoff : off ≤ maxfile * bsize)
    (hmax : fits → off + p.length ≤ maxfile * bsize)
    (hroom : fits → s.freeblock + cost (blocksOf (off + p.length)) ≤ fssize + cost (blocksOf off))
    {fuel : ℕ} (hfuel : p.length ≤ fuel) :
    wp (appendLoop fuel (v.ino i) off p)
      (fun r t => ∃ v', Appended v v' s t i off p ∧ r = (v'.ino i, off + p.length))
      (fun _ _ => ¬ fits) s := by
  induction fuel generalizing v s off p with
  | zero =>
    obtain rfl : p = [] := List.length_eq_zero_iff.1 (by omega)
    exact ⟨v, .nil hs hv hn hpad, rfl⟩
  | succ fuel ih =>
    by_cases hz : p.length = 0
    · obtain rfl := List.length_eq_zero_iff.1 hz
      exact ⟨v, .nil hs hv hn hpad, rfl⟩
    have hblocks : off / bsize + 1 ≤ blocksOf (off + p.length) := by
      unfold blocksOf bsize
      omega
    simp only [appendLoop, hz, if_false]
    by_cases hbn : maxfile ≤ off / bsize
    · simp only [hbn, wp_run]
      intro hf
      have := hmax hf
      unfold bsize at *
      omega
    simp only [hbn, if_false, wp_bind]
    have hroom1 : fits → s.freeblock + cost (off / bsize + 1) ≤ fssize + cost (blocksOf off) := by
      intro hf
      have := hroom hf
      have := cost_mono hblocks
      omega
    refine wp_imp (block_rule hs hv hi (Nat.lt_of_not_le hbn) hn
      (by unfold blocksOf bsize; omega) (by unfold blocksOf bsize; omega) hroom1) ?_
    rintro ⟨din, x, buf⟩ t ⟨v1, h1⟩
    -- the bytes that still fit in the block
    have hoffset : off - off / bsize * bsize = off % bsize := by
      have := Nat.div_add_mod off bsize
      rw [Nat.mul_comm]
      omega
    generalize hm : min p.length ((off / bsize + 1) * bsize - off) = m
    have hmpos : 0 < m ∧ m ≤ p.length ∧ off % bsize + m ≤ bsize := by
      unfold bsize at *
      omega
    have hnext : off + m ≤ maxfile * bsize := by
      have := hmpos.2.2
      clear hm
      unfold bsize at *
      omega
    have hlen : (p.take m).length = m := by
      rw [List.length_take]
      omega
    have hbytes : ∀ k < m, p.getD k 0 = (p.take m).getD k 0 := by
      intro k hk
      simp only [List.getD_eq_getElem?_getD, List.getElem?_take_of_lt hk]
    obtain ⟨v2, h2, hino⟩ := h1.write (p.take m) hv hi (Nat.lt_of_not_le hbn) hn hpad
      (by omega) (by omega)
    rw [hlen] at h2
    rw [wp_wsect, hoffset, patch_congr hbytes, ← hino]
    have hdrop : (p.drop m).length = p.length - m := List.length_drop ..
    have hrest : off + m + (p.drop m).length = off + p.length := by omega
    have hhas := h2.has
    have hpad2 := h2.pad
    have hcount : t.freeblock + cost (blocksOf off) = s.freeblock + cost (blocksOf (off + m)) := by
      have := h2.count
      rwa [hlen] at this
    rw [hlen] at hhas hpad2
    refine wp_imp (ih h2.shows h2.base (h2.written.keeps_iff.2 hi) hhas hpad2
      hnext ?_ ?_ (by omega)) ?_
    · rw [hrest]
      exact hmax
    · intro hf
      have := hroom hf
      rw [hrest]
      show t.freeblock + _ ≤ _
      omega
    · rintro _ u ⟨v', h', rfl⟩
      refine ⟨v', ?_, by rw [hrest]⟩
      have := h2.append (q := p.drop m) (by rwa [hlen]) hi (hn.mapped hoff)
      rwa [List.take_append_drop] at this

end Xv6.Mkfs

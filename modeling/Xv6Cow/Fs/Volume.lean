import Xv6Cow.Fs.Files
import Xv6Cow.Lib.Own

/-!
# Volumes: which inode owns which block

A volume is what the blocks mean: which are marked in the bitmap, the inodes, and the data of the
blocks in the data area.  `Owned` says that every block of the data area that is marked is held by
exactly one slot of one inode, and no other is held; `Full` that files have no holes.
-/

namespace Xv6.Blocks

open Function Bytes Lts

/-! ## Volumes -/

namespace Superblock

/-- The first of the `nblocks` data blocks, which are the last blocks of the disk. -/
def dataStart (sb : Superblock) : ℕ := sb.size - sb.nblocks

/-- The block lies in the data area. -/
def Area (sb : Superblock) (b : ℕ) : Prop := sb.dataStart ≤ b ∧ b < sb.size

instance (sb : Superblock) (b : ℕ) : Decidable (sb.Area b) := inferInstanceAs (Decidable (_ ∧ _))

/-- The regions of the disk lie one after another, and block numbers are `int`s. -/
structure Laid (sb : Superblock) : Prop where
  super : 1 < sb.inodestart
  inodes : sb.ninodes ≤ ipb * (sb.bmapstart - sb.inodestart)
  bitmap : sb.bmapstart + (sb.size + bpb - 1) / bpb ≤ sb.dataStart
  root : rootino < sb.ninodes
  size : sb.size < 2 ^ 31

end Superblock

@[ext] structure Volume where
  used : ℕ → Bool
  ino : ℕ → Dinode
  data : ℕ → ℕ → UInt8

namespace Volume

variable (sb : Superblock) (v : Volume)

/-- An allocated inode that is not a device. -/
def Keeps (i : ℕ) : Prop := i < sb.ninodes ∧ (v.ino i).type ≠ 0 ∧ (v.ino i).type ≠ tDev

instance (i : ℕ) : Decidable (v.Keeps sb i) := inferInstanceAs (Decidable (_ ∧ _ ∧ _))

def ptr (i : ℕ) (k : Slot) : ℕ := (v.ino i).ptr v.data k

/-- The block that a slot of an inode holds. -/
def own (x : ℕ × Slot) : Option ℕ :=
  if v.Keeps sb x.1 ∧ v.ptr x.1 x.2 ≠ 0 then some (v.ptr x.1 x.2) else none

/-- Blocks of the data area are held once if they are marked, and only then. -/
structure Owned : Prop where
  own : Own (v.own sb) v.used
  area : ∀ {x b}, v.own sb x = some b → sb.Area b
  covers : ∀ {b}, sb.Area b → v.used b = true → ∃ x, v.own sb x = some b

/-- The file has a block for each of its first `n` bytes. -/
def Mapped (i n : ℕ) : Prop := ∀ bn, bn * bsize < n → bn < maxfile ∧ v.ptr i (slotOf bn) ≠ 0

/-- No inode has a hole. -/
def Full : Prop := ∀ i, v.Keeps sb i → v.Mapped i (v.ino i).size.toNat

/-- Byte `o` of the file. -/
def byteAt (i o : ℕ) : UInt8 := v.data (v.ptr i (slotOf (o / bsize))) (o % bsize)

/-- Entries of the directory name inodes of the disk. -/
def Named (i : ℕ) : Prop :=
  v.Keeps sb i → (v.ino i).type = tDir → ∀ k, direntSize * k + direntSize ≤ (v.ino i).size.toNat →
    le (fun x => v.byteAt i (direntSize * k + x)) 0 2 < sb.ninodes

/-- What the code keeps of the blocks and the inodes. -/
structure Base : Prop extends v.Owned sb where
  fixed : ∀ b < sb.dataStart, v.used b = true
  full : v.Full sb
  /-- Devices have no blocks. -/
  bare : ∀ i < sb.ninodes, (v.ino i).type = tDev → ∀ j, (v.ino i).addrs j = 0

structure Ok : Prop extends v.Base sb where
  named : ∀ i, v.Named sb i

end Volume

/-! ## Slots -/

/-- The slot of `addrs[j]`. -/
def addrSlot (j : Fin 13) : Slot := if h : j.val < 12 then .direct ⟨j, h⟩ else .indirect

@[simp] theorem ptr_addrSlot (d : Dinode) (data : ℕ → ℕ → UInt8) (j : Fin 13) :
    d.ptr data (addrSlot j) = (d.addrs j).toNat := by
  unfold addrSlot
  split
  · rfl
  have : j = 12 := by
    apply Fin.ext
    have := j.isLt
    show j.val = 12
    omega
  rw [this]
  rfl

theorem addrSlot_castSucc (j : Fin 12) : addrSlot j.castSucc = .direct j := by
  unfold addrSlot
  rw [dif_pos (show j.castSucc.val < 12 from j.isLt)]
  rfl

theorem slotOf_ne_indirect (bn : ℕ) : slotOf bn ≠ .indirect := by
  unfold slotOf
  split <;> rintro ⟨⟩

theorem slotOf_direct {bn : ℕ} (h : bn < ndirect) : slotOf bn = addrSlot (Fin.ofNat 13 bn) := by
  unfold slotOf ndirect at *
  rw [if_pos h, ← addrSlot_castSucc]
  congr 1
  apply Fin.ext
  simp only [Fin.val_castSucc, Fin.val_ofNat]
  omega

theorem slotOf_entry {bn : ℕ} (h : ¬ bn < ndirect) (hlt : bn < maxfile) :
    ∃ e : Fin 128, slotOf bn = .entry e ∧ (e : ℕ) = bn - ndirect := by
  refine ⟨Fin.ofNat 128 (bn - ndirect), if_neg h, Nat.mod_eq_of_lt ?_⟩
  unfold maxfile nindirect at hlt
  omega

theorem slotOf_inj {bn bn' : ℕ} (h : bn < maxfile) (h' : bn' < maxfile)
    (heq : slotOf bn = slotOf bn') : bn = bn' := by
  have hm : maxfile = 140 := rfl
  have hd : ndirect = 12 := rfl
  unfold slotOf at heq
  split at heq <;> split at heq
  · have := congrArg Fin.val (Slot.direct.inj heq)
    simp only [Fin.val_ofNat] at this
    omega
  · cases heq
  · cases heq
  · have := congrArg Fin.val (Slot.entry.inj heq)
    simp only [Fin.val_ofNat] at this
    omega

@[simp] theorem word_zero (j : ℕ) : word (fun _ => 0) j = 0 := rfl

theorem toNat_ofNat_of_lt {b : ℕ} (h : b < 2 ^ 31) : (UInt32.ofNat b).toNat = b := by
  rw [UInt32.toNat_ofNat', Nat.mod_eq_of_lt (by omega)]

namespace Volume

variable {sb : Superblock} {v v' : Volume} {i j b c : ℕ} {k l : Slot} {x : ℕ × Slot}

theorem own_eq_some : v.own sb x = some b ↔ v.Keeps sb x.1 ∧ b ≠ 0 ∧ v.ptr x.1 x.2 = b := by
  unfold own
  split
  · next h =>
    simp only [Option.some.injEq]
    exact ⟨fun hb => ⟨h.1, hb ▸ h.2, hb⟩, fun hb => hb.2.2⟩
  next h =>
  simp only [reduceCtorEq, false_iff]
  rintro ⟨hk, hb, rfl⟩
  exact h ⟨hk, hb⟩

theorem own_of_ptr (hk : v.Keeps sb i) (hp : v.ptr i k ≠ 0) : v.own sb (i, k) = some (v.ptr i k) :=
  own_eq_some.2 ⟨hk, hp, rfl⟩

theorem own_none_of_ptr (hp : v.ptr i k = 0) : v.own sb (i, k) = none := by
  unfold own
  rw [if_neg fun h => h.2 hp]

theorem own_none_of_not (hk : ¬ v.Keeps sb i) : v.own sb (i, k) = none := by
  unfold own
  rw [if_neg fun h => hk h.1]

namespace Owned

theorem used_of_ptr (h : v.Owned sb) (hk : v.Keeps sb i) (hp : v.ptr i k ≠ 0) :
    v.used (v.ptr i k) = true := h.own.used (own_of_ptr hk hp)

theorem area_of_ptr (h : v.Owned sb) (hk : v.Keeps sb i) (hp : v.ptr i k ≠ 0) :
    sb.Area (v.ptr i k) := h.area (own_of_ptr hk hp)

theorem slot_eq (h : v.Owned sb) (hi : v.Keeps sb i) (hj : v.Keeps sb j) (hp : v.ptr i k ≠ 0)
    (heq : v.ptr i k = v.ptr j l) : i = j ∧ k = l := by
  have := h.own.inj (own_of_ptr hi hp) (heq ▸ own_of_ptr hj (heq ▸ hp))
  exact ⟨congrArg Prod.fst this, congrArg Prod.snd this⟩

theorem ptr_ne (h : v.Owned sb) (hk : v.Keeps sb i) (hp : v.ptr i k ≠ 0) (hb : v.used b = false) :
    v.ptr i k ≠ b := by
  rintro rfl
  rw [h.used_of_ptr hk hp] at hb
  cases hb

theorem take (h : v.Owned sb) (hb : sb.Area b) (hu : v.used b = false)
    (hx : v'.own sb x = some b) (ho : ∀ y, y ≠ x → v'.own sb y = v.own sb y)
    (hnone : v.own sb x = none) (hused : v'.used = update v.used b true) :
    v'.Owned sb := by
  refine ⟨hused ▸ h.own.take hu hx ho, fun {y c} hy => ?_, fun {c} hc hcu => ?_⟩
  · by_cases hyx : y = x
    · rw [hyx, hx] at hy
      exact Option.some.inj hy ▸ hb
    · exact h.area (ho y hyx ▸ hy)
  by_cases hcb : c = b
  · exact ⟨x, hcb ▸ hx⟩
  rw [hused, update_of_ne hcb] at hcu
  obtain ⟨y, hy⟩ := h.covers hc hcu
  have hyx : y ≠ x := by
    rintro rfl
    rw [hnone] at hy
    cases hy
  exact ⟨y, (ho y hyx).trans hy⟩

end Owned

end Volume

theorem Superblock.Laid.area_ne_zero {sb : Superblock} (h : sb.Laid) {b : ℕ} (hb : sb.Area b) :
    b ≠ 0 := by
  have hsuper := h.super
  have hinodes := h.inodes
  have hroot := h.root
  have hbitmap := h.bitmap
  have harea := hb.1
  simp only [ipb, bpb, rootino] at hinodes hroot hbitmap
  omega

theorem Superblock.Laid.area_lt {sb : Superblock} (h : sb.Laid) {b : ℕ} (hb : sb.Area b) :
    b < 2 ^ 31 := hb.2.trans h.size

/-! ## A file gets another block -/

theorem Dinode.ptr_congr {d : Dinode} {data data' : ℕ → ℕ → UInt8} (k : Slot)
    (h : d.addrs 12 ≠ 0 → data' (d.addrs 12).toNat = data (d.addrs 12).toNat) :
    d.ptr data' k = d.ptr data k := by
  cases k with
  | direct j => rfl
  | indirect => rfl
  | entry j =>
    by_cases hz : d.addrs 12 = 0
    · simp only [Dinode.ptr, hz, if_true]
    · simp only [Dinode.ptr, hz, if_false, h hz]

theorem addrs_eq_zero {d : Dinode} {j : Fin 13} : d.addrs j = 0 ↔ (d.addrs j).toNat = 0 :=
  UInt32.toNat_inj.symm

namespace Volume

def setIno (v : Volume) (i : ℕ) (d : Dinode) : Volume := { v with ino := update v.ino i d }

def setData (v : Volume) (b : ℕ) (f : ℕ → UInt8) : Volume :=
  { v with data := update v.data b f }

def setUsed (v : Volume) (b : ℕ) (val : Bool) : Volume :=
  { v with used := update v.used b val }

/-- `balloc` marks the block and clears it. -/
def alloc (v : Volume) (b : ℕ) : Volume := (v.setUsed b true).setData b fun _ => 0

theorem setIno_ino_self (v : Volume) (i : ℕ) (d : Dinode) : (v.setIno i d).ino i = d :=
  update_self ..

theorem setIno_ino_of_ne (v : Volume) {i j : ℕ} (h : j ≠ i) (d : Dinode) :
    (v.setIno i d).ino j = v.ino j := update_of_ne h ..

/-- Inode `i` may have more blocks; nothing that was there has changed. -/
structure Grown (sb : Superblock) (v v' : Volume) (i : ℕ) : Prop where
  ino : ∀ j, j ≠ i → v'.ino j = v.ino j
  copy : ∃ a, v'.ino i = { v.ino i with addrs := a }
  ptr : ∀ {j k}, v.Keeps sb j → v.ptr j k ≠ 0 → v'.ptr j k = v.ptr j k
  data : ∀ {j k}, v.Keeps sb j → k ≠ .indirect → v.ptr j k ≠ 0 →
    v'.data (v.ptr j k) = v.data (v.ptr j k)

variable {sb : Superblock} {v v' v'' : Volume} {i j b c n o : ℕ} {k l : Slot} {x : ℕ × Slot}

namespace Grown

theorem refl (sb : Superblock) (v : Volume) (i : ℕ) : Grown sb v v i :=
  ⟨fun _ _ => rfl, ⟨(v.ino i).addrs, rfl⟩, fun _ _ => rfl, fun _ _ _ => rfl⟩

section

variable (h : Grown sb v v' i)

include h

theorem type_eq (j : ℕ) : (v'.ino j).type = (v.ino j).type := by
  by_cases hj : j = i
  · obtain ⟨a, ha⟩ := h.copy
    rw [hj, ha]
  · rw [h.ino j hj]

theorem size_eq (j : ℕ) : (v'.ino j).size = (v.ino j).size := by
  by_cases hj : j = i
  · obtain ⟨a, ha⟩ := h.copy
    rw [hj, ha]
  · rw [h.ino j hj]

theorem keeps_iff : v'.Keeps sb j ↔ v.Keeps sb j := by
  unfold Keeps
  rw [h.type_eq]

theorem mapped (hk : v.Keeps sb j) (hm : v.Mapped j n) : v'.Mapped j n := by
  intro bn hbn
  obtain ⟨hlt, hp⟩ := hm bn hbn
  exact ⟨hlt, (h.ptr hk hp).symm ▸ hp⟩

theorem byteAt (hk : v.Keeps sb j) (hm : v.Mapped j n) (ho : o < n) :
    v'.byteAt j o = v.byteAt j o := by
  have hp := (hm (o / bsize) (by have := Nat.div_mul_le_self o bsize; omega)).2
  unfold Volume.byteAt
  rw [h.ptr hk hp, h.data hk (slotOf_ne_indirect _) hp]

theorem trans (h' : Grown sb v' v'' i) : Grown sb v v'' i where
  ino j hj := (h'.ino j hj).trans (h.ino j hj)
  copy := by
    obtain ⟨a, ha⟩ := h.copy
    obtain ⟨a', ha'⟩ := h'.copy
    exact ⟨a', by rw [ha', ha]⟩
  ptr {j k} hk hp := by
    have h1 := h.ptr hk hp
    rw [h'.ptr (h.keeps_iff.2 hk) (h1 ▸ hp), h1]
  data {j k} hk hi hp := by
    have h1 := h.ptr hk hp
    have h2 := h'.data (h.keeps_iff.2 hk) hi (h1 ▸ hp)
    rw [h1] at h2
    rw [h2, h.data hk hi hp]

end

end Grown

theorem Base.extend (h : v.Base sb) (hsb : sb.Laid) (hi : v.Keeps sb i) (hg : Grown sb v v' i)
    (hb : sb.Area b) (hu : v.used b = false) (hz : v.ptr i k = 0) (hx : v'.ptr i k = b)
    (ho : ∀ j l, v.Keeps sb j → (j, l) ≠ (i, k) → v.ptr j l = 0 → v'.ptr j l = 0)
    (hused : v'.used = update v.used b true) : v'.Base sb where
  toOwned := by
    have hnew : v'.own sb (i, k) = some b :=
      own_eq_some.2 ⟨hg.keeps_iff.2 hi, hsb.area_ne_zero hb, hx⟩
    refine h.toOwned.take hb hu hnew ?_ (own_none_of_ptr hz) hused
    rintro ⟨j, l⟩ hne
    by_cases hk : v.Keeps sb j
    · by_cases hp : v.ptr j l = 0
      · rw [own_none_of_ptr hp, own_none_of_ptr (ho j l hk hne hp)]
      · have hp' := hg.ptr hk hp
        rw [own_of_ptr hk hp, own_of_ptr (hg.keeps_iff.2 hk) (hp' ▸ hp), hp']
    · rw [own_none_of_not hk, own_none_of_not (fun hk' => hk (hg.keeps_iff.1 hk'))]
  fixed c hc := by
    rw [hused]
    by_cases hcb : c = b
    · rw [hcb, update_self]
    · rw [update_of_ne hcb]
      exact h.fixed c hc
  full j hk := by
    rw [hg.size_eq]
    exact hg.mapped (hg.keeps_iff.1 hk) (h.full j (hg.keeps_iff.1 hk))
  bare j hj ht := by
    have hji : j ≠ i := by
      rintro rfl
      exact hi.2.2 ((hg.type_eq j).symm.trans ht)
    rw [hg.ino j hji] at ht ⊢
    exact h.bare j hj ht

theorem Owned.ptr_update (h : v.Owned sb) (hk : v.Keeps sb i) (hu : v.used b = false)
    (f : ℕ → UInt8) (k : Slot) : (v.ino i).ptr (update v.data b f) k = v.ptr i k := by
  refine Dinode.ptr_congr k fun hne => update_of_ne ?_ _ _
  exact h.ptr_ne (k := .indirect) hk (fun hz => hne (addrs_eq_zero.2 hz)) hu

theorem setAddr_addrs_self (d : Dinode) (j : Fin 13) (b : ℕ) :
    (d.setAddr j b).addrs j = UInt32.ofNat b := update_self ..

theorem setAddr_addrs_of_ne (d : Dinode) {j j' : Fin 13} (h : j' ≠ j) (b : ℕ) :
    (d.setAddr j b).addrs j' = d.addrs j' := update_of_ne h ..

variable {d : Dinode}

/-- A slot of `addrs` that was 0 is set; the others stay.  A new indirect block is clear. -/
theorem setAddr_ptr {j : Fin 13} {data : ℕ → ℕ → UInt8} (hz : d.addrs j = 0)
    (hb : b < 2 ^ 31) (hclear : data b = fun _ => 0) (hk : k ≠ addrSlot j) :
    (d.setAddr j b).ptr data k = d.ptr data k := by
  cases k with
  | direct l =>
    have hne : l.castSucc ≠ j := by
      rintro rfl
      exact hk (addrSlot_castSucc l).symm
    simp only [Dinode.ptr, setAddr_addrs_of_ne d hne]
  | indirect =>
    have hne : (12 : Fin 13) ≠ j := by
      rintro rfl
      exact hk rfl
    simp only [Dinode.ptr, setAddr_addrs_of_ne d hne]
  | entry e =>
    by_cases hj : j = 12
    · subst hj
      simp only [Dinode.ptr, hz, if_true, setAddr_addrs_self, toNat_ofNat_of_lt hb, hclear,
        word_zero, ite_self]
    · simp only [Dinode.ptr, setAddr_addrs_of_ne d (Ne.symm hj)]

theorem Base.alloc_addr (h : v.Base sb) (hsb : sb.Laid) (hi : v.Keeps sb i) {j : Fin 13}
    (hz : (v.ino i).addrs j = 0) (hb : sb.Area b) (hu : v.used b = false) :
    let v' := (v.alloc b).setIno i ((v.ino i).setAddr j b)
    v'.Base sb ∧ Grown sb v v' i ∧ ((v'.ino i).addrs j).toNat = b := by
  intro v'
  have hlt := hsb.area_lt hb
  have hself : v'.ino i = (v.ino i).setAddr j b := update_self ..
  have hother : ∀ j', j' ≠ i → v'.ino j' = v.ino j' := fun j' hj' => update_of_ne hj' ..
  have hclear : v'.data b = fun _ => 0 := update_self ..
  have hnew : ((v'.ino i).addrs j).toNat = b := by
    rw [hself, setAddr_addrs_self, toNat_ofNat_of_lt hlt]
  -- pointers other than the new one
  have hptr : ∀ j' l, v.Keeps sb j' → (j', l) ≠ (i, addrSlot j) → v'.ptr j' l = v.ptr j' l := by
    intro j' l hk hne
    have hkeep := h.toOwned.ptr_update hk hu (fun _ => 0) l
    by_cases hj' : j' = i
    · subst hj'
      have hl : l ≠ addrSlot j := fun hl => hne (by rw [hl])
      rw [Volume.ptr, hself, setAddr_ptr hz hlt hclear hl]
      exact hkeep
    · rw [Volume.ptr, hother j' hj']
      exact hkeep
  have hold : v.ptr i (addrSlot j) = 0 := by
    rw [Volume.ptr, ptr_addrSlot]
    exact addrs_eq_zero.1 hz
  have hg : Grown sb v v' i := by
    refine ⟨hother, ⟨_, hself⟩, fun {j' l} hk hp => hptr j' l hk ?_, fun {j' l} hk _ hp => ?_⟩
    · rintro heq
      obtain ⟨rfl, rfl⟩ := Prod.mk.inj heq
      exact hp hold
    · exact update_of_ne (h.toOwned.ptr_ne hk hp hu) ..
  refine ⟨h.extend hsb hi hg hb hu hold ?_ ?_ rfl, hg, hnew⟩
  · rw [Volume.ptr, ptr_addrSlot, hnew]
  · intro j' l hk hne hp
    rw [hptr j' l hk hne, hp]

theorem word_patch_self (f : ℕ → UInt8) (e : ℕ) (hb : b < 2 ^ 31) :
    word (patch f (4 * e) 4 (leByte b)) e = b := by
  have hread := le_patch_in (f := f) (g := leByte b) (o := 4 * e) (n := 4) (p := 0) (m := 4) (by omega)
  exact hread.trans (le_leByte_of_lt (by omega))

theorem word_patch_of_ne (f g : ℕ → UInt8) {e e' : ℕ} (h : e' ≠ e) :
    word (patch f (4 * e) 4 g) e' = word f e' :=
  le_patch_out (by omega)

theorem Base.alloc_entry (h : v.Base sb) (hsb : sb.Laid) (hi : v.Keeps sb i)
    (hind : (v.ino i).addrs 12 ≠ 0) (e : Fin 128) (hz : v.ptr i (.entry e) = 0) (hb : sb.Area b)
    (hu : v.used b = false) :
    let ind := ((v.ino i).addrs 12).toNat
    let v' := (v.alloc b).setData ind (patch (v.data ind) (4 * e) 4 (leByte b))
    v'.Base sb ∧ Grown sb v v' i ∧ v'.ptr i (.entry e) = b := by
  intro ind v'
  have hlt := hsb.area_lt hb
  have hdata : v'.data ind = patch (v.data ind) (4 * e) 4 (leByte b) := update_self ..
  -- the words of the indirect block
  have hentry : ∀ e', v'.ptr i (.entry e') = if e' = e then b else v.ptr i (.entry e') := by
    intro e'
    have hnew : v'.ptr i (.entry e') = word (v'.data ind) e' := if_neg hind
    have hold : v.ptr i (.entry e') = word (v.data ind) e' := if_neg hind
    rw [hnew, hold, hdata]
    by_cases he : e' = e
    · rw [he, if_pos rfl, word_patch_self _ _ hlt]
    · rw [if_neg he, word_patch_of_ne _ _ fun hv => he (Fin.ext hv)]
  -- pointers other than the new one
  have hptr : ∀ j l, v.Keeps sb j → (j, l) ≠ (i, .entry e) → v'.ptr j l = v.ptr j l := by
    intro j l hk hne
    by_cases hj : j = i
    · subst hj
      cases l with
      | direct => rfl
      | indirect => rfl
      | entry e' =>
        rw [hentry, if_neg]
        rintro rfl
        exact hne rfl
    · have hkeep := h.toOwned.ptr_update hk hu (fun _ => 0) l
      rw [← hkeep]
      refine Dinode.ptr_congr l fun hne' => update_of_ne ?_ ..
      intro heq
      have hp : v.ptr j .indirect ≠ 0 := fun hz => hne' (addrs_eq_zero.2 hz)
      exact hj (h.toOwned.slot_eq hk hi hp (l := .indirect) heq).1
  have hg : Grown sb v v' i := by
    refine ⟨fun _ _ => rfl, ⟨(v.ino i).addrs, rfl⟩, fun {j l} hk hp => hptr j l hk ?_,
      fun {j l} hk hl hp => ?_⟩
    · rintro heq
      obtain ⟨rfl, rfl⟩ := Prod.mk.inj heq
      exact hp hz
    · have hne : v.ptr j l ≠ ind := fun heq => hl (h.toOwned.slot_eq hk hi hp (l := .indirect) heq).2
      exact (update_of_ne hne ..).trans (update_of_ne (h.toOwned.ptr_ne hk hp hu) ..)
  have hnew : v'.ptr i (.entry e) = b := by rw [hentry, if_pos rfl]
  refine ⟨h.extend hsb hi hg hb hu hz hnew ?_ rfl, hg, hnew⟩
  intro j l hk hne hp
  rw [hptr j l hk hne, hp]

theorem Owned.ptr_setData (h : v.Owned sb) (hi : v.Keeps sb i) (hk : k ≠ .indirect)
    (f : ℕ → UInt8) (hj : v.Keeps sb j) (l : Slot) :
    (v.setData (v.ptr i k) f).ptr j l = v.ptr j l := by
  refine Dinode.ptr_congr l fun hne => update_of_ne ?_ ..
  intro heq
  have hp' : v.ptr j .indirect ≠ 0 := fun hz => hne (addrs_eq_zero.2 hz)
  exact hk (h.slot_eq hj hi hp' (l := k) heq).2.symm

theorem Base.setData (h : v.Base sb) (hi : v.Keeps sb i) (hk : k ≠ .indirect) (f : ℕ → UInt8) :
    (v.setData (v.ptr i k) f).Base sb := by
  have hptr := fun j (hj : v.Keeps sb j) l => h.toOwned.ptr_setData hi hk f hj l
  have hown : (v.setData (v.ptr i k) f).own sb = v.own sb := by
    funext ⟨j, l⟩
    by_cases hj : v.Keeps sb j
    · unfold Volume.own
      rw [show (v.setData (v.ptr i k) f).ptr j l = v.ptr j l from hptr j hj l]
      rfl
    · rw [own_none_of_not hj, own_none_of_not (v := v.setData _ f) hj]
  refine ⟨⟨?_, ?_, ?_⟩, h.fixed, ?_, h.bare⟩
  · rw [hown]
    exact h.own
  · rw [hown]
    exact h.area
  · rw [hown]
    exact h.covers
  · intro j hj bn hbn
    obtain ⟨hlt, hne⟩ := h.full j hj bn hbn
    exact ⟨hlt, by rwa [hptr j hj]⟩

/-! ## An inode changes -/

theorem Base.setIno (h : v.Base sb) (hown : ∀ l, (v.setIno i d).own sb (i, l) = v.own sb (i, l))
    (hfull : d.type ≠ 0 → d.type ≠ tDev → (v.setIno i d).Mapped i d.size.toNat)
    (hbare : d.type = tDev → ∀ j, d.addrs j = 0) : (v.setIno i d).Base sb := by
  have hself := setIno_ino_self v i d
  have hother : ∀ j, j ≠ i → (v.setIno i d).ino j = v.ino j := fun j hj => setIno_ino_of_ne v hj d
  have hptr : ∀ j l, j ≠ i → (v.setIno i d).ptr j l = v.ptr j l := by
    intro j l hj
    rw [Volume.ptr, hother j hj]
    rfl
  have hkeeps : ∀ j, j ≠ i → ((v.setIno i d).Keeps sb j ↔ v.Keeps sb j) := by
    intro j hj
    unfold Keeps
    rw [hother j hj]
  have heq : (v.setIno i d).own sb = v.own sb := by
    funext ⟨j, l⟩
    by_cases hj : j = i
    · rw [hj, hown]
    by_cases hk : v.Keeps sb j
    · unfold Volume.own
      simp only [hkeeps j hj, hptr j l hj]
    · rw [own_none_of_not hk, own_none_of_not (fun hk' => hk ((hkeeps j hj).1 hk'))]
  refine ⟨⟨?_, ?_, ?_⟩, h.fixed, ?_, ?_⟩
  · rw [heq]
    exact h.own
  · rw [heq]
    exact h.area
  · rw [heq]
    exact h.covers
  · intro j hk
    by_cases hj : j = i
    · subst hj
      obtain ⟨-, ht, hd⟩ := hk
      rw [hself] at ht hd ⊢
      exact hfull ht hd
    · rw [hother j hj]
      intro bn hbn
      rw [hptr j _ hj]
      exact h.full j ((hkeeps j hj).1 hk) bn hbn
  · intro j hlt ht
    by_cases hj : j = i
    · subst hj
      rw [hself] at ht ⊢
      exact hbare ht
    · rw [hother j hj] at ht ⊢
      exact h.bare j hlt ht

theorem Base.blank (h : v.Base sb) (hnone : ∀ l, v.own sb (i, l) = none)
    (haddrs : ∀ j, d.addrs j = 0) (hsize : d.size = 0) : (v.setIno i d).Base sb := by
  have hself := setIno_ino_self v i d
  refine h.setIno (fun l => ?_) (fun _ _ bn hbn => ?_) fun _ => haddrs
  · rw [hnone]
    refine own_none_of_ptr ?_
    rw [Volume.ptr, hself]
    cases l with
    | direct j => exact addrs_eq_zero.1 (haddrs _)
    | indirect => exact addrs_eq_zero.1 (haddrs _)
    | entry j => exact if_pos (haddrs 12)
  · rw [hsize] at hbn
    exact absurd hbn (Nat.not_lt_zero _)

theorem Base.relabel (h : v.Base sb) (hi : i < sb.ninodes)
    (ht : d.type = (v.ino i).type) (hs : d.size = (v.ino i).size) (ha : d.addrs = (v.ino i).addrs) :
    (v.setIno i d).Base sb := by
  have hself := setIno_ino_self v i d
  have hptr : ∀ l, (v.setIno i d).ptr i l = v.ptr i l := by
    intro l
    rw [Volume.ptr, hself]
    cases l with
    | direct => simp only [Dinode.ptr, ha, Volume.ptr]
    | indirect => simp only [Dinode.ptr, ha, Volume.ptr]
    | entry => simp only [Dinode.ptr, ha, Volume.ptr, Volume.setIno]
  refine h.setIno (fun l => ?_) (fun ht0 htd bn hbn => ?_) fun htd j => ?_
  · unfold Volume.own Keeps
    simp only [hptr, hself, ht]
  · rw [hs] at hbn
    rw [hptr]
    exact h.full i ⟨hi, ht ▸ ht0, ht ▸ htd⟩ bn hbn
  · rw [ha]
    exact h.bare i hi (ht ▸ htd) j

theorem Base.resize (h : v.Base sb) (hi : v.Keeps sb i) {n : UInt32} (hm : v.Mapped i n.toNat) :
    (v.setIno i { v.ino i with size := n }).Base sb := by
  have hself := setIno_ino_self v i { v.ino i with size := n }
  have hptr : ∀ l, (v.setIno i { v.ino i with size := n }).ptr i l = v.ptr i l := by
    intro l
    rw [Volume.ptr, hself]
    rfl
  refine h.setIno (fun l => ?_) (fun _ _ bn hbn => ?_) fun htd => absurd htd hi.2.2
  · unfold Volume.own Keeps
    simp only [hptr, hself]
  · rw [hptr]
    exact hm bn hbn

/-! ## All blocks of a file are given back -/

/-- `itrunc`: the blocks are unmarked, the inode has none and its size is 0. -/
def trunc (v : Volume) (i : ℕ) : Volume where
  used c := v.used c && !(((v.ino i).blocks v.data).contains c)
  ino := update v.ino i { v.ino i with addrs := fun _ => 0, size := 0 }
  data := v.data

theorem mem_slots (k : Slot) : k ∈ slots := by
  unfold slots
  cases k with
  | direct j => simp
  | indirect => simp
  | entry j => simp

theorem mem_blocks {data : ℕ → ℕ → UInt8} : c ∈ d.blocks data ↔ c ≠ 0 ∧ ∃ k, d.ptr data k = c := by
  simp only [Dinode.blocks, List.mem_filter, List.mem_map, decide_eq_true_eq]
  constructor
  · rintro ⟨⟨k, -, hk⟩, hc⟩
    exact ⟨hc, k, hk⟩
  · rintro ⟨hc, k, hk⟩
    exact ⟨⟨k, mem_slots k, hk⟩, hc⟩

theorem used_trunc : (v.trunc i).used c = true ↔
    v.used c = true ∧ ¬ (c ≠ 0 ∧ ∃ k, v.ptr i k = c) := by
  show (v.used c && !(((v.ino i).blocks v.data).contains c)) = true ↔ _
  rw [Bool.and_eq_true, Bool.not_eq_true', ← Bool.not_eq_true, List.contains_iff_mem, mem_blocks]
  rfl

theorem Base.trunc_file (h : v.Base sb) (hi : v.Keeps sb i) : (v.trunc i).Base sb := by
  have hself : (v.trunc i).ino i = { v.ino i with addrs := fun _ => 0, size := 0 } := update_self ..
  have hother : ∀ j, j ≠ i → (v.trunc i).ino j = v.ino j := fun j hj => update_of_ne hj ..
  have hkeeps : ∀ j, (v.trunc i).Keeps sb j ↔ v.Keeps sb j := by
    intro j
    unfold Keeps
    by_cases hj : j = i
    · rw [hj, hself]
    · rw [hother j hj]
  have hin : ∀ l, (v.trunc i).own sb (i, l) = none := by
    intro l
    refine own_none_of_ptr ?_
    rw [Volume.ptr, hself]
    cases l <;> rfl
  have hptr : ∀ j l, j ≠ i → (v.trunc i).ptr j l = v.ptr j l := by
    intro j l hj
    rw [Volume.ptr, hother j hj]
    rfl
  have hout : ∀ x : ℕ × Slot, ¬ x.1 = i → (v.trunc i).own sb x = v.own sb x := by
    rintro ⟨j, l⟩ hj
    unfold Volume.own
    simp only [hkeeps, hptr j l hj]
  -- what another inode holds stays marked
  have hkept : ∀ c, v.used c = true → (∀ x : ℕ × Slot, x.1 = i → v.own sb x ≠ some c) →
      (v.trunc i).used c = true := by
    intro c hc hnot
    refine used_trunc.2 ⟨hc, ?_⟩
    rintro ⟨hne, k, hk⟩
    exact hnot (i, k) rfl (own_eq_some.2 ⟨hi, hne, hk⟩)
  refine ⟨⟨h.own.dropAll (fun x => x.1 = i) ?_ hout hkept, fun {x c} hx => ?_, fun {c} hc hcu => ?_⟩,
    fun c hc => ?_, fun j hk bn hbn => ?_, fun j hlt ht => ?_⟩
  · rintro ⟨j, l⟩ rfl
    exact hin l
  · by_cases hxi : x.1 = i
    · obtain ⟨j, l⟩ := x
      obtain rfl : j = i := hxi
      rw [hin l] at hx
      cases hx
    · exact h.area (hout x hxi ▸ hx)
  · obtain ⟨hu, hnot⟩ := used_trunc.1 hcu
    obtain ⟨x, hx⟩ := h.covers hc hu
    have hxi : x.1 ≠ i := by
      intro hxi
      obtain ⟨-, hne, hp⟩ := own_eq_some.1 hx
      exact hnot ⟨hne, x.2, hxi ▸ hp⟩
    exact ⟨x, (hout x hxi).trans hx⟩
  · refine hkept c (h.fixed c hc) fun x _ hx => ?_
    have := (h.area hx).1
    omega
  · by_cases hj : j = i
    · rw [hj, hself] at hbn
      exact absurd hbn (Nat.not_lt_zero _)
    · rw [hother j hj] at hbn
      rw [hptr j _ hj]
      exact h.full j ((hkeeps j).1 hk) bn hbn
  · by_cases hj : j = i
    · subst hj
      rw [hself]
      exact fun _ => rfl
    · rw [hother j hj] at ht ⊢
      exact h.bare j hlt ht

theorem Base.trunc_dev (h : v.Base sb) (hi : i < sb.ninodes) (ht : (v.ino i).type = tDev) :
    (v.trunc i).Base sb := by
  have haddrs := h.bare i hi ht
  have hused : (v.trunc i).used = v.used := by
    funext c
    rw [Bool.eq_iff_iff, used_trunc]
    refine and_iff_left ?_
    rintro ⟨hne, k, rfl⟩
    apply hne
    cases k with
    | direct j => exact addrs_eq_zero.1 (haddrs _)
    | indirect => exact addrs_eq_zero.1 (haddrs _)
    | entry j => exact if_pos (haddrs 12)
  have heq : v.trunc i = v.setIno i { v.ino i with addrs := fun _ => 0, size := 0 } := by
    rw [← show (⟨(v.trunc i).used, (v.trunc i).ino, (v.trunc i).data⟩ : Volume) = v.trunc i from rfl,
      hused]
    rfl
  rw [heq]
  exact h.blank (fun l => own_none_of_not fun hk => hk.2.2 ht) (fun _ => rfl) rfl

theorem Base.trunc (h : v.Base sb) (hi : i < sb.ninodes) (ht : (v.ino i).type ≠ 0) :
    (v.trunc i).Base sb := by
  by_cases htd : (v.ino i).type = tDev
  · exact h.trunc_dev hi htd
  · exact h.trunc_file ⟨hi, ht, htd⟩

/-! ## Directories -/

theorem Named.congr (h : v.Named sb i) (ht : (v'.ino i).type = (v.ino i).type)
    (hs : (v'.ino i).size = (v.ino i).size)
    (hb : v.Keeps sb i → ∀ o < (v.ino i).size.toNat, v'.byteAt i o = v.byteAt i o) :
    v'.Named sb i := by
  intro hk hd k hle
  have hk' : v.Keeps sb i := by
    unfold Keeps at hk ⊢
    rwa [ht] at hk
  rw [hs] at hle
  have := h hk' (ht ▸ hd) k hle
  rwa [le_congr (g := fun x => v.byteAt i (direntSize * k + x)) (p := 0)]
  intro x hx
  refine hb hk' _ ?_
  have : direntSize = 16 := rfl
  omega

theorem byteAt_setIno_of_ne (hj : j ≠ i) : (v.setIno i d).byteAt j o = v.byteAt j o := by
  unfold Volume.byteAt Volume.ptr
  rw [setIno_ino_of_ne v hj]
  rfl

theorem Ok.setIno (h : v.Ok sb) (hb : (v.setIno i d).Base sb)
    (hn : (v.setIno i d).Named sb i) : (v.setIno i d).Ok sb := by
  refine ⟨hb, fun j => ?_⟩
  by_cases hj : j = i
  · exact hj ▸ hn
  · have hino := setIno_ino_of_ne v hj d
    exact (h.named j).congr (by rw [hino]) (by rw [hino]) fun _ _ _ => byteAt_setIno_of_ne hj

theorem Ok.relabel (h : v.Ok sb) (hi : i < sb.ninodes) (ht : d.type = (v.ino i).type)
    (hs : d.size = (v.ino i).size) (ha : d.addrs = (v.ino i).addrs) : (v.setIno i d).Ok sb := by
  have hself := setIno_ino_self v i d
  refine h.setIno (h.toBase.relabel hi ht hs ha) ((h.named i).congr ?_ ?_ fun _ o _ => ?_)
  · rw [hself, ht]
  · rw [hself, hs]
  · unfold Volume.byteAt Volume.ptr slotOf
    rw [hself]
    split
    · simp only [Dinode.ptr, ha, Volume.setIno]
    · simp only [Dinode.ptr, ha, Volume.setIno]

theorem Ok.blank (h : v.Ok sb) (hnone : ∀ l, v.own sb (i, l) = none)
    (haddrs : ∀ j, d.addrs j = 0) (hsize : d.size = 0) : (v.setIno i d).Ok sb := by
  refine h.setIno (h.toBase.blank hnone haddrs hsize) fun _ _ k hle => ?_
  have hself := setIno_ino_self v i d
  rw [hself, hsize] at hle
  exact absurd hle (by simp [direntSize])

theorem Ok.trunc (h : v.Ok sb) (hi : i < sb.ninodes) (ht : (v.ino i).type ≠ 0) :
    (v.trunc i).Ok sb := by
  refine ⟨h.toBase.trunc hi ht, fun j => ?_⟩
  by_cases hj : j = i
  · intro _ _ k hle
    have hself : (v.trunc i).ino i = { v.ino i with addrs := fun _ => 0, size := 0 } :=
      update_self ..
    rw [hj, hself] at hle
    exact absurd hle (by simp [direntSize])
  · have hino : (v.trunc i).ino j = v.ino j := update_of_ne hj ..
    refine (h.named j).congr (by rw [hino]) (by rw [hino]) fun _ o _ => ?_
    unfold Volume.byteAt Volume.ptr
    rw [hino]
    rfl

/-- `iput` of the last reference to an inode without links. -/
def free (v : Volume) (i : ℕ) : Volume := (v.trunc i).setIno i { (v.trunc i).ino i with type := 0 }

theorem trunc_ino_self (v : Volume) (i : ℕ) :
    (v.trunc i).ino i = { v.ino i with addrs := fun _ => 0, size := 0 } := update_self ..

theorem free_ino_of_ne (v : Volume) (hj : j ≠ i) : (v.free i).ino j = v.ino j := by
  rw [free, (v.trunc i).setIno_ino_of_ne hj]
  exact update_of_ne hj ..

theorem Ok.free (h : v.Ok sb) (hi : i < sb.ninodes) (ht : (v.ino i).type ≠ 0) : (v.free i).Ok sb := by
  have hblank : ∀ k, (v.trunc i).own sb (i, k) = none := by
    intro k
    refine own_none_of_ptr ?_
    rw [Volume.ptr, trunc_ino_self]
    cases k <;> rfl
  refine (h.trunc hi ht).blank hblank (fun j => ?_) ?_
  · rw [trunc_ino_self]
  · rw [trunc_ino_self]

/-! ## What a write leaves -/

/-- Nothing but the size and the blocks of inode `i` may have changed. -/
structure Rewritten (v v' : Volume) (i : ℕ) : Prop where
  ino : ∀ j, j ≠ i → v'.ino j = v.ino j
  type : (v'.ino i).type = (v.ino i).type
  nlink : (v'.ino i).nlink = (v.ino i).nlink

theorem Rewritten.refl (v : Volume) (i : ℕ) : v.Rewritten v i := ⟨fun _ _ => rfl, rfl, rfl⟩

theorem Rewritten.nlink_eq (h : v.Rewritten v' i) (j : ℕ) : (v'.ino j).nlink = (v.ino j).nlink := by
  by_cases hj : j = i
  · rw [hj, h.nlink]
  · rw [h.ino j hj]

theorem Rewritten.type_eq (h : v.Rewritten v' i) (j : ℕ) : (v'.ino j).type = (v.ino j).type := by
  by_cases hj : j = i
  · rw [hj, h.type]
  · rw [h.ino j hj]

/-- The bytes `src` are written to file `i` at `off`, whose blocks reach that far then. -/
structure Written (sb : Superblock) (v v' : Volume) (i off : ℕ) (src : List UInt8) : Prop where
  ino : ∀ j, j ≠ i → v'.ino j = v.ino j
  copy : ∃ a, v'.ino i = { v.ino i with addrs := a }
  mapped : ∀ {j n}, v.Keeps sb j → v.Mapped j n → v'.Mapped j n
  kept : ∀ {j n o}, v.Keeps sb j → v.Mapped j n → o < n →
    ¬ (j = i ∧ off ≤ o ∧ o < off + src.length) → v'.byteAt j o = v.byteAt j o
  new : ∀ {o}, off ≤ o → o < off + src.length → v'.byteAt i o = src.getD (o - off) 0
  reach : v.Mapped i off → v'.Mapped i (off + src.length)
  /-- Without growth the inode stays as it was. -/
  same : v'.ino i = v.ino i ∨ (v.ino i).size.toNat < off + src.length

namespace Written

variable {off : ℕ} {src : List UInt8}

section

variable (h : Written sb v v' i off src)

include h

theorem type_eq (j : ℕ) : (v'.ino j).type = (v.ino j).type := by
  by_cases hj : j = i
  · obtain ⟨a, ha⟩ := h.copy
    rw [hj, ha]
  · rw [h.ino j hj]

theorem nlink_eq : (v'.ino i).nlink = (v.ino i).nlink := by
  obtain ⟨a, ha⟩ := h.copy
  rw [ha]

theorem size_eq (j : ℕ) : (v'.ino j).size = (v.ino j).size := by
  by_cases hj : j = i
  · obtain ⟨a, ha⟩ := h.copy
    rw [hj, ha]
  · rw [h.ino j hj]

theorem keeps_iff : v'.Keeps sb j ↔ v.Keeps sb j := by
  unfold Keeps
  rw [h.type_eq]

end

theorem nil (sb : Superblock) (v : Volume) (i off : ℕ) : Written sb v v i off [] where
  ino _ _ := rfl
  copy := ⟨(v.ino i).addrs, rfl⟩
  mapped _ hm := hm
  kept _ _ _ _ := rfl
  new h1 h2 := absurd h2 (by simpa using h1)
  reach hm := hm
  same := .inl rfl

theorem append {a b : List UInt8} (h : Written sb v v' i off a)
    (h' : Written sb v' v'' i (off + a.length) b) (hi : v.Keeps sb i) (hoff : v.Mapped i off) :
    Written sb v v'' i off (a ++ b) where
  ino j hj := (h'.ino j hj).trans (h.ino j hj)
  copy := by
    obtain ⟨x, hx⟩ := h.copy
    obtain ⟨y, hy⟩ := h'.copy
    exact ⟨y, by rw [hy, hx]⟩
  mapped hk hm := h'.mapped (h.keeps_iff.2 hk) (h.mapped hk hm)
  kept {j n o} hk hm ho hnot := by
    rw [List.length_append] at hnot
    rw [h'.kept (h.keeps_iff.2 hk) (h.mapped hk hm) ho fun hc => hnot ⟨hc.1, by omega, by omega⟩]
    exact h.kept hk hm ho fun hc => hnot ⟨hc.1, hc.2.1, by omega⟩
  new {o} h1 h2 := by
    rw [List.length_append] at h2
    by_cases ho : o < off + a.length
    · have hold : v''.byteAt i o = v'.byteAt i o :=
        h'.kept (h.keeps_iff.2 hi) (h.reach hoff) ho (by omega)
      rw [hold, h.new h1 ho, List.getD_append _ _ _ _ (by omega)]
    · rw [h'.new (by omega) (by omega), List.getD_append_right _ _ _ _ (by omega)]
      congr 1
      omega
  reach hm := by
    have := h'.reach (h.reach hm)
    rwa [List.length_append, ← Nat.add_assoc]
  same := by
    rw [List.length_append]
    rcases h.same with hs | hs
    · rcases h'.same with hs' | hs'
      · exact .inl (hs'.trans hs)
      · rw [h.size_eq] at hs'
        exact .inr (by omega)
    · exact .inr (by omega)

theorem named (h : Written sb v v' i off src) (hv : v.Ok sb) (hj : j ≠ i) : v'.Named sb j := by
  refine (hv.named j).congr (h.type_eq j) (h.size_eq j) fun hk o ho => ?_
  exact h.kept hk (hv.full j hk) ho fun hc => hj hc.1

end Written

theorem block_of {off m : ℕ} (h1 : off ≤ o) (h2 : o < off + m) (hfit : off % bsize + m ≤ bsize) :
    o / bsize = off / bsize ∧ o % bsize = off % bsize + (o - off) := by
  unfold bsize at *
  omega

theorem block_unique {off bn m : ℕ} (h1 : off ≤ bn * bsize) (h2 : bn * bsize < off + m)
    (hfit : off % bsize + m ≤ bsize) : bn = off / bsize := by
  unfold bsize at *
  omega

variable {src : List UInt8} {off : ℕ}

theorem Base.write (h : v.Base sb) (hg : Grown sb v v' i) (hb : v'.Base sb) (hi : v.Keeps sb i)
    (hpos : 0 < src.length) (hfit : off % bsize + src.length ≤ bsize)
    (hbn : off / bsize < maxfile) (hp : v'.ptr i (slotOf (off / bsize)) ≠ 0)
    (hsame : v.ptr i (slotOf (off / bsize)) ≠ 0 → v'.ino i = v.ino i) :
    let c := v'.ptr i (slotOf (off / bsize))
    let v'' := v'.setData c (patch (v'.data c) (off % bsize) src.length fun k => src.getD k 0)
    v''.Base sb ∧ Written sb v v'' i off src := by
  intro c v''
  have hi' := hg.keeps_iff.2 hi
  have hne := slotOf_ne_indirect (off / bsize)
  have hptr : ∀ {j}, v'.Keeps sb j → ∀ l, v''.ptr j l = v'.ptr j l :=
    fun hj l => hb.toOwned.ptr_setData hi' hne _ hj l
  have hdata : v''.data c = patch (v'.data c) (off % bsize) src.length fun k => src.getD k 0 :=
    update_self ..
  have hmap : ∀ {j n}, v.Keeps sb j → v.Mapped j n → v''.Mapped j n := by
    intro j n hk hm bn hlt
    obtain ⟨h1, h2⟩ := hg.mapped hk hm bn hlt
    exact ⟨h1, by rwa [hptr (hg.keeps_iff.2 hk)]⟩
  refine ⟨hb.setData hi' hne _, hg.ino, hg.copy, hmap, ?_, ?_, ?_, ?_⟩
  · intro j n o hk hm ho hnot
    have hk' := hg.keeps_iff.2 hk
    rw [← hg.byteAt hk hm ho]
    unfold Volume.byteAt
    rw [hptr hk']
    by_cases hc : v'.ptr j (slotOf (o / bsize)) = c
    · -- the block written: the byte lies outside the bytes written
      have hm' := (hg.mapped hk hm) (o / bsize) (by have := Nat.div_mul_le_self o bsize; omega)
      obtain ⟨rfl, hslot⟩ := hb.toOwned.slot_eq hk' hi' hm'.2 hc
      have hdiv := slotOf_inj hm'.1 hbn hslot
      rw [hc, hdata]
      refine patch_out ?_
      by_contra hin
      have := Nat.div_add_mod o bsize
      have := Nat.div_add_mod off bsize
      rw [hdiv] at *
      exact hnot ⟨rfl, by omega, by omega⟩
    · rw [show v''.data _ = v'.data _ from update_of_ne hc ..]
  · intro o h1 h2
    obtain ⟨hdiv, hmod⟩ := block_of h1 h2 hfit
    unfold Volume.byteAt
    rw [hptr hi', hdiv, hdata, hmod, patch_in (by omega) (by omega)]
    congr 1
    omega
  · intro hoff bn hlt
    by_cases hbn' : bn * bsize < off
    · exact hmap hi hoff bn hbn'
    · rw [block_unique (Nat.le_of_not_lt hbn') hlt hfit, hptr hi']
      exact ⟨hbn, hp⟩
  · by_cases hz : v.ptr i (slotOf (off / bsize)) = 0
    · right
      by_contra hle
      exact (h.full i hi (off / bsize) (by have := Nat.div_mul_le_self off bsize; omega)).2 hz
    · exact .inl (hsame hz)

/-! ## Writes to directories -/

/-- A directory is only ever written one entry at a time. -/
def Fits (sb : Superblock) (v : Volume) (i off : ℕ) (src : List UInt8) : Prop :=
  (v.ino i).type = tDir → off % direntSize = 0 ∧ ∃ e, src = direntBytes e ∧ e.inum < sb.ninodes

@[simp] theorem length_direntBytes (e : Names.Dirent) : (direntBytes e).length = direntSize := by
  simp [direntBytes]

theorem getD_direntBytes (e : Names.Dirent) {k : ℕ} (hk : k < direntSize) :
    (direntBytes e).getD k 0 = direntByte e k := by
  simp [direntBytes, List.getD_eq_getElem?_getD, hk]

theorem le_direntBytes (e : Names.Dirent) : le (fun k => (direntBytes e).getD k 0) 0 2 ≤ e.inum := by
  have hbytes : le (fun k => (direntBytes e).getD k 0) 0 2 = le (leByte e.inum) 0 2 := by
    refine le_congr fun k hk => ?_
    rw [getD_direntBytes e (by unfold direntSize; omega), Nat.zero_add, direntByte, if_pos hk]
  rw [hbytes, le_leByte]
  exact Nat.mod_le ..

/-- What the entries of the directory are after the write of one. -/
theorem Written.named_self {w : Volume}
    (h : Written sb v v' i off src) (hv : v.Ok sb) (hfit : Fits sb v i off src)
    (hle : off ≤ (v.ino i).size.toNat) (hb : ∀ o, w.byteAt i o = v'.byteAt i o)
    (ht : (w.ino i).type = (v.ino i).type)
    (hs : (w.ino i).size.toNat ≤ max (v.ino i).size.toNat (off + src.length)) : w.Named sb i := by
  intro hk hd k hk16
  have hki : v.Keeps sb i := by
    unfold Keeps at hk ⊢
    rwa [ht] at hk
  obtain ⟨hmod, e, rfl, he⟩ := hfit (ht ▸ hd)
  rw [length_direntBytes] at hs
  simp only [hb]
  by_cases hoff : direntSize * k = off
  · have hnew : le (fun x => v'.byteAt i (direntSize * k + x)) 0 2 =
        le (fun x => (direntBytes e).getD x 0) 0 2 := by
      refine le_congr fun x hx => ?_
      rw [h.new (by omega) (by rw [length_direntBytes]; unfold direntSize at *; omega)]
      congr 1
      omega
    rw [hnew]
    exact (le_direntBytes e).trans_lt he
  · have hin : direntSize * k + direntSize ≤ (v.ino i).size.toNat := by
      unfold direntSize at *
      omega
    have hold : le (fun x => v'.byteAt i (direntSize * k + x)) 0 2 =
        le (fun x => v.byteAt i (direntSize * k + x)) 0 2 := by
      refine le_congr fun x hx => ?_
      refine h.kept hki (hv.full i hki) (by unfold direntSize at *; omega) fun hc => ?_
      rw [length_direntBytes] at hc
      unfold direntSize at *
      omega
    rw [hold]
    exact hv.named i hki (ht ▸ hd) k hin

theorem Ok.written (hv : v.Ok sb) (h : Written sb v v' i off src)
    (hb : v'.Base sb) (hfit : Fits sb v i off src) (hle : off ≤ (v.ino i).size.toNat) :
    v'.Ok sb := by
  refine ⟨hb, fun j => ?_⟩
  by_cases hj : j = i
  · subst hj
    exact h.named_self hv hfit hle (fun _ => rfl) (h.type_eq j) (h.size_eq j ▸ le_max_left ..)
  · exact h.named hv hj

theorem Base.written_grow (hv : v.Base sb) (h : Written sb v v' i off src)
    (hb : v'.Base sb) (hi : v.Keeps sb i) (hle : off ≤ (v.ino i).size.toNat) {n : UInt32}
    (hn : n.toNat = off + src.length) : (v'.setIno i { v'.ino i with size := n }).Base sb := by
  refine hb.resize (h.keeps_iff.2 hi) ?_
  rw [hn]
  refine h.reach fun bn hbn => ?_
  exact hv.full i hi bn (by omega)

theorem Ok.written_grow (hv : v.Ok sb) (h : Written sb v v' i off src)
    (hb : v'.Base sb) (hi : v.Keeps sb i) (hfit : Fits sb v i off src)
    (hle : off ≤ (v.ino i).size.toNat) {n : UInt32} (hn : n.toNat = off + src.length) :
    (v'.setIno i { v'.ino i with size := n }).Ok sb := by
  have hself := setIno_ino_self v' i { v'.ino i with size := n }
  refine (hv.written h hb hfit hle).setIno (hv.toBase.written_grow h hb hi hle hn) ?_
  refine h.named_self hv hfit hle (fun o => ?_) ?_ ?_
  · unfold Volume.byteAt Volume.ptr
    rw [hself]
    rfl
  · rw [hself]
    exact h.type_eq i
  · rw [hself, hn]
    exact le_max_right ..

end Volume

end Xv6.Blocks

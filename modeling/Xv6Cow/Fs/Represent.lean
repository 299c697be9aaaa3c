import Xv6Cow.Fs.Volume

/-!
# The blocks represent a volume

`Rep sb v D s`: the bytes of the blocks of `s` mean the volume `v`, where `D` are the dinodes on the
disk; the inode cache may be ahead of them, and holds the inodes of `v`.
-/

namespace Xv6.Blocks

open Function Bytes Lts Prog

/-! ## Dinodes in bytes -/

theorem short_toNat (x : Int16) : short x.toUInt16.toNat = x := by
  simp [short]

variable {f : ℕ → UInt8}

theorem le_byte {d : Dinode} {o p m n : ℕ} (hp : p + m ≤ dinodeSize)
    (hb : ∀ k < m, d.byte (p + k) = leByte n k) (hn : n < 256 ^ m) :
    le (patch f o dinodeSize d.byte) (o + p) m = n := by
  rw [le_patch_in hp, le_congr (g := leByte n) (p := 0), le_leByte_of_lt hn]
  intro k hk
  rw [hb k hk, Nat.zero_add]

theorem dinodeOf_patch (f : ℕ → UInt8) (o : ℕ) (d : Dinode) :
    dinodeOf (patch f o dinodeSize d.byte) o = d := by
  have hs : dinodeSize = 64 := rfl
  have htype : le (patch f o dinodeSize d.byte) (o + 0) 2 = d.type.toUInt16.toNat := by
    refine le_byte (by omega) (fun k hk => ?_) d.type.toUInt16.toNat_lt
    rw [Dinode.byte, if_pos (by omega), Nat.zero_add]
  have hmajor : le (patch f o dinodeSize d.byte) (o + 2) 2 = d.major.toUInt16.toNat := by
    refine le_byte (by omega) (fun k hk => ?_) d.major.toUInt16.toNat_lt
    rw [Dinode.byte, if_neg (by omega), if_pos (by omega), Nat.add_sub_cancel_left]
  have hminor : le (patch f o dinodeSize d.byte) (o + 4) 2 = d.minor.toUInt16.toNat := by
    refine le_byte (by omega) (fun k hk => ?_) d.minor.toUInt16.toNat_lt
    rw [Dinode.byte, if_neg (by omega), if_neg (by omega), if_pos (by omega),
      Nat.add_sub_cancel_left]
  have hnlink : le (patch f o dinodeSize d.byte) (o + 6) 2 = d.nlink.toUInt16.toNat := by
    refine le_byte (by omega) (fun k hk => ?_) d.nlink.toUInt16.toNat_lt
    rw [Dinode.byte, if_neg (by omega), if_neg (by omega), if_neg (by omega), if_pos (by omega),
      Nat.add_sub_cancel_left]
  have hsize : le (patch f o dinodeSize d.byte) (o + 8) 4 = d.size.toNat := by
    refine le_byte (by omega) (fun k hk => ?_) d.size.toNat_lt
    rw [Dinode.byte, if_neg (by omega), if_neg (by omega), if_neg (by omega), if_neg (by omega),
      if_pos (by omega), Nat.add_sub_cancel_left]
  have haddr : ∀ j : Fin 13, le (patch f o dinodeSize d.byte) (o + (12 + 4 * j)) 4 =
      (d.addrs j).toNat := by
    intro j
    have hj := j.isLt
    refine le_byte (by omega) (fun k hk => ?_) (d.addrs j).toNat_lt
    have hdiv : (12 + 4 * (j : ℕ) + k - 12) / 4 = j := by omega
    have hmod : (12 + 4 * (j : ℕ) + k - 12) % 4 = k := by omega
    have hfin : Fin.ofNat 13 (j : ℕ) = j := Fin.ext (Nat.mod_eq_of_lt hj)
    rw [Dinode.byte, if_neg (by omega), if_neg (by omega), if_neg (by omega), if_neg (by omega),
      if_neg (by omega), hdiv, hmod, hfin]
  rw [Nat.add_zero] at htype
  simp only [dinodeOf, htype, hmajor, hminor, hnlink, hsize, haddr, short_toNat, UInt32.ofNat_toNat]

theorem dinodeOf_congr {f g : ℕ → UInt8} {o : ℕ} (h : ∀ x, o ≤ x → x < o + dinodeSize → f x = g x) :
    dinodeOf f o = dinodeOf g o := by
  have hs : dinodeSize = 64 := rfl
  have hle : ∀ p n, p + n ≤ 64 → le f (o + p) n = le g (o + p) n := fun p n hp =>
    le_congr fun k hk => h _ (by omega) (by omega)
  have htype := hle 0 2 (by omega)
  rw [Nat.add_zero] at htype
  have haddr : ∀ j : Fin 13, le f (o + (12 + 4 * j)) 4 = le g (o + (12 + 4 * j)) 4 := fun j =>
    hle _ _ (by have := j.isLt; omega)
  simp only [dinodeOf, htype, hle 2 2 (by omega), hle 4 2 (by omega), hle 6 2 (by omega),
    hle 8 4 (by omega), haddr]

theorem dinodeOf_patch_of_ne (f g : ℕ → UInt8) {i j : ℕ} (hblk : i / ipb = j / ipb) (hne : i ≠ j) :
    dinodeOf (patch f (i % ipb * dinodeSize) dinodeSize g) (j % ipb * dinodeSize) =
      dinodeOf f (j % ipb * dinodeSize) := by
  refine dinodeOf_congr fun x h1 h2 => patch_out ?_
  unfold ipb dinodeSize at *
  omega

/-! ## The regions of the disk -/

namespace Superblock.Laid

variable {sb : Superblock} {b c i : ℕ}

section

variable (h : sb.Laid)

include h

theorem bblock_lt (hb : b < sb.size) : sb.bblock b < sb.dataStart := by
  have := h.bitmap
  unfold Superblock.bblock bpb at *
  omega

theorem iblock_lt (hi : i < sb.ninodes) : sb.iblock i < sb.bmapstart := by
  have := h.inodes
  unfold Superblock.iblock ipb at *
  omega

theorem iblock_ne_bblock (hi : i < sb.ninodes) (b : ℕ) : sb.iblock i ≠ sb.bblock b := by
  have := h.iblock_lt hi
  have : sb.bmapstart ≤ sb.bblock b := Nat.le_add_left ..
  omega

theorem start_le : sb.bmapstart ≤ sb.dataStart := by
  have := h.bitmap
  unfold bpb at this
  omega

theorem area_ne_bblock (hc : sb.Area c) (hb : b < sb.size) : c ≠ sb.bblock b := by
  have := h.bblock_lt hb
  have := hc.1
  omega

theorem area_ne_iblock (hc : sb.Area c) (hi : i < sb.ninodes) : c ≠ sb.iblock i := by
  have := h.iblock_lt hi
  have := h.start_le
  have := hc.1
  omega

theorem one_lt_iblock (i : ℕ) : 1 < sb.iblock i := by
  have hle : sb.inodestart ≤ sb.iblock i := Nat.le_add_left ..
  exact h.super.trans_le hle

theorem one_lt_bblock (b : ℕ) : 1 < sb.bblock b := by
  have := h.iblock_lt h.root
  have := h.one_lt_iblock rootino
  have : sb.bmapstart ≤ sb.bblock b := Nat.le_add_left ..
  omega

theorem one_lt_area (hc : sb.Area c) : 1 < c := by
  have := h.iblock_lt h.root
  have := h.one_lt_iblock rootino
  have := h.start_le
  have := hc.1
  omega

end

end Superblock.Laid

/-! ## Representation -/

/-- The volume in the blocks, with the inodes given. -/
def volumeOf (sb : Superblock) (blk : ℕ → ℕ → UInt8) (ino : ℕ → Dinode) : Volume where
  used b := bit (blk (sb.bblock b)) (b % bpb)
  ino := ino
  data := blk

/-- The inode as its last writer knows it: the copy in the inode cache, if there is one. -/
def Given.copy (sb : Superblock) (g : Given) (i : ℕ) : Dinode :=
  match (List.finRange ninode).find? fun ip => (g.icache ip).Caches i with
  | some ip => (g.icache ip).toDinode
  | none => dinodeOf (g.blk (sb.iblock i)) (i % ipb * dinodeSize)

/-- The volume from which the block was handed out. -/
def Given.volume (sb : Superblock) (g : Given) : Volume := volumeOf sb g.blk (g.copy sb)

/-- Blocks handed out were free and not for a read, files are truncated to nothing, and inodes
released as on the disk. -/
structure HistOk (sb : Superblock) (h : History) : Prop where
  given : ∀ g ∈ h.given, g.reading = false ∧ ∀ x, (g.volume sb).own sb x ≠ some g.block
  truncated : ∀ r ∈ h.truncated, ∀ b ∈ r.blocks, r.used b = false
  released : ∀ x ∈ h.released, x.1 = x.2

/-- The panics of the log, the bitmap and the block map. -/
def lowPanics : List String :=
  ["freeing free block", "log_write outside of trans", "too big a transaction",
    "balloc: out of blocks", "bmap: out of range"]

/-- How a call may stop. -/
structure Good (e : Stop) (t : Fs) : Prop where
  hist : HistOk t.sb t.hist
  inRange : e ≠ .panic "bmap: out of range"
  notFree : e ≠ .panic "freeing free block"
  inTrans : e ≠ .panic "log_write outside of trans"
  tooBig : e = .panic "too big a transaction" → 1 ≤ t.outstanding
  outOfBlocks : e = .panic "balloc: out of blocks" →
    t.hist.reading = false ∧ ∀ b < t.sb.size, t.used b = true

/-- The part of the state that is about references, locks and files. -/
structure Led where
  icache : Iptr → Handle
  type : Iptr → Int16
  ftable : Fid → File
  pipes : ℕ → Option Pipes.Pipe
  live : Pid → Bool
  cwd : Pid → Iptr
  ofile : Pid → Fd → Option Fid
  outstanding : ℕ
  reading : Bool
  last : ℕ → Option Dinode
  kallocs : ℕ → ℕ
  kfrees : ℕ → ℕ

def Fs.led (s : Fs) : Led where
  icache ip := (s.icache ip).toHandle
  type ip := (s.icache ip).type
  ftable := s.ftable
  pipes := s.pipes
  live := s.live
  cwd := s.cwd
  ofile := s.ofile
  outstanding := s.outstanding
  reading := s.hist.reading
  last := s.hist.last
  kallocs := s.hist.kallocs
  kfrees := s.hist.kfrees

structure Rep (sb : Superblock) (v : Volume) (D : ℕ → Dinode) (s : Fs) : Prop where
  sb_eq : s.sb = sb
  super : superblockOf (s.blk 1) = sb
  used : ∀ b < sb.size, s.used b = v.used b
  ino : ∀ i < sb.ninodes, s.dinode i = D i
  data : ∀ b, sb.Area b → s.blk b = v.data b
  copy : ∀ ip i, (s.icache ip).Caches i → (s.icache ip).toDinode = v.ino i
  disk : ∀ i < sb.ninodes, (∀ ip, ¬ (s.icache ip).Caches i) → D i = v.ino i
  uniq : ∀ ip jp i, (s.icache ip).Caches i → (s.icache jp).Caches i → ip = jp
  hist : HistOk sb s.hist

theorem Good.panic {t : Fs} (h : HistOk t.sb t.hist) {msg : String}
    (hmsg : msg ∉ lowPanics) : Good (.panic msg) t := by
  simp only [lowPanics, List.mem_cons, not_or] at hmsg
  obtain ⟨h1, h2, h3, h4, h5, -⟩ := hmsg
  refine ⟨h, ?_, ?_, ?_, ?_, ?_⟩
  · exact fun he => h5 (Stop.panic.inj he)
  · exact fun he => h1 (Stop.panic.inj he)
  · exact fun he => h2 (Stop.panic.inj he)
  · exact fun he => absurd (Stop.panic.inj he) h3
  · exact fun he => absurd (Stop.panic.inj he) h4

theorem Good.sleeps {t : Fs} (h : HistOk t.sb t.hist) : Good .sleeps t :=
  ⟨h, nofun, nofun, nofun, nofun, nofun⟩

namespace Rep

variable {sb : Superblock} {v : Volume} {D : ℕ → Dinode} {s : Fs} {b i : ℕ}

theorem histOk (h : Rep sb v D s) : HistOk s.sb s.hist := h.sb_eq ▸ h.hist

theorem setLh (h : Rep sb v D s) (l : List ℕ) : Rep sb v D { s with lh := l } :=
  ⟨h.sb_eq, h.super, h.used, h.ino, h.data, h.copy, h.disk, h.uniq, h.hist⟩

theorem setUsed (h : Rep sb v D s) (hsb : sb.Laid) (hb : b < sb.size) {f : ℕ → UInt8} (val : Bool)
    (hf : ∀ bi, bit f bi = if bi = b % bpb then val else bit (s.blk (sb.bblock b)) bi) :
    Rep sb (v.setUsed b val) D (s.setBlk (sb.bblock b) f) := by
  have hblk : ∀ c, c ≠ sb.bblock b → (s.setBlk (sb.bblock b) f).blk c = s.blk c :=
    fun c hc => update_of_ne hc ..
  have hself : (s.setBlk (sb.bblock b) f).blk (sb.bblock b) = f := update_self ..
  refine ⟨h.sb_eq, ?_, fun c hc => ?_, fun i hi => ?_, fun c hc => ?_, h.copy, h.disk, h.uniq, h.hist⟩
  · rw [hblk 1 (hsb.one_lt_bblock b).ne]
    exact h.super
  · have hold := h.used c hc
    show _ = update v.used b val c
    unfold Fs.used at hold ⊢
    rw [show (s.setBlk (sb.bblock b) f).sb = sb from h.sb_eq]
    rw [h.sb_eq] at hold
    by_cases hcb : sb.bblock c = sb.bblock b
    · rw [hcb] at hold ⊢
      rw [hself, hf]
      have hiff : c % bpb = b % bpb ↔ c = b := by
        unfold Superblock.bblock bpb at *
        omega
      by_cases hc' : c = b
      · rw [if_pos (hiff.2 hc'), hc', update_self]
      · rw [if_neg (mt hiff.1 hc'), update_of_ne hc', hold]
    · have hc' : c ≠ b := fun h => hcb (by rw [h])
      rw [hblk _ hcb, update_of_ne hc', hold]
  · have hold := h.ino i hi
    unfold Fs.dinode at hold ⊢
    rw [show (s.setBlk (sb.bblock b) f).sb = sb from h.sb_eq, hblk _ (hsb.iblock_ne_bblock hi b)]
    rwa [h.sb_eq] at hold
  · rw [hblk c (hsb.area_ne_bblock hc hb)]
    exact h.data c hc

theorem setData (h : Rep sb v D s) (hsb : sb.Laid) (hb : sb.Area b) (f : ℕ → UInt8) :
    Rep sb (v.setData b f) D (s.setBlk b f) := by
  have hblk : ∀ c, c ≠ b → (s.setBlk b f).blk c = s.blk c := fun c hc => update_of_ne hc ..
  refine ⟨h.sb_eq, ?_, fun c hc => ?_, fun i hi => ?_, fun c hc => ?_, h.copy, h.disk, h.uniq, h.hist⟩
  · rw [hblk 1 (hsb.one_lt_area hb).ne]
    exact h.super
  · have hold := h.used c hc
    unfold Fs.used at hold ⊢
    rw [show (s.setBlk b f).sb = sb from h.sb_eq, hblk _ (hsb.area_ne_bblock hb hc).symm]
    rwa [h.sb_eq] at hold
  · have hold := h.ino i hi
    unfold Fs.dinode at hold ⊢
    rw [show (s.setBlk b f).sb = sb from h.sb_eq, hblk _ (hsb.area_ne_iblock hb hi).symm]
    rwa [h.sb_eq] at hold
  · by_cases hcb : c = b
    · rw [hcb]
      show update s.blk b f b = update v.data b f b
      rw [update_self, update_self]
    · rw [hblk c hcb, h.data c hc]
      exact (update_of_ne hcb ..).symm

theorem putDinode (h : Rep sb v D s) (hsb : sb.Laid) (hi : i < sb.ninodes) {v' : Volume} {d : Dinode}
    (hused : v'.used = v.used) (hdata : v'.data = v.data)
    (hcopy : ∀ ip j, (s.icache ip).Caches j → (s.icache ip).toDinode = v'.ino j)
    (hself : (∀ ip, ¬ (s.icache ip).Caches i) → d = v'.ino i)
    (hother : ∀ j, j ≠ i → v'.ino j = v.ino j) :
    Rep sb v' (update D i d) (s.setBlk (sb.iblock i)
      (patch (s.blk (sb.iblock i)) (i % ipb * dinodeSize) dinodeSize d.byte)) := by
  generalize hf : patch (s.blk (sb.iblock i)) (i % ipb * dinodeSize) dinodeSize d.byte = f
  have hblk : ∀ c, c ≠ sb.iblock i → (s.setBlk (sb.iblock i) f).blk c = s.blk c :=
    fun c hc => update_of_ne hc ..
  have hblk_self : (s.setBlk (sb.iblock i) f).blk (sb.iblock i) = f := update_self ..
  refine ⟨h.sb_eq, ?_, fun c hc => ?_, fun j hj => ?_, fun c hc => ?_, hcopy, fun j hj hv => ?_,
    h.uniq, h.hist⟩
  · rw [hblk 1 (hsb.one_lt_iblock i).ne]
    exact h.super
  · have hold := h.used c hc
    unfold Fs.used at hold ⊢
    rw [show (s.setBlk (sb.iblock i) f).sb = sb from h.sb_eq, hblk _ (hsb.iblock_ne_bblock hi c).symm,
      hused]
    rwa [h.sb_eq] at hold
  · have hold := h.ino j hj
    unfold Fs.dinode at hold ⊢
    rw [show (s.setBlk (sb.iblock i) f).sb = sb from h.sb_eq]
    rw [h.sb_eq] at hold
    by_cases hji : j = i
    · rw [hji, hblk_self, ← hf, dinodeOf_patch, update_self]
    rw [update_of_ne hji, ← hold]
    by_cases hb : sb.iblock j = sb.iblock i
    · have hdiv : i / ipb = j / ipb := (Nat.add_right_cancel hb).symm
      rw [hb, hblk_self, ← hf, dinodeOf_patch_of_ne _ _ hdiv (Ne.symm hji)]
    · rw [hblk _ hb]
  · rw [hblk c (hsb.area_ne_iblock hc hi), hdata]
    exact h.data c hc
  · by_cases hji : j = i
    · subst hji
      rw [update_self]
      exact hself hv
    · rw [update_of_ne hji, hother j hji]
      exact h.disk j hj hv

end Rep

/-! ## Rules for blocks -/

variable {sb : Superblock} {v v' : Volume} {D : ℕ → Dinode} {s : Fs} {ip : Iptr} {b i : ℕ}

theorem logWrite_rule (h : HistOk s.sb s.hist) (ho : 1 ≤ s.outstanding) (b : ℕ) :
    wp (logWrite b) (fun _ t => ∃ l, t = { s with lh := l }) Good s := by
  have hnot : ¬ s.outstanding < 1 := by omega
  simp only [logWrite, panic, wp_run, hnot]
  split
  · exact ⟨h, nofun, nofun, nofun, fun _ => ho, nofun⟩
  · exact ⟨_, rfl⟩

theorem modifyBlk_rule (h : HistOk s.sb s.hist) (ho : 1 ≤ s.outstanding) (b : ℕ)
    (g : (ℕ → UInt8) → ℕ → UInt8) :
    wp (modifyBlk b g) (fun _ t => ∃ l, t = { s.setBlk b (g (s.blk b)) with lh := l }) Good s := by
  simp only [modifyBlk, wp_run]
  exact logWrite_rule (s := s.setBlk b (g (s.blk b))) h ho b

theorem clearIn_some {n bi : ℕ} (h : clearIn f n = some bi) : bi < n ∧ bit f bi = false := by
  have hmem := List.mem_of_find?_eq_some h
  have hbit := List.find?_some h
  exact ⟨List.mem_range.1 hmem, by simpa using hbit⟩

theorem clearIn_none {n bi : ℕ} (h : clearIn f n = none) (hbi : bi < n) : bit f bi = true := by
  have := List.find?_eq_none.1 h bi (List.mem_range.2 hbi)
  simpa using this

theorem bblock_mul (sb : Superblock) {k bi : ℕ} (h : bi < bpb) :
    sb.bblock (k * bpb) = sb.bblock (k * bpb + bi) ∧ (k * bpb + bi) % bpb = bi := by
  unfold Superblock.bblock bpb at *
  have hdiv : k * 4096 / 4096 = (k * 4096 + bi) / 4096 := by omega
  exact ⟨by rw [hdiv], by omega⟩

theorem freeBlock_some (h : s.freeBlock = some b) : b < s.sb.size ∧ s.used b = false := by
  obtain ⟨k, hk, hfind⟩ := List.exists_of_findSome?_eq_some h
  obtain ⟨bi, hbi, rfl⟩ := Option.map_eq_some_iff.1 hfind
  obtain ⟨hlt, hbit⟩ := clearIn_some hbi
  have hbpb : bi < bpb := by omega
  obtain ⟨hblock, hmod⟩ := bblock_mul s.sb (k := k) hbpb
  refine ⟨by omega, ?_⟩
  rw [Fs.used, ← hblock, hmod]
  exact hbit

theorem freeBlock_none (h : s.freeBlock = none) (hb : b < s.sb.size) : s.used b = true := by
  have hdiv : b / bpb * bpb + b % bpb = b := by
    unfold bpb
    omega
  have hmem : b / bpb ∈ List.range ((s.sb.size + bpb - 1) / bpb) := by
    rw [List.mem_range]
    unfold bpb
    omega
  have hnone := List.findSome?_eq_none_iff.1 h _ hmem
  have hlt : b % bpb < min bpb (s.sb.size - b / bpb * bpb) := by
    unfold bpb at *
    omega
  have hbit := clearIn_none (Option.map_eq_none_iff.1 hnone) hlt
  obtain ⟨hblock, -⟩ := bblock_mul s.sb (k := b / bpb)
    (show b % bpb < bpb from Nat.mod_lt _ (by decide))
  rw [hdiv] at hblock
  rwa [Fs.used, ← hblock]

theorem Rep.given (h : Rep sb v D s) (hv : v.Owned sb) (hb : v.used b = false) (r : Bool)
    (x : ℕ × Slot) : (Given.volume sb ⟨b, s.blk, s.icache, r⟩).own sb x ≠ some b := by
  intro hx
  obtain ⟨⟨hlt, ht, hd⟩, hne, hp⟩ := Volume.own_eq_some.1 hx
  have hcopy : Given.copy sb ⟨b, s.blk, s.icache, r⟩ x.1 = v.ino x.1 := by
    unfold Given.copy
    split
    · next ip hfind => exact h.copy ip _ (by simpa using List.find?_some hfind)
    next hfind =>
    have hold := h.ino _ hlt
    unfold Fs.dinode at hold
    rw [h.sb_eq] at hold
    rw [hold]
    refine h.disk _ hlt fun ip => ?_
    simpa using List.find?_eq_none.1 hfind ip (List.mem_finRange ip)
  have hino : (Given.volume sb ⟨b, s.blk, s.icache, r⟩).ino x.1 = v.ino x.1 := hcopy
  rw [hino] at ht hd
  have hk : v.Keeps sb x.1 := ⟨hlt, ht, hd⟩
  -- the pointer is the same over the blocks as over the volume
  have hptr : v.ptr x.1 x.2 = b := by
    rw [Volume.ptr, hino] at hp
    rw [← hp]
    refine (Dinode.ptr_congr x.2 fun hind => ?_).symm
    exact h.data _ (hv.area_of_ptr (k := .indirect) hk fun hz => hind (addrs_eq_zero.2 hz))
  exact hv.ptr_ne hk (k := x.2) (hptr ▸ hne) hb hptr

theorem balloc_rule (h : Rep sb v D s) (hsb : sb.Laid) (hv : v.Base sb) (ho : 1 ≤ s.outstanding)
    (hr : s.hist.reading = false) :
    wp balloc (fun b t => sb.Area b ∧ v.used b = false ∧ Rep sb (v.alloc b) D t ∧ t.led = s.led ∧
      t.icache = s.icache) Good s := by
  obtain rfl := h.sb_eq
  simp only [balloc, wp_run]
  rcases hfree : s.freeBlock with _ | b
  · refine ⟨h.histOk, nofun, nofun, nofun, nofun, fun _ => ⟨hr, fun c hc => freeBlock_none hfree hc⟩⟩
  obtain ⟨hlt, hbit⟩ := freeBlock_some hfree
  rw [h.used b hlt] at hbit
  have harea : s.sb.Area b := by
    refine ⟨?_, hlt⟩
    by_contra hnot
    rw [hv.fixed b (by omega)] at hbit
    cases hbit
  simp only [wp_run]
  -- the record of the block
  let s1 : Fs := { s with hist.given := ⟨b, s.blk, s.icache, s.hist.reading⟩ :: s.hist.given }
  have h1 : Rep s.sb v D s1 := by
    refine ⟨h.sb_eq, h.super, h.used, h.ino, h.data, h.copy, h.disk, h.uniq, ?_, h.hist.truncated,
      h.hist.released⟩
    intro g hg
    rcases List.mem_cons.1 hg with rfl | hg
    · exact ⟨hr, h.given hv.toOwned hbit _⟩
    · exact h.hist.given g hg
  refine wp_imp (modifyBlk_rule (s := s1) h1.histOk ho _ _) ?_
  rintro _ _ ⟨l, rfl⟩
  have h2 := (h1.setUsed hsb hlt true (bit_setBit (s.blk (s.sb.bblock b)) (b % bpb))).setLh l
  refine wp_imp (modifyBlk_rule (s := _) h2.histOk ho _ _) ?_
  rintro _ _ ⟨l', rfl⟩
  exact ⟨harea, hbit, (h2.setData hsb harea _).setLh l', rfl, rfl⟩

theorem bfree_rule (h : Rep sb v D s) (hsb : sb.Laid) (hb : b < sb.size) (hu : v.used b = true)
    (ho : 1 ≤ s.outstanding) :
    wp (bfree b) (fun _ t => Rep sb (v.setUsed b false) D t ∧ t.led = s.led ∧ t.icache = s.icache)
      Good s := by
  obtain rfl := h.sb_eq
  have hsame : { s with sb := superblockOf (s.blk 1) } = s := by rw [h.super]
  have hused : s.used b = true := (h.used b hb).trans hu
  simp only [bfree, readsb, wp_run, hsame, hused, not_true_eq_false]
  rw [h.super]
  refine wp_imp (modifyBlk_rule h.histOk ho _ _) ?_
  rintro _ _ ⟨l, rfl⟩
  exact ⟨(h.setUsed hsb hb false (bit_clearBit (s.blk (s.sb.bblock b)) (b % bpb))).setLh l, rfl, rfl⟩

/-! ## Rules for inodes -/

@[simp] theorem setCopy_icache_self (s : Fs) (ip : Iptr) (d : Dinode) :
    (s.setCopy ip d).icache ip = { s.icache ip with toDinode := d } := update_self ..

theorem setCopy_icache_of_ne (s : Fs) {jp : Iptr} (h : jp ≠ ip) (d : Dinode) :
    (s.setCopy ip d).icache jp = s.icache jp := update_of_ne h ..

@[simp] theorem setCopy_toHandle (s : Fs) (ip jp : Iptr) (d : Dinode) :
    ((s.setCopy ip d).icache jp).toHandle = (s.icache jp).toHandle := by
  by_cases hj : jp = ip
  · rw [hj, setCopy_icache_self]
  · rw [setCopy_icache_of_ne s hj]

theorem setCopy_led (s : Fs) {ip : Iptr} {d : Dinode} (hd : d.type = (s.icache ip).type) :
    (s.setCopy ip d).led = s.led := by
  have htype : (fun jp => ((s.setCopy ip d).icache jp).type) = fun jp => (s.icache jp).type := by
    funext jp
    by_cases hj : jp = ip
    · rw [hj, setCopy_icache_self, ← hd]
    · rw [setCopy_icache_of_ne s hj]
  unfold Fs.led
  simp only [setCopy_toHandle, htype]
  rfl

theorem Handle.Caches.of_led {t : Fs} (hc : (s.icache ip).Caches i) (h : t.led = s.led) :
    (t.icache ip).Caches i := by
  have hh : (t.icache ip).toHandle = (s.icache ip).toHandle := congrFun (congrArg Led.icache h) ip
  rwa [hh]

theorem Rep.setCopy (h : Rep sb v D s) (hc : (s.icache ip).Caches i) (d : Dinode) :
    Rep sb (v.setIno i d) D (s.setCopy ip d) := by
  refine ⟨h.sb_eq, h.super, h.used, h.ino, h.data, fun jp j hj => ?_, fun j hlt hj => ?_,
    fun jp kp j => ?_, h.hist⟩
  · rw [setCopy_toHandle] at hj
    by_cases hji : jp = ip
    · subst hji
      obtain rfl : j = i := hj.2.2.symm.trans hc.2.2
      rw [setCopy_icache_self, Volume.setIno_ino_self]
    have hne : j ≠ i := by
      rintro rfl
      exact hji (h.uniq jp ip j hj hc)
    rw [setCopy_icache_of_ne s hji, h.copy jp j hj, v.setIno_ino_of_ne hne]
  · simp only [setCopy_toHandle] at hj
    have hne : j ≠ i := by
      rintro rfl
      exact hj ip hc
    rw [h.disk j hlt hj, v.setIno_ino_of_ne hne]
  · rw [setCopy_toHandle, setCopy_toHandle]
    exact h.uniq jp kp j

theorem Rep.setCopy_led (h : Rep sb v D s) (hc : (s.icache ip).Caches i) (d : Dinode)
    (hd : d.type = (v.ino i).type) : (s.setCopy ip d).led = s.led :=
  Blocks.setCopy_led s (hd.trans (congrArg Dinode.type (h.copy ip i hc)).symm)

theorem iupdate_rule (h : Rep sb v D s) (hsb : sb.Laid) (hi : i < sb.ninodes)
    (hc : (s.icache ip).Caches i) (ho : 1 ≤ s.outstanding) :
    wp (iupdate ip) (fun _ t => Rep sb v (update D i (v.ino i)) t ∧ t.led = s.led ∧
      t.icache = s.icache) Good s := by
  obtain rfl := h.sb_eq
  simp only [iupdate, Blocks.putDinode, wp_run]
  refine wp_imp (modifyBlk_rule h.histOk ho _ _) ?_
  rintro _ _ ⟨l, rfl⟩
  have hnew := (h.putDinode hsb hi (d := (s.icache ip).toDinode) rfl rfl h.copy
    (fun hv => absurd hc (hv ip)) fun _ _ => rfl).setLh l
  rw [h.copy ip i hc] at hnew
  rw [hc.2.2, h.copy ip i hc]
  exact ⟨hnew, rfl, rfl⟩

/-! ## `bmap` -/

/-- What `bmap` and its parts return: a block of the file, after the volume has perhaps grown. -/
structure Found (sb : Superblock) (v : Volume) (D : ℕ → Dinode) (s : Fs) (i a : ℕ) (k : Slot) (t : Fs)
    (v' : Volume) : Prop where
  rep : Rep sb v' D t
  base : v'.Base sb
  grown : v.Grown sb v' i
  ptr : v'.ptr i k = a
  ne : a ≠ 0
  led : t.led = s.led
  same : v.ptr i k ≠ 0 → t = s ∧ v' = v

section

variable (h : Rep sb v D s) (hsb : sb.Laid) (hv : v.Base sb) (hi : v.Keeps sb i)

include h hsb hv hi

theorem addrOf_rule (hc : (s.icache ip).Caches i) (j : Fin 13)
    (ho : (v.ino i).addrs j = 0 → 1 ≤ s.outstanding ∧ s.hist.reading = false) :
    wp (addrOf ip j) (fun a t => ∃ v', Found sb v D s i a (addrSlot j) t v') Good s := by
  have hcopy : ∀ {t : Fs}, t.icache = s.icache → (t.icache ip).toDinode = v.ino i := fun ht => by
    rw [ht, h.copy ip i hc]
  have haddr : (s.icache ip).addrs j = (v.ino i).addrs j := congrFun (congrArg _ (hcopy rfl)) j
  have hptr : v.ptr i (addrSlot j) = ((v.ino i).addrs j).toNat := ptr_addrSlot ..
  simp only [addrOf, wp_run, haddr]
  by_cases hz : (v.ino i).addrs j = 0
  · obtain ⟨ho, hr⟩ := ho hz
    rw [if_pos hz]
    refine wp_imp (balloc_rule h hsb hv ho hr) ?_
    rintro b t ⟨hb, hu, ht, hled, hic⟩
    simp only [hcopy hic]
    obtain ⟨hbase, hg, hnew⟩ := hv.alloc_addr hsb hi hz hb hu
    refine ⟨_, ht.setCopy (hic ▸ hc) _, hbase, hg, ?_, hsb.area_ne_zero hb, ?_, fun hp => ?_⟩
    · rw [Volume.ptr, ptr_addrSlot, hnew]
    · exact (ht.setCopy_led (hic ▸ hc) ((v.ino i).setAddr j b) rfl).trans hled
    · rw [hptr, hz] at hp
      exact absurd rfl hp
  · rw [if_neg hz]
    refine ⟨v, h, hv, .refl sb v i, hptr, ?_, rfl, fun _ => ⟨rfl, rfl⟩⟩
    exact fun h0 => hz (addrs_eq_zero.2 h0)

theorem entryOf_rule (hind : (v.ino i).addrs 12 ≠ 0) (e : Fin 128)
    (ho : v.ptr i (.entry e) = 0 → 1 ≤ s.outstanding ∧ s.hist.reading = false) :
    wp (entryOf ((v.ino i).addrs 12).toNat e)
      (fun a t => ∃ v', Found sb v D s i a (.entry e) t v') Good s := by
  have hp : v.ptr i .indirect ≠ 0 := fun hz => hind (addrs_eq_zero.2 hz)
  have harea : sb.Area ((v.ino i).addrs 12).toNat := hv.toOwned.area_of_ptr (k := .indirect) hi hp
  have hword : word (s.blk ((v.ino i).addrs 12).toNat) e = v.ptr i (.entry e) := by
    rw [h.data _ harea]
    exact (if_neg hind).symm
  simp only [entryOf, wp_run, hword]
  by_cases hz : v.ptr i (.entry e) = 0
  · obtain ⟨ho, hr⟩ := ho hz
    rw [if_pos hz]
    refine wp_imp (balloc_rule h hsb hv ho hr) ?_
    rintro b t ⟨hb, hu, ht, hled, -⟩
    have hto : 1 ≤ t.outstanding := by
      rw [show t.outstanding = s.outstanding from congrArg Led.outstanding hled]
      exact ho
    refine wp_imp (modifyBlk_rule ht.histOk hto _ _) ?_
    rintro _ _ ⟨l, rfl⟩
    obtain ⟨hbase, hg, hnew⟩ := hv.alloc_entry hsb hi hind e hz hb hu
    -- the indirect block is not the one handed out
    have hne : ((v.ino i).addrs 12).toNat ≠ b := hv.toOwned.ptr_ne (k := .indirect) hi hp hu
    have hdata : t.blk ((v.ino i).addrs 12).toNat = v.data ((v.ino i).addrs 12).toNat := by
      rw [ht.data _ harea]
      exact update_of_ne hne ..
    rw [hdata]
    exact ⟨_, (ht.setData hsb harea _).setLh l, hbase, hg, hnew, hsb.area_ne_zero hb, hled,
      fun hp => absurd hz hp⟩
  · rw [if_neg hz]
    exact ⟨v, h, hv, .refl sb v i, rfl, hz, rfl, fun _ => ⟨rfl, rfl⟩⟩

theorem bmap_rule (hc : (s.icache ip).Caches i) {bn : ℕ} (hbn : bn < maxfile)
    (ho : v.ptr i (slotOf bn) = 0 → 1 ≤ s.outstanding ∧ s.hist.reading = false) :
    wp (bmap ip bn) (fun a t => ∃ v', Found sb v D s i a (slotOf bn) t v') Good s := by
  unfold bmap
  by_cases hd : bn < ndirect
  · rw [if_pos hd, slotOf_direct hd]
    refine addrOf_rule h hsb hv hi hc _ fun hz => ho ?_
    rw [slotOf_direct hd, Volume.ptr, ptr_addrSlot, hz]
    rfl
  have hlt : bn - ndirect < nindirect := by
    unfold maxfile at hbn
    omega
  obtain ⟨e, hslot, he⟩ := slotOf_entry hd hbn
  rw [if_neg hd, if_pos hlt, hslot]
  rw [hslot] at ho
  simp only [wp_bind, ← he]
  refine wp_imp (addrOf_rule h hsb hv hi hc 12 fun hz => ho (if_pos hz)) ?_
  rintro ind t ⟨v1, h1⟩
  have hind : ((v1.ino i).addrs 12).toNat = ind := by rw [← h1.ptr, Volume.ptr, ptr_addrSlot]
  have hne : (v1.ino i).addrs 12 ≠ 0 := fun hz => h1.ne (hind ▸ addrs_eq_zero.1 hz)
  have hout : t.outstanding = s.outstanding := congrArg Led.outstanding h1.led
  have hread : t.hist.reading = s.hist.reading := congrArg Led.reading h1.led
  rw [← hind]
  refine wp_imp (entryOf_rule h1.rep hsb h1.base (h1.grown.keeps_iff.2 hi) hne e ?_) ?_
  · intro hz
    rw [hout, hread]
    refine ho ?_
    by_contra hp
    exact hp ((h1.grown.ptr hi hp).symm.trans hz)
  rintro a u ⟨v2, h2⟩
  refine ⟨v2, h2.rep, h2.base, h1.grown.trans h2.grown, h2.ptr, h2.ne, h2.led.trans h1.led,
    fun hp => ?_⟩
  have hind0 : v.ptr i (addrSlot 12) ≠ 0 := by
    intro hz
    rw [Volume.ptr, ptr_addrSlot] at hz
    exact hp (if_pos (addrs_eq_zero.2 hz))
  obtain ⟨rfl, rfl⟩ := h1.same hind0
  exact h2.same hp

end

end Xv6.Blocks

import Xv6Cow.Fs.MkfsImage

/-!
# What the files on the image contain

`Made C v s`: inode `i` of the image holds the bytes `C i`.  `iappend` appends to one of them, and
`main` ends with the contents that its arguments describe.
-/

namespace Xv6.Mkfs

open Function Bytes Blocks Prog
open Names (dot dotdot)

variable {v v' : Volume} {s s' : Img} {b i j n off : ℕ} {k : Slot} {fits : Prop}
  {C C' : ℕ → List UInt8} {p bs : List UInt8}

/-! ## Inodes on the image -/

theorem iblock_lt (hi : i < wide.ninodes) : sb.iblock i < sb.bmapstart := wide_laid.iblock_lt hi

theorem bmapstart_lt : sb.bmapstart < nmeta := by decide

theorem one_lt_iblock (i : ℕ) : 1 < sb.iblock i := wide_laid.one_lt_iblock i

def Img.putInode (s : Img) (i : ℕ) (d : Dinode) : Img :=
  s.put (sb.iblock i) (patch (s.blk (sb.iblock i)) (i % ipb * dinodeSize) dinodeSize d.byte)

variable {E : String → Img → Prop}

theorem wp_winode {Q : Unit → Img → Prop} (hi : i < wide.ninodes)
    (d : Dinode) : wp (winode i d) Q E s = Q () (s.putInode i d) := by
  have hread : ¬ fssize ≤ sb.iblock i := by
    have := iblock_lt hi
    have : sb.bmapstart < fssize := by decide
    omega
  simp only [winode, wp_bind, wp_rsect, hread, if_false, wp_wsect]
  rfl

theorem wp_rinode {Q : Dinode → Img → Prop} (hi : i < wide.ninodes) :
    wp (rinode i) Q E s = Q (s.dinode i) s := by
  have hread : ¬ fssize ≤ sb.iblock i := by
    have := iblock_lt hi
    have : sb.bmapstart < fssize := by decide
    omega
  simp only [rinode, wp_run, wp_rsect, hread]
  rfl

theorem dinode_congr (h : s'.blk (sb.iblock i) = s.blk (sb.iblock i)) : s'.dinode i = s.dinode i := by
  unfold Img.dinode
  rw [h]

theorem Img.put_blk_self (s : Img) (b : ℕ) (f : ℕ → UInt8) : (s.put b f).blk b = f := update_self ..

theorem putInode_freeblock (s : Img) (i : ℕ) (d : Dinode) :
    (s.putInode i d).freeblock = s.freeblock := rfl

theorem putInode_blk_self (s : Img) (i : ℕ) (d : Dinode) : (s.putInode i d).blk (sb.iblock i) =
    patch (s.blk (sb.iblock i)) (i % ipb * dinodeSize) dinodeSize d.byte := s.put_blk_self _ _

theorem putInode_dinode_self (s : Img) (i : ℕ) (d : Dinode) : (s.putInode i d).dinode i = d := by
  rw [Img.dinode, putInode_blk_self, dinodeOf_patch]

theorem putInode_dinode_of_ne (s : Img) (hne : j ≠ i) (d : Dinode) :
    (s.putInode i d).dinode j = s.dinode j := by
  by_cases hblk : sb.iblock j = sb.iblock i
  · have hdiv : i / ipb = j / ipb := by
      unfold Superblock.iblock at hblk
      omega
    rw [Img.dinode, hblk, putInode_blk_self, dinodeOf_patch_of_ne _ _ hdiv hne.symm, ← hblk]
    rfl
  · exact dinode_congr (update_of_ne hblk ..)

theorem putInode_blk (hi : i < wide.ninodes) (d : Dinode) (hb : b ≤ 1 ∨ sb.bmapstart ≤ b) :
    (s.putInode i d).blk b = s.blk b := by
  have := iblock_lt hi
  have := one_lt_iblock i
  exact update_of_ne (by omega) ..

theorem Shows.putInode (h : Shows v s) (hi : i < wide.ninodes) (d : Dinode) :
    Shows v (s.putInode i d) := by
  have := bmapstart_lt
  have hstart := h.start
  refine ⟨h.used, fun b hb => ?_, fun b hb => ?_, h.start, h.fits⟩
  · rw [putInode_blk hi d (by omega), h.data b hb]
  · change s.freeblock ≤ b at hb
    rw [putInode_blk hi d (by omega), h.clear b hb]

/-! ## Contents -/

/-- Inode `i` holds the bytes `bs`. -/
structure Holds (v : Volume) (i : ℕ) (bs : List UInt8) : Prop where
  size : (v.ino i).size.toNat = bs.length
  byte : ∀ o < bs.length, v.byteAt i o = bs.getD o 0
  has : Has v i (blocksOf bs.length)
  pad : Pad v i bs.length

/-- Blocks that the contents need. -/
def total (C : ℕ → List UInt8) : ℕ := ∑ i ∈ Finset.range wide.ninodes, cost (blocksOf (C i).length)

/-- The contents fit on the disk. -/
structure Fits (C : ℕ → List UInt8) : Prop where
  blocks : nmeta + total C ≤ fssize
  length : ∀ i < wide.ninodes, (C i).length ≤ maxfile * bsize

structure Made (C : ℕ → List UInt8) (v : Volume) (s : Img) : Prop where
  shows : Shows v s
  base : v.Base wide
  super : s.blk 1 = sbByte
  ino : ∀ i < wide.ninodes, s.dinode i = v.ino i
  pos : 0 < s.freeinode
  keeps : ∀ i < wide.ninodes, v.Keeps wide i ↔ 0 < i ∧ i < s.freeinode
  type : ∀ i, v.Keeps wide i → (v.ino i).type = if i = rootino then tDir else tFile
  none : ∀ i, ¬ v.Keeps wide i → C i = []
  holds : ∀ i, v.Keeps wide i → Holds v i (C i)
  count : s.freeblock = nmeta + total C

theorem blocksOf_le (h : n ≤ maxfile * bsize) : blocksOf n ≤ maxfile := by
  unfold blocksOf bsize at *
  omega

theorem blocksOf_mono {m : ℕ} (h : m ≤ n) : blocksOf m ≤ blocksOf n :=
  Nat.div_le_div_right (by omega)

theorem Has.mapped_blocks (h : Has v i n) (hn : n ≤ maxfile) : v.Mapped i (n * bsize) := by
  intro bn hbn
  have hlt : bn < n := Nat.lt_of_mul_lt_mul_right hbn
  exact ⟨hlt.trans_le hn, (h.block bn (hlt.trans_le hn)).2 hlt⟩

namespace Holds

theorem length_le (h : Holds v i bs) (hv : v.Base wide) (hi : v.Keeps wide i) :
    bs.length ≤ maxfile * bsize := by
  by_contra hlt
  have := (hv.full i hi maxfile (by rw [h.size]; omega)).1
  omega

theorem congr (h : Holds v i bs) (hsize : (v'.ino i).size = (v.ino i).size)
    (hptr : ∀ l, v'.ptr i l = v.ptr i l)
    (hbyte : ∀ o < blocksOf bs.length * bsize, v'.byteAt i o = v.byteAt i o) : Holds v' i bs where
  size := by rw [hsize, h.size]
  byte o ho := by
    rw [hbyte o (by unfold blocksOf bsize; omega), h.byte o ho]
  has := by
    have hind : ((v'.ino i).addrs 12) = (v.ino i).addrs 12 := UInt32.toNat_inj.1 (hptr .indirect)
    refine ⟨fun bn hbn => ?_, ?_⟩
    · rw [hptr, h.has.block bn hbn]
    · rw [hind, h.has.ind]
  pad o h1 h2 := by rw [hbyte o h2, h.pad o h1 h2]

theorem appended_other (h : Holds v j bs) (hv : v.Base wide) (hj : v.Keeps wide j) (hne : j ≠ i)
    (ha : Appended v v' s s' i off p) : Holds v' j bs := by
  refine h.congr (ha.written.size_eq j) (ha.other j hne hj) fun o ho => ?_
  exact ha.written.kept hj (h.has.mapped_blocks (blocksOf_le (h.length_le hv hj))) ho
    fun hc => hne hc.1

theorem setIno_other (h : Holds v j bs) (hne : j ≠ i) (d : Dinode) : Holds (v.setIno i d) j bs := by
  have hino := v.setIno_ino_of_ne hne d
  have hptr : ∀ l, (v.setIno i d).ptr j l = v.ptr j l := fun l => by
    unfold Volume.ptr
    rw [hino]
    rfl
  exact h.congr (by rw [hino]) hptr fun o _ => Volume.byteAt_setIno_of_ne hne

theorem appended_self (h : Holds v i bs) (hv : v.Base wide) (hi : v.Keeps wide i)
    (ha : Appended v v' s s' i bs.length p) {d : UInt32} (hd : d.toNat = (bs ++ p).length) :
    Holds (v'.setIno i { v'.ino i with size := d }) i (bs ++ p) := by
  have hself := v'.setIno_ino_self i { v'.ino i with size := d }
  have hptr : ∀ l, (v'.setIno i { v'.ino i with size := d }).ptr i l = v'.ptr i l := fun l => by
    unfold Volume.ptr
    rw [hself]
    rfl
  have hbyte : ∀ o, (v'.setIno i { v'.ino i with size := d }).byteAt i o = v'.byteAt i o := fun o => by
    unfold Volume.byteAt
    rw [hptr]
    rfl
  have hlen : (bs ++ p).length = bs.length + p.length := List.length_append
  refine ⟨by rw [hself, hd], fun o ho => ?_, ⟨fun bn hbn => ?_, ?_⟩, fun o h1 h2 => ?_⟩
  · rw [hbyte]
    rcases Nat.lt_or_ge o bs.length with hold | hnew
    · have hkept : v'.byteAt i o = v.byteAt i o :=
        ha.written.kept hi (h.has.mapped (h.length_le hv hi)) hold (by omega)
      rw [hkept, h.byte o hold, List.getD_append _ _ _ _ hold]
    · rw [ha.written.new hnew (by omega), List.getD_append_right _ _ _ _ hnew]
  · rw [hptr, ha.has.block bn hbn, hlen]
  · rw [hself, hlen]
    exact ha.has.ind
  · rw [hlen] at h1 h2
    rw [hbyte, ha.pad o h1 h2]

end Holds

theorem total_update (C : ℕ → List UInt8) (hi : i < wide.ninodes) (bs : List UInt8) :
    total (update C i bs) + cost (blocksOf (C i).length) = total C + cost (blocksOf bs.length) := by
  have hmem : i ∈ Finset.range wide.ninodes := Finset.mem_range.2 hi
  unfold total
  rw [← Finset.add_sum_erase _ _ hmem, ← Finset.add_sum_erase (Finset.range wide.ninodes) _ hmem,
    update_self]
  have hrest : ∑ j ∈ (Finset.range wide.ninodes).erase i, cost (blocksOf (update C i bs j).length) =
      ∑ j ∈ (Finset.range wide.ninodes).erase i, cost (blocksOf (C j).length) :=
    Finset.sum_congr rfl fun j hj => by rw [update_of_ne (Finset.ne_of_mem_erase hj)]
  rw [hrest]
  omega

theorem Fits.mono (h : Fits C')
    (hle : ∀ i < wide.ninodes, (C i).length ≤ (C' i).length) : Fits C := by
  refine ⟨?_, fun i hi => (hle i hi).trans (h.length i hi)⟩
  have htotal : total C ≤ total C' := Finset.sum_le_sum fun i hi =>
    cost_mono (blocksOf_mono (hle i (Finset.mem_range.1 hi)))
  have := h.blocks
  omega

/-! ## The functions on inodes -/

theorem iappend_rule (h : Made C v s) (hi : v.Keeps wide i)
    (hC : update C i (C i ++ p) = C') (hfit : fits → Fits C') :
    wp (iappend i p) (fun _ t => t.freeinode = s.freeinode ∧ ∃ v', Made C' v' t)
      (fun _ _ => ¬ fits) s := by
  subst hC
  have hold := h.holds i hi
  have hlen := hold.length_le h.base hi
  have hcost := total_update C hi.1 (C i ++ p)
  rw [List.length_append] at hcost
  have hmax : fits → (C i).length + p.length ≤ maxfile * bsize := by
    intro hf
    have := (hfit hf).length i hi.1
    rwa [update_self, List.length_append] at this
  have hroom : fits → s.freeblock + cost (blocksOf ((C i).length + p.length)) ≤
      fssize + cost (blocksOf (C i).length) := by
    intro hf
    have := (hfit hf).blocks
    rw [h.count]
    omega
  simp only [iappend, wp_bind, wp_rinode hi.1, h.ino i hi.1, hold.size]
  refine wp_imp (appendLoop_rule h.shows h.base hi hold.has hold.pad hlen hmax hroom le_rfl) ?_
  rintro _ t ⟨v', ha, rfl⟩
  rw [wp_winode hi.1]
  have hend : (C i).length + p.length ≤ maxfile * bsize := by
    have := ha.written.reach (hold.has.mapped hlen)
    by_contra hlt
    exact absurd (this maxfile (by omega)).1 (Nat.lt_irrefl _)
  have hsize : (UInt32.ofNat ((C i).length + p.length)).toNat = (C i).length + p.length :=
    toNat_ofNat_of_lt (by unfold maxfile ndirect nindirect bsize at hend; omega)
  generalize UInt32.ofNat ((C i).length + p.length) = size at hsize
  have hi' := ha.written.keeps_iff.2 hi
  have hkeeps : ∀ j, (v'.setIno i { v'.ino i with size := size }).Keeps wide j ↔ v.Keeps wide j := by
    intro j
    rw [← ha.written.keeps_iff]
    unfold Volume.Keeps
    by_cases hj : j = i
    · rw [hj, v'.setIno_ino_self]
    · rw [v'.setIno_ino_of_ne hj]
  refine ⟨ha.kept.freeinode, v'.setIno i { v'.ino i with size := size },
    (ha.shows.setIno i _).putInode hi.1 _, ?_, ?_, fun j hj => ?_, ?_, fun j hj => ?_, fun j hj => ?_,
    fun j hnot => ?_, fun j hj => ?_, ?_⟩
  · exact ha.base.resize hi' (by rw [hsize]; exact ha.written.reach (hold.has.mapped hlen))
  · rw [putInode_blk hi.1 _ (.inl le_rfl), ha.kept.blk 1 (by decide), h.super]
  · by_cases hji : j = i
    · rw [hji, putInode_dinode_self, v'.setIno_ino_self]
    have hblk : t.dinode j = s.dinode j :=
      dinode_congr (ha.kept.blk _ ((iblock_lt hj).trans bmapstart_lt))
    rw [putInode_dinode_of_ne _ hji, hblk, h.ino j hj, v'.setIno_ino_of_ne hji,
      ha.written.ino j hji]
  · exact ha.kept.freeinode ▸ h.pos
  · rw [hkeeps, h.keeps j hj]
    show _ ↔ 0 < j ∧ j < t.freeinode
    rw [ha.kept.freeinode]
  · rw [hkeeps] at hj
    rw [← h.type j hj, ← ha.written.type_eq j]
    by_cases hji : j = i
    · rw [hji, v'.setIno_ino_self]
    · rw [v'.setIno_ino_of_ne hji]
  · rw [hkeeps] at hnot
    have hji : j ≠ i := fun he => hnot (he ▸ hi)
    rw [update_of_ne hji, h.none j hnot]
  · rw [hkeeps] at hj
    by_cases hji : j = i
    · rw [hji, update_self]
      exact hold.appended_self h.base hi ha (by rw [hsize, List.length_append])
    · rw [update_of_ne hji]
      exact ((h.holds j hj).appended_other h.base hj hji ha).setIno_other hji _
  · have := ha.count
    have := h.count
    show t.freeblock = _
    omega

theorem Made.fresh_not (h : Made C v s) (hlt : s.freeinode < wide.ninodes) :
    ¬ v.Keeps wide s.freeinode := by
  rw [h.keeps _ hlt]
  omega

theorem ptr_of_addrs {d : Dinode} (h : ∀ j, d.addrs j = 0) (data : ℕ → ℕ → UInt8) (l : Slot) :
    d.ptr data l = 0 := by
  cases l with
  | direct j => exact addrs_eq_zero.1 (h _)
  | indirect => exact addrs_eq_zero.1 (h _)
  | entry j => exact if_pos (h 12)

theorem Holds.nil (hsize : (v.ino i).size = 0) (haddrs : ∀ j, (v.ino i).addrs j = 0) :
    Holds v i [] where
  size := by rw [hsize]; rfl
  byte _ ho := absurd ho (Nat.not_lt_zero _)
  has := ⟨fun bn _ => iff_of_false (not_not.2 (ptr_of_addrs haddrs _ _)) (Nat.not_lt_zero bn),
      iff_of_false (not_not.2 (haddrs 12)) (Nat.not_lt_zero _)⟩
  pad _ _ h := absurd h (by simp [blocksOf, bsize])

theorem ialloc_rule (h : Made C v s) (hlt : s.freeinode < wide.ninodes)
    {type : Int16} (ht : type = if s.freeinode = rootino then tDir else tFile) :
    wp (ialloc type)
      (fun r t => r = s.freeinode ∧ t.freeinode = s.freeinode + 1 ∧ ∃ v', Made C v' t) E s := by
  have hnot := h.fresh_not hlt
  have hne : type ≠ 0 ∧ type ≠ tDev := by
    rw [ht]
    split <;> decide
  simp only [ialloc, wp_run, wp_winode hlt]
  generalize hd : ({ Dinode.fresh type with nlink := 1 } : Dinode) = d
  have htype : d.type = type := by rw [← hd]; rfl
  have haddrs : ∀ j, d.addrs j = 0 := by
    rw [← hd]
    exact fun _ => rfl
  have hdsize : d.size = 0 := by rw [← hd]; rfl
  have hself := v.setIno_ino_self s.freeinode d
  have hother := fun j (hj : j ≠ s.freeinode) => v.setIno_ino_of_ne hj d
  have hkeeps : ∀ j < wide.ninodes,
      (v.setIno s.freeinode d).Keeps wide j ↔ v.Keeps wide j ∨ j = s.freeinode := by
    intro j hj
    by_cases hjf : j = s.freeinode
    · rw [hjf]
      unfold Volume.Keeps
      rw [hself, htype]
      exact iff_of_true ⟨hlt, hne⟩ (.inr rfl)
    · rw [or_iff_left hjf]
      unfold Volume.Keeps
      rw [hother j hjf]
  have hshows : Shows v { s with freeinode := s.freeinode + 1 } :=
    ⟨h.shows.used, h.shows.data, h.shows.clear, h.shows.start, h.shows.fits⟩
  refine ⟨trivial, rfl, v.setIno s.freeinode d, (hshows.setIno _ d).putInode hlt d, ?_, ?_,
    fun j hj => ?_, Nat.succ_pos _, fun j hj => ?_, fun j hj => ?_, fun j hk => ?_,
    fun j hj => ?_, h.count⟩
  · exact h.base.blank (fun l => Volume.own_none_of_not hnot) haddrs hdsize
  · rw [putInode_blk hlt d (.inl le_rfl)]
    exact h.super
  · by_cases hjf : j = s.freeinode
    · rw [hjf, putInode_dinode_self, hself]
    · rw [putInode_dinode_of_ne _ hjf, hother j hjf]
      exact h.ino j hj
  · rw [hkeeps j hj, h.keeps j hj]
    have := h.pos
    show _ ↔ 0 < j ∧ j < s.freeinode + 1
    omega
  · rcases (hkeeps j hj.1).1 hj with hold | rfl
    · have hjf : j ≠ s.freeinode := fun he => hnot (he ▸ hold)
      rw [hother j hjf, h.type j hold]
    · rw [hself, htype, ht]
  · exact h.none j fun hold => hk ((hkeeps j hold.1).2 (.inl hold))
  · by_cases hjf : j = s.freeinode
    · rw [hjf, h.none _ hnot]
      exact .nil (by rw [hself, hdsize]) (by rw [hself]; exact haddrs)
    · have hold := ((hkeeps j hj.1).1 hj).resolve_right hjf
      exact (h.holds j hold).setIno_other hjf d

/-! ## The files -/

theorem appendAll_rule {chunks : List (List UInt8)} (h : Made C v s) (hi : v.Keeps wide i)
    (hC : update C i (C i ++ chunks.flatten) = C') (hfit : fits → Fits C') :
    wp (appendAll i chunks) (fun _ t => t.freeinode = s.freeinode ∧ ∃ v', Made C' v' t)
      (fun _ _ => ¬ fits) s := by
  induction chunks generalizing C v s with
  | nil =>
    rw [List.flatten_nil, List.append_nil, update_eq_self] at hC
    exact ⟨rfl, v, hC ▸ h⟩
  | cons c rest ih =>
    rw [List.flatten_cons, ← List.append_assoc] at hC
    have hfirst : fits → Fits (update C i (C i ++ c)) := by
      refine fun hf => (hfit hf).mono fun j _ => ?_
      rw [← hC]
      by_cases hj : j = i
      · rw [hj, update_self, update_self]
        simp only [List.length_append]
        omega
      · rw [update_of_ne hj, update_of_ne hj]
    simp only [appendAll, wp_bind]
    refine wp_imp (iappend_rule h hi rfl hfirst) ?_
    rintro _ t ⟨hfree, v1, h1⟩
    have hi1 : v1.Keeps wide i := by
      rw [h1.keeps i hi.1, hfree, ← h.keeps i hi.1]
      exact hi
    refine wp_imp (ih h1 hi1 (by rw [update_self, update_idem, hC])) ?_
    rintro _ u ⟨hfree', h'⟩
    exact ⟨hfree'.trans hfree, h'⟩

/-- The contents with one more file. -/
def addContent (C : ℕ → List UInt8) (inum : ℕ) (f : HostFile) : ℕ → List UInt8 :=
  update (update C rootino (C rootino ++ direntBytes ⟨inum, f.kname⟩)) inum f.content

/-- The contents with more files, from inode `inum` on. -/
def addContents (C : ℕ → List UInt8) : ℕ → List HostFile → ℕ → List UInt8
  | _, [] => C
  | inum, f :: rest => addContents (addContent C inum f) (inum + 1) rest

theorem length_le_addContent {inum : ℕ} {f : HostFile} (hnew : C inum = []) (i : ℕ) :
    (C i).length ≤ (addContent C inum f i).length := by
  unfold addContent
  by_cases h : i = inum
  · rw [h, hnew]
    exact Nat.zero_le _
  rw [update_of_ne h]
  by_cases hr : i = rootino
  · rw [hr, update_self, List.length_append]
    omega
  · rw [update_of_ne hr]

theorem addContent_of_lt {inum : ℕ} (f : HostFile) (hr : rootino < inum) (h : inum < i) :
    addContent C inum f i = C i := by
  unfold addContent
  rw [update_of_ne (by omega), update_of_ne (by omega)]

theorem length_le_addContents {inum : ℕ} (files : List HostFile) (hr : rootino < inum)
    (hnew : ∀ j, inum ≤ j → C j = []) (i : ℕ) :
    (C i).length ≤ (addContents C inum files i).length := by
  induction files generalizing C inum with
  | nil => exact le_rfl
  | cons f rest ih =>
    refine (length_le_addContent (hnew inum le_rfl) i).trans (ih (by omega) fun j hj => ?_)
    rw [addContent_of_lt f hr hj, hnew j (by omega)]

theorem Made.none_of_le (h : Made C v s) (hi : s.freeinode ≤ i) : C i = [] := by
  refine h.none i fun hk => ?_
  have := ((h.keeps i hk.1).1 hk).2
  omega

theorem addFiles_rule {files : List HostFile} (h : Made C v s) (hr : rootino < s.freeinode)
    (hlen : s.freeinode + files.length ≤ wide.ninodes)
    (hslash : fits → ∀ f ∈ files, '/'.toUInt8 ∉ f.name)
    (hC : addContents C s.freeinode files = C') (hfit : fits → Fits C') :
    wp (addFiles files) (fun _ t => t.freeinode = s.freeinode + files.length ∧ ∃ v', Made C' v' t)
      (fun _ _ => ¬ fits) s := by
  induction files generalizing C v s with
  | nil => exact ⟨rfl, v, hC ▸ h⟩
  | cons f rest ih =>
    rw [List.length_cons] at hlen
    have hlt : s.freeinode < wide.ninodes := by omega
    have htype : tFile = if s.freeinode = rootino then tDir else tFile := by
      rw [if_neg (by omega)]
    -- what has to fit already before the rest of the files
    have hfit1 : fits → Fits (addContent C s.freeinode f) := by
      refine fun hf => (hfit hf).mono fun j _ => hC ▸
        length_le_addContents rest (Nat.lt_succ_of_lt hr) (fun k hk => ?_) j
      rw [addContent_of_lt f hr hk, h.none_of_le (by omega)]
    simp only [addFiles]
    by_cases hs : '/'.toUInt8 ∈ f.name
    · simp only [hs, wp_run]
      exact fun hf => hslash hf f List.mem_cons_self hs
    simp only [hs, if_false, wp_bind]
    refine wp_imp (ialloc_rule h hlt htype) ?_
    rintro _ t ⟨rfl, hfree, v1, h1⟩
    have hroot : v1.Keeps wide rootino := (h1.keeps _ (by decide)).2 ⟨by decide, by omega⟩
    have hne : s.freeinode ≠ rootino := by omega
    refine wp_imp (iappend_rule h1 hroot rfl fun hf => (hfit1 hf).mono fun j _ => ?_) ?_
    · unfold addContent
      by_cases hj : j = s.freeinode
      · rw [hj, update_of_ne hne, h.none_of_le le_rfl]
        exact Nat.zero_le _
      · rw [update_of_ne hj]
    rintro _ u ⟨hfree2, v2, h2⟩
    have hself : v2.Keeps wide s.freeinode := by
      have := h.pos
      exact (h2.keeps _ hlt).2 ⟨h.pos, by omega⟩
    have hempty : update C rootino (C rootino ++ direntBytes ⟨s.freeinode, f.kname⟩)
        s.freeinode = [] := by
      rw [update_of_ne hne, h.none_of_le le_rfl]
    refine wp_imp (appendAll_rule h2 hself (by rw [hempty, List.nil_append]; rfl) hfit1) ?_
    rintro _ w ⟨hfree3, v3, h3⟩
    have hw : w.freeinode = s.freeinode + 1 := by omega
    refine wp_imp (ih h3 (by omega) (by omega)
      (fun hf g hg => hslash hf g (List.mem_cons_of_mem _ hg)) (by rw [hw, ← hC]; rfl)) ?_
    rintro _ x ⟨hx, hmade⟩
    refine ⟨?_, hmade⟩
    rw [hx, List.length_cons]
    omega

/-! ## The whole program -/

/-- The first two entries of the root directory. -/
def rootEntries : List UInt8 := direntBytes ⟨rootino, dot⟩ ++ direntBytes ⟨rootino, dotdot⟩

/-- What the inodes are to contain. -/
def contents (files : List HostFile) : ℕ → List UInt8 :=
  addContents (update (fun _ => []) rootino rootEntries) (rootino + 1) files

/-- What `main` leaves: the size of the root directory is rounded up past its content, and the bitmap
is on the disk. -/
structure Image (C : ℕ → List UInt8) (v : Volume) (s : Img) : Prop where
  shows : Shows v s
  base : v.Base wide
  super : s.blk 1 = sbByte
  ino : ∀ i < wide.ninodes, i ≠ rootino → s.dinode i = v.ino i
  root : s.dinode rootino =
    { v.ino rootino with size := UInt32.ofNat (((C rootino).length / bsize + 1) * bsize) }
  keeps : ∀ i < wide.ninodes, v.Keeps wide i ↔ 0 < i ∧ i < s.freeinode
  type : ∀ i, v.Keeps wide i → (v.ino i).type = if i = rootino then tDir else tFile
  holds : ∀ i, v.Keeps wide i → Holds v i (C i)
  bitmap : ∀ b < bpb, s.used b = decide (b < s.freeblock)

/-- The volume without files. -/
def bare : Volume := ⟨fun b => decide (b < nmeta), fun _ => .fresh 0, fun _ _ => 0⟩

theorem bare_not_keeps (i : ℕ) : ¬ bare.Keeps wide i := fun h => h.2.1 rfl

theorem bare_base : bare.Base wide := by
  have hnone : ∀ x b, bare.own wide x ≠ some b := by
    rintro ⟨i, l⟩ b h
    rw [Volume.own_none_of_not (bare_not_keeps i)] at h
    cases h
  refine ⟨⟨⟨fun h => absurd h (hnone _ _), fun h => absurd h (hnone _ _)⟩,
    fun h => absurd h (hnone _ _), fun {b} hb hu => ?_⟩, fun b hb => decide_eq_true hb,
    fun i hi => absurd hi (bare_not_keeps i), fun i _ ht => absurd ht
      (show (0 : Int16) ≠ tDev by decide)⟩
  have hlt : b < nmeta := of_decide_eq_true hu
  exact absurd hb.1 (Nat.not_le_of_lt hlt)

theorem total_nil : total (fun _ => []) = 0 := by
  refine Finset.sum_eq_zero fun _ _ => ?_
  show cost (blocksOf 0) = 0
  decide

theorem made_zero : Made (fun _ => []) bare (Img.zero.put 1 sbByte) := by
  have hblk : ∀ b, b ≠ 1 → (Img.zero.put 1 sbByte).blk b = fun _ => 0 := fun b hb =>
    update_of_ne hb ..
  have hmeta : 1 < nmeta := by decide
  refine ⟨⟨fun _ => rfl, fun b hb => ?_, fun b hb => ?_, le_rfl, by decide⟩, bare_base, rfl,
    fun i _ => ?_, Nat.one_pos, fun i _ => ?_, fun i hi => absurd hi (bare_not_keeps i),
    fun _ _ => rfl, fun i hi => absurd hi (bare_not_keeps i), ?_⟩
  · rw [hblk b (by omega)]
    rfl
  · change nmeta ≤ b at hb
    exact hblk b (by omega)
  · have hone := one_lt_iblock i
    rw [Img.dinode, hblk _ (by omega)]
    rfl
  · refine iff_of_false (bare_not_keeps i) fun h => ?_
    have hlt : i < 1 := h.2
    omega
  · rw [total_nil]
    rfl

theorem bit_foldl (n b : ℕ) :
    bit ((List.range n).foldl (fun buf i => setBit i buf) fun _ => 0) b = decide (b < n) := by
  induction n with
  | zero => rw [bit_eq]; simp
  | succ n ih =>
    rw [List.range_succ, List.foldl_append, List.foldl_cons, List.foldl_nil, bit_setBit, ih]
    by_cases h : b = n
    · simp [h]
    · rw [if_neg h]
      exact decide_eq_decide.2 (by omega)

theorem wp_balloc {Q : Unit → Img → Prop} (h : n < bsize * 8) :
    wp (balloc n) Q E s = Q () (s.put sb.bmapstart
      ((List.range n).foldl (fun buf i => setBit i buf) fun _ => 0)) := by
  simp only [balloc, Nat.not_le_of_lt h, if_false, wp_wsect]

theorem Made.finish (h : Made C v s) (hk : v.Keeps wide rootino) :
    Image C v ((s.putInode rootino { s.dinode rootino with
      size := UInt32.ofNat (((C rootino).length / bsize + 1) * bsize) }).put sb.bmapstart
        ((List.range s.freeblock).foldl (fun buf i => setBit i buf) fun _ => 0)) := by
  generalize hd : ({ s.dinode rootino with
    size := UInt32.ofNat (((C rootino).length / bsize + 1) * bsize) } : Dinode) = d
  have hput := bmapstart_lt
  have hshow := h.shows.putInode hk.1 d
  have hblk : ∀ b, b ≠ sb.bmapstart → ((s.putInode rootino d).put sb.bmapstart
      ((List.range s.freeblock).foldl (fun buf i => setBit i buf) fun _ => 0)).blk b =
      (s.putInode rootino d).blk b := fun b hb => update_of_ne hb ..
  refine ⟨⟨h.shows.used, fun b hb => ?_, fun b hb => ?_, h.shows.start, h.shows.fits⟩, h.base, ?_,
    fun i hi hr => ?_, ?_, h.keeps, h.type, h.holds, fun b hb => ?_⟩
  · rw [hblk b (by omega)]
    exact hshow.data b hb
  · have hlo := h.shows.start
    change s.freeblock ≤ b at hb
    rw [hblk b (by omega)]
    exact hshow.clear b hb
  · rw [hblk 1 (by decide), putInode_blk hk.1 d (.inl le_rfl), h.super]
  · have hne := (iblock_lt hi).ne
    rw [dinode_congr (hblk _ hne), putInode_dinode_of_ne _ hr, h.ino i hi]
  · have hne := (iblock_lt hk.1).ne
    rw [dinode_congr (hblk _ hne), putInode_dinode_self, ← hd, h.ino _ hk.1]
  · have hbblock : sb.bblock b = sb.bmapstart := by
      unfold Superblock.bblock
      rw [Nat.div_eq_of_lt hb, Nat.zero_add]
    rw [Img.used, hbblock, Img.put_blk_self, Nat.mod_eq_of_lt hb, bit_foldl]
    rfl

theorem main_rule {files : List HostFile} (hlen : files.length + 2 ≤ wide.ninodes)
    (hslash : fits → ∀ f ∈ files, '/'.toUInt8 ∉ f.name) (hfit : fits → Fits (contents files)) :
    wp (main files) (fun _ t => t.freeinode = files.length + 2 ∧ ∃ v, Image (contents files) v t)
      (fun _ _ => ¬ fits) Img.zero := by
  have hroot : fits → Fits (update (fun _ => []) rootino rootEntries) := by
    refine fun hf => (hfit hf).mono fun j _ =>
      length_le_addContents files (Nat.lt_succ_self _) (fun k hk => ?_) j
    rw [update_of_ne (by omega)]
  simp only [main, wp_bind, wp_wsect]
  refine wp_imp (ialloc_rule made_zero (by decide) rfl) ?_
  rintro _ s1 ⟨rfl, hfree1, v1, h1⟩
  have hfree : (Img.zero.put 1 sbByte).freeinode = rootino := rfl
  rw [hfree] at hfree1 ⊢
  simp only [ne_eq, not_true_eq_false, if_false, wp_bind]
  have hk1 : v1.Keeps wide rootino := (h1.keeps _ (by decide)).2 ⟨by decide, by omega⟩
  refine wp_imp (iappend_rule h1 hk1 rfl fun hf => (hroot hf).mono fun j _ => ?_) ?_
  · by_cases hj : j = rootino
    · rw [hj, update_self, update_self]
      simp [rootEntries]
    · rw [update_of_ne hj, update_of_ne hj]
  rintro _ s2 ⟨hfree2, v2, h2⟩
  have hk2 : v2.Keeps wide rootino := (h2.keeps _ (by decide)).2 ⟨by decide, by omega⟩
  refine wp_imp (iappend_rule h2 hk2 (by rw [update_self, update_idem]; rfl) hroot) ?_
  rintro _ s3 ⟨hfree3, v3, h3⟩
  have hf3 : s3.freeinode = rootino + 1 := by omega
  have hcount : s3.freeinode + files.length ≤ wide.ninodes := by
    rw [hf3]
    unfold rootino
    omega
  refine wp_imp (addFiles_rule h3 (by omega) hcount hslash (by rw [hf3]; rfl) hfit) ?_
  rintro _ s4 ⟨hfree4, v, h⟩
  have hk : v.Keeps wide rootino := (h.keeps _ (by decide)).2 ⟨by decide, by omega⟩
  have hused : s4.freeblock < bsize * 8 := h.shows.fits.trans_lt (by decide)
  simp only [wp_rinode hk.1, wp_winode hk.1, wp_get]
  have hsize : (s4.dinode rootino).size.toNat = (contents files rootino).length := by
    rw [h.ino _ hk.1, (h.holds _ hk).size]
  rw [hsize, putInode_freeblock, wp_balloc hused]
  refine ⟨?_, v, h.finish hk⟩
  show s4.freeinode = files.length + 2
  rw [hfree4, hf3]
  unfold rootino
  omega

end Xv6.Mkfs

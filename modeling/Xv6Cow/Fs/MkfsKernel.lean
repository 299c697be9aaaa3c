import Xv6Cow.Fs.Ownership
import Xv6Cow.Fs.MkfsFiles

/-!
# The kernel on the image of `mkfs`

The kernel starts with an empty inode cache and reads the superblock.  It then looks up a name in the
root directory and reads the inode: what it gets are the bytes of the host file.  Unless the
last entry of the root directory fills a block, it can be read without allocation, and the image is
consistent.
-/

namespace Xv6.Mkfs

open Bytes Blocks Prog
open Blocks.Volume (length_direntBytes getD_direntBytes)
open Names (Name Dirent dirsiz namecmp scan dot dotdot)

variable {v : Volume} {img : Img} {s t : Fs} {ip dp : Iptr} {i n o : ℕ} {C : ℕ → List UInt8}
  {files : List HostFile}

/-! ## The contents -/

/-- The entries of files with the inodes from `inum` on. -/
def direntsFrom (inum : ℕ) (files : List HostFile) : List Dirent :=
  (files.zipIdx inum).map fun x => ⟨x.2, x.1.kname⟩

/-- The entries of the root directory. -/
def rootDirents (files : List HostFile) : List Dirent :=
  ⟨rootino, dot⟩ :: ⟨rootino, dotdot⟩ :: direntsFrom (rootino + 1) files

theorem addContents_of_ne {inum : ℕ} (hi : i < inum ∨ inum + files.length ≤ i) (hr : i ≠ rootino) :
    addContents C inum files i = C i := by
  induction files generalizing C inum with
  | nil => rfl
  | cons f rest ih =>
    rw [List.length_cons] at hi
    rw [addContents, ih (by omega), addContent, Function.update_of_ne (by omega),
      Function.update_of_ne hr]

theorem addContents_root {inum : ℕ} (hr : rootino < inum) : addContents C inum files rootino =
    C rootino ++ (direntsFrom inum files).flatMap direntBytes := by
  induction files generalizing C inum with
  | nil => exact (List.append_nil _).symm
  | cons f rest ih =>
    have hroot : addContent C inum f rootino = C rootino ++ direntBytes ⟨inum, f.kname⟩ := by
      rw [addContent, Function.update_of_ne hr.ne, Function.update_self]
    rw [addContents, ih (Nat.lt_succ_of_lt hr), hroot, List.append_assoc]
    rfl

theorem addContents_file {inum k : ℕ} (hr : rootino < inum) (hk : k < files.length) :
    addContents C inum files (inum + k) = files[k].content := by
  induction files generalizing C inum k with
  | nil => exact absurd hk (Nat.not_lt_zero k)
  | cons f rest ih =>
    cases k with
    | zero =>
      have hne : inum ≠ rootino := hr.ne'
      rw [Nat.add_zero, addContents, addContents_of_ne (.inl (Nat.lt_succ_self inum)) hne, addContent,
        Function.update_self]
      rfl
    | succ k =>
      rw [addContents, ← Nat.add_assoc, Nat.add_right_comm]
      exact ih (Nat.lt_succ_of_lt hr) (Nat.lt_of_succ_lt_succ hk)

theorem contents_root : contents files rootino = (rootDirents files).flatMap direntBytes := by
  rw [contents, addContents_root (Nat.lt_succ_self _), Function.update_self, rootEntries,
    List.append_assoc]
  rfl

theorem contents_file {k : ℕ} (hk : k < files.length) :
    contents files (rootino + 1 + k) = files[k].content :=
  addContents_file (Nat.lt_succ_self _) hk

@[simp] theorem length_rootDirents : (rootDirents files).length = files.length + 2 := by
  simp [rootDirents, direntsFrom]

theorem length_flatMap_direntBytes (es : List Dirent) :
    (es.flatMap direntBytes).length = direntSize * es.length := by
  induction es with
  | nil => rfl
  | cons e es ih =>
    rw [List.flatMap_cons, List.length_append, length_direntBytes, ih, List.length_cons, Nat.mul_succ]
    omega

theorem length_root (files : List HostFile) : (contents files rootino).length = direntSize *
    (files.length + 2) := by
  rw [contents_root, length_flatMap_direntBytes, length_rootDirents]

theorem getD_flatMap_direntBytes (es : List Dirent) {k x : ℕ} (hk : k < es.length)
    (hx : x < direntSize) :
    (es.flatMap direntBytes).getD (direntSize * k + x) 0 = (direntBytes es[k]).getD x 0 := by
  induction es generalizing k with
  | nil => exact absurd hk (Nat.not_lt_zero k)
  | cons e es ih =>
    have hlen := length_direntBytes e
    rw [List.flatMap_cons]
    cases k with
    | zero =>
      rw [Nat.mul_zero, Nat.zero_add, List.getD_append _ _ _ _ (by omega)]
      rfl
    | succ k =>
      rw [List.getD_append_right _ _ _ _ (by rw [hlen, Nat.mul_succ]; omega), hlen, Nat.mul_succ,
        Nat.add_right_comm, Nat.add_sub_cancel]
      exact ih (Nat.lt_of_succ_lt_succ hk)

/-! ## What fits -/

theorem cost_zero : cost (blocksOf 0) = 0 := by decide

theorem total_addContent {inum : ℕ} (f : HostFile) (hr : rootino < inum) (hlt : inum < wide.ninodes)
    (hnew : C inum = []) :
    total (addContent C inum f) + cost (blocksOf (C rootino).length) =
      total C + cost (blocksOf ((C rootino).length + direntSize)) +
        cost (blocksOf f.content.length) := by
  have hfile := total_update (Function.update C rootino (C rootino ++
    direntBytes ⟨inum, f.kname⟩)) hlt f.content
  have hroot := total_update C (hr.trans hlt) (C rootino ++ direntBytes ⟨inum, f.kname⟩)
  rw [Function.update_of_ne hr.ne', hnew, List.length_nil, cost_zero] at hfile
  rw [List.length_append, length_direntBytes] at hroot
  unfold addContent
  omega

theorem total_addContents {inum : ℕ} (hr : rootino < inum)
    (hlt : inum + files.length ≤ wide.ninodes) (hnew : ∀ j, inum ≤ j → C j = []) :
    total (addContents C inum files) + cost (blocksOf (C rootino).length) =
      total C + cost (blocksOf ((C rootino).length + direntSize * files.length)) +
        (files.map fun f => cost (blocksOf f.content.length)).sum := by
  induction files generalizing C inum with
  | nil => rw [addContents, List.length_nil, Nat.mul_zero, Nat.add_zero, List.map_nil, List.sum_nil,
      Nat.add_zero]
  | cons f rest ih =>
    rw [List.length_cons] at hlt
    have hone := total_addContent f hr (by omega) (hnew inum le_rfl)
    have hr' : rootino < inum + 1 := by omega
    have hrest := ih (C := addContent C inum f) hr' (by omega) fun j hj => by
      rw [addContent_of_lt f hr hj, hnew j (by omega)]
    have hroot : (addContent C inum f rootino).length = (C rootino).length + direntSize := by
      rw [addContent, Function.update_of_ne hr.ne, Function.update_self, List.length_append,
        length_direntBytes]
    rw [hroot] at hrest
    have hlen : (C rootino).length + direntSize * (rest.length + 1) =
        (C rootino).length + direntSize + direntSize * rest.length := by
      rw [Nat.mul_succ]
      omega
    rw [List.length_cons, hlen, List.map_cons, List.sum_cons]
    show total (addContents (addContent C inum f) (inum + 1) rest) + _ = _
    omega

/-- The disk has room for the arguments, and the names, without a leading `_`, differ in the
characters that an entry holds. -/
structure Accepted (files : List HostFile) : Prop where
  inodes : files.length + 1 ≤ ninodes
  length : ∀ f ∈ files, f.content.length ≤ maxfile * bsize
  blocks : nmeta + cost (blocksOf (direntSize * (files.length + 2))) +
    (files.map fun f => cost (blocksOf f.content.length)).sum ≤ fssize
  slash : ∀ f ∈ files, '/'.toUInt8 ∉ f.name
  distinct : (files.map fun f => f.base.take dirsiz).Nodup

theorem total_root : total (Function.update (fun _ => []) rootino rootEntries) =
    cost (blocksOf (direntSize * 2)) := by
  have h := total_update (fun _ => []) (i := rootino) (by decide) rootEntries
  rw [total_nil, List.length_nil, cost_zero] at h
  rw [← Nat.add_zero (total _), h, Nat.zero_add]
  rfl

theorem Accepted.fits (h : Accepted files) : Fits (contents files) := by
  have hn := h.inodes
  have hwide : wide.ninodes = 208 := rfl
  unfold ninodes at hn
  have hroot : rootino = 1 := rfl
  have hnew : ∀ j, rootino + 1 ≤ j →
      (Function.update (fun _ => []) rootino rootEntries : ℕ → List UInt8) j = [] := fun j hj =>
    Function.update_of_ne (by omega) ..
  have htotal : total (contents files) + _ = _ :=
    total_addContents (Nat.lt_succ_self rootino) (by omega) hnew
  have hentries : rootEntries.length = direntSize * 2 := rfl
  rw [Function.update_self, hentries, total_root, ← Nat.mul_add, Nat.add_comm 2] at htotal
  refine ⟨by have := h.blocks; omega, fun i hi => ?_⟩
  by_cases hr : i = rootino
  · rw [hr, length_root]
    unfold direntSize maxfile ndirect nindirect bsize
    omega
  by_cases hfile : rootino + 1 ≤ i ∧ i < rootino + 1 + files.length
  · obtain ⟨k, rfl⟩ := Nat.exists_eq_add_of_le hfile.1
    have hk : k < files.length := by omega
    rw [contents_file hk]
    exact h.length _ (List.getElem_mem hk)
  · rw [contents, addContents_of_ne (by omega) hr, Function.update_of_ne hr]
    exact Nat.zero_le _

/-! ## Entries -/

/-- A name that fills no byte with 0. -/
def Plain (name : Name) : Prop := ∀ c ∈ name, c.toNat < 256 ∧ c.toNat ≠ 0

theorem inum_direntBytes (e : Dirent) : (direntOf (direntBytes e)).inum = e.inum % 2 ^ 16 := by
  have hbytes : le (fun k => (direntBytes e).getD k 0) 0 2 = le (leByte e.inum) 0 2 := by
    refine le_congr fun k hk => ?_
    rw [getD_direntBytes e (by unfold direntSize; omega), Nat.zero_add, direntByte, if_pos hk]
  exact hbytes.trans (le_leByte ..)

/-- Behind a short name the entry is filled up with zeros. -/
theorem drop_direntBytes (e : Dirent) : (direntBytes e).drop 2 =
    ((e.name.take dirsiz).map fun c => UInt8.ofNat c.toNat) ++
      List.replicate (dirsiz - (e.name.take dirsiz).length) 0 := by
  have hlen : (e.name.take dirsiz).length ≤ dirsiz := List.length_take_le ..
  refine List.ext_getElem ?_ fun x h1 h2 => ?_
  · simp only [List.length_drop, length_direntBytes, List.length_append, List.length_map,
      List.length_replicate, direntSize]
    unfold dirsiz at hlen ⊢
    omega
  have hbyte : ((direntBytes e).drop 2)[x] = direntByte e (2 + x) := by
    simp [direntBytes]
  rw [hbyte, direntByte, if_neg (by omega), Nat.add_sub_cancel_left, List.getElem_append]
  split
  · next h => rw [List.getD_eq_getElem _ _ h]
  · next h =>
    rw [List.getElem_replicate, List.getD_eq_default _ _ (Nat.le_of_not_lt h)]

/-- The name is read back up to the characters that the entry has room for. -/
theorem name_direntBytes {e : Dirent} (h : Plain e.name) :
    (direntOf (direntBytes e)).name = e.name.take dirsiz := by
  have hdrop := drop_direntBytes e
  generalize hnm : e.name.take dirsiz = nm at *
  have hplain : ∀ c ∈ nm, c.toNat < 256 ∧ c.toNat ≠ 0 := fun c hc =>
    h c (List.mem_of_mem_take (hnm ▸ hc))
  have hne : ∀ b ∈ nm.map fun c => UInt8.ofNat c.toNat, decide (b ≠ 0) = true := by
    intro b hb
    obtain ⟨c, hc, rfl⟩ := List.mem_map.1 hb
    obtain ⟨hlt, h0⟩ := hplain c hc
    refine decide_eq_true fun hz => h0 ?_
    have := congrArg UInt8.toNat hz
    rwa [UInt8.toNat_ofNat', Nat.mod_eq_of_lt hlt] at this
  have htake : ((direntBytes e).drop 2).takeWhile (· ≠ 0) = nm.map fun c => UInt8.ofNat c.toNat := by
    rw [hdrop, List.takeWhile_append_of_pos hne, List.takeWhile_replicate]
    simp
  rw [direntOf, htake, List.map_map]
  conv_rhs => rw [← List.map_id nm]
  refine List.map_congr_left fun c hc => ?_
  rw [Function.comp_apply, UInt8.toNat_ofNat', Nat.mod_eq_of_lt (hplain c hc).1, Char.ofNat_toNat]
  rfl

/-! ## The kernel reads the image -/

/-- An entry of the inode cache that was never used. -/
def unused : Handle := ⟨0, 0, 0, false, false, false⟩

/-- The kernel after it has read the superblock, with nothing in the inode cache; the rest is that
of `s`. -/
def Img.mount (img : Img) (s : Fs) : Fs :=
  { s with
    blk := img.blk
    sb := superblockOf (img.blk 1)
    icache := fun _ => ⟨.fresh 0, unused⟩
    hist.reading := false }

/-- Look the name up in the root directory and read the file: its size and its bytes. -/
def slurp (name : Name) : FsM (Option (ℕ × Option (List UInt8))) := do
  let dp ← iget rootdev rootino
  ilock dp
  match ← dirlookup dp name with
  | none => return none
  | some (_, ip) =>
    iunlock dp
    ilock ip
    let size := ((← get).icache ip).size.toNat
    return some (size, ← readi ip 0 size)

/-- The blocks of the image are under the kernel. -/
structure On (img : Img) (s : Fs) : Prop where
  blk : s.blk = img.blk
  super : s.sb = sb
  reading : s.hist.reading = false

/-- The entry of the cache holds inode `i` as it is on the image. -/
def Copies (img : Img) (s : Fs) (ip : Iptr) (i : ℕ) : Prop :=
  (s.icache ip).toDinode = img.dinode i

theorem superblockOf_sbByte : superblockOf sbByte = sb := by decide

theorem On.mount (h : Image C v img) (s : Fs) : On img (img.mount s) := by
  refine ⟨rfl, ?_, rfl⟩
  show superblockOf (img.blk 1) = sb
  rw [h.super, superblockOf_sbByte]

namespace Image

section

variable (h : Image C v img) (hi : v.Keeps wide i)

include h hi

theorem ptr (k : Slot) : (img.dinode i).ptr img.blk k = v.ptr i k := by
  have haddrs : (img.dinode i).addrs = (v.ino i).addrs := by
    by_cases hr : i = rootino
    · rw [hr, h.root]
    · rw [h.ino i hi.1 hr]
  have hdata : (v.ino i).ptr img.blk k = (v.ino i).ptr v.data k := by
    refine Dinode.ptr_congr k fun hind => ?_
    rw [h.shows.data _ (h.shows.ind_lt h.base hi hind).1]
  rw [Volume.ptr, ← hdata]
  cases k with
  | direct j => simp only [Dinode.ptr, haddrs]
  | indirect => simp only [Dinode.ptr, haddrs]
  | entry j => simp only [Dinode.ptr, haddrs]

theorem type_eq : (img.dinode i).type = if i = rootino then tDir else tFile := by
  rw [← h.type i hi]
  by_cases hr : i = rootino
  · rw [hr, h.root]
  · rw [h.ino i hi.1 hr]

theorem cached_type (hc : Copies img s ip i) :
    (s.icache ip).type = if i = rootino then tDir else tFile :=
  (congrArg Dinode.type hc).trans (h.type_eq hi)

end

variable (h : Image C v img) (hs : On img s) (hi : v.Keeps wide i) (hc : Copies img s ip i)

include h hs hi hc

theorem cached_ptr (k : Slot) : (s.icache ip).ptr s.blk k = v.ptr i k := by
  rw [hc, hs.blk, h.ptr hi]

theorem cached_mapped : s.Mapped ip (blocksOf (C i).length * bsize) := by
  have hold := h.holds i hi
  intro bn hbn
  rw [h.cached_ptr hs hi hc]
  exact hold.has.mapped_blocks (blocksOf_le (hold.length_le h.base hi)) bn hbn

theorem cached_byte (ho : o < blocksOf (C i).length * bsize) : s.byteAt ip o = v.byteAt i o := by
  have hp := (h.cached_mapped hs hi hc (o / bsize)
    (by have := Nat.div_mul_le_self o bsize; omega)).2
  rw [h.cached_ptr hs hi hc] at hp
  rw [Fs.byteAt, h.cached_ptr hs hi hc, hs.blk, ← h.shows.data _ (h.shows.ptr_lt h.base hi hp).1,
    Volume.byteAt]

theorem cached_bytes {off : ℕ} (hlen : off + n ≤ (C i).length) :
    s.bytes ip off n = (List.range n).map fun k => (C i).getD (off + k) 0 := by
  refine List.map_congr_left fun k hk => ?_
  have hlt : off + k < (C i).length := by
    have := List.mem_range.1 hk
    omega
  rw [h.cached_byte hs hi hc (by unfold blocksOf bsize; omega), (h.holds i hi).byte _ hlt]

end Image

theorem map_getD_range (l : List UInt8) : ((List.range l.length).map fun k =>
    l.getD (0 + k) 0) = l := by
  refine List.ext_getElem (by simp) fun k h1 h2 => ?_
  simp [h2]

/-! ## Looking up and reading -/

variable {E : Stop → Fs → Prop} {dev inum : ℕ}

theorem iget_new (hno : ∀ ip, 0 < (s.icache ip).ref → (s.icache ip).inum ≠ inum)
    (hfree : ∃ ip, (s.icache ip).ref = 0) :
    wp (iget dev inum) (fun ip t => (s.icache ip).ref = 0 ∧ t = s.setHandle ip
        { (s.icache ip).toHandle with dev := dev, inum := inum, ref := 1, valid := false, freed := false })
      E s := by
  have hnone : ((List.finRange ninode).find? fun ip =>
      0 < (s.icache ip).ref ∧ (s.icache ip).dev = dev ∧ (s.icache ip).inum = inum) = none := by
    rw [List.find?_eq_none]
    intro ip _ h
    obtain ⟨href, -, hinum⟩ := of_decide_eq_true h
    exact hno ip href hinum
  obtain ⟨ip0, hip0⟩ := hfree
  have hsome : ((List.finRange ninode).find? fun ip => (s.icache ip).ref = 0).isSome := by
    rw [List.find?_isSome]
    exact ⟨ip0, List.mem_finRange ip0, decide_eq_true hip0⟩
  obtain ⟨ip, hip⟩ := Option.isSome_iff_exists.1 hsome
  have href := List.find?_some hip
  simp only [decide_eq_true_eq] at href
  simp only [iget, wp_run, hnone, hip]
  exact ⟨href, trivial⟩

theorem ilock_new (href : 0 < (s.icache ip).ref) (hlock : (s.icache ip).locked = false)
    (hvalid : (s.icache ip).valid = false) (htype : (s.dinode (s.icache ip).inum).type ≠ 0) :
    wp (ilock ip) (fun _ t => t = s.setInode ip { s.icache ip with
        toDinode := s.dinode (s.icache ip).inum, valid := true, locked := true }) E s := by
  have hpos : ¬ (s.icache ip).ref < 1 := by omega
  simp only [ilock, acquiresleep, wp_bind, wp_get, wp_ite, wp_set, hpos, hlock, if_false,
    Bool.false_eq_true, Fs.setHandle, Fs.setInode_icache_self, Fs.setInode_setInode, hvalid,
    not_false_eq_true, if_true, Fs.setInode_dinode, htype]
  rfl

/-- The root directory is locked, and nothing else is in the cache. -/
structure AtRoot (img : Img) (s : Fs) (dp : Iptr) : Prop where
  on : On img s
  copy : Copies img s dp rootino
  root : (s.icache dp).toHandle = ⟨rootdev, rootino, 1, true, true, false⟩
  idle : ∀ jp, jp ≠ dp → (s.icache jp).toHandle = unused

theorem On.dinode (h : On img s) (i : ℕ) : s.dinode i = img.dinode i := by
  rw [Fs.dinode, h.super, h.blk]
  rfl

theorem Image.type_ne (h : Image C v img) (hi : v.Keeps wide i) : (img.dinode i).type ≠ 0 := by
  rw [h.type_eq hi]
  split <;> decide

theorem root_locked (h : Image C v img) (hroot : v.Keeps wide rootino) (s : Fs) :
    wp (iget rootdev rootino) (fun dp t => wp (ilock dp) (fun _ u => AtRoot img u dp) E t) E
      (img.mount s) := by
  refine wp_imp (iget_new (fun ip hpos => absurd hpos (Nat.lt_irrefl 0)) ⟨0, rfl⟩) ?_
  rintro dp _ ⟨-, rfl⟩
  have hon := On.mount h s
  generalize hx : (img.mount s).setHandle dp _ = t
  have hself : (t.icache dp).toHandle = ⟨rootdev, rootino, 1, false, false, false⟩ := by
    rw [← hx, Fs.setHandle, Fs.setInode_icache_self]
    rfl
  have hother : ∀ jp, jp ≠ dp → (t.icache jp).toHandle = unused := by
    intro jp hj
    rw [← hx, Fs.setHandle, Fs.setInode_icache_of_ne _ _ hj]
    rfl
  have hont : On img t := by
    rw [← hx]
    exact ⟨hon.blk, hon.super, hon.reading⟩
  have hd : t.dinode (t.icache dp).inum = img.dinode rootino := by
    rw [hont.dinode, hself]
  refine wp_imp (ilock_new (hself ▸ Nat.one_pos) (by rw [hself]) (by rw [hself])
    (hd ▸ h.type_ne hroot)) ?_
  rintro _ _ rfl
  refine ⟨⟨hont.blk, hont.super, hont.reading⟩, ?_, ?_, fun jp hj => ?_⟩
  · rw [Copies, Fs.setInode_icache_self, hd]
  · rw [Fs.setInode_icache_self]
    show ({ (t.icache dp).toHandle with valid := true, locked := true } : Handle) = _
    rw [hself]
  · rw [Fs.setInode_icache_of_ne _ _ hj, hother jp hj]

theorem scan_first {name : Name} {es : List Dirent} {m : ℕ} (hm : m < es.length)
    (hfirst : ∀ j (hj : j < m), ¬ namecmp name es[j].name)
    (hmatch : es[m].inum ≠ 0 ∧ namecmp name es[m].name) : scan name es = some (m, es[m].inum) := by
  induction es generalizing m with
  | nil => cases hm
  | cons e es ih =>
    cases m with
    | zero => exact if_pos hmatch
    | succ m =>
      have hrest := ih (Nat.lt_of_succ_lt_succ hm)
        (fun j hj => hfirst (j + 1) (Nat.succ_lt_succ hj)) hmatch
      rw [scan, if_neg fun hc => hfirst 0 (Nat.succ_pos m) hc.2, hrest]
      rfl

theorem toNat_char (b : UInt8) : (Char.ofNat b.toNat).toNat = b.toNat := by
  have hall : ∀ k : Fin 256, (Char.ofNat k).toNat = k := by decide +kernel
  exact hall ⟨b.toNat, b.toNat_lt⟩

theorem plain_kname (f : HostFile) : Plain f.kname := by
  intro c hc
  obtain ⟨b, hb, rfl⟩ := List.mem_map.1 hc
  have hmem : b ∈ f.name := by
    unfold HostFile.base at hb
    split at hb
    · exact List.mem_of_mem_tail hb
    · exact hb
  rw [toNat_char]
  refine ⟨b.toNat_lt, fun hz => f.name_nul ?_⟩
  have hb : b = 0 := UInt8.toNat_inj.1 hz
  exact hb ▸ hmem

theorem mem_direntsFrom {inum : ℕ} {e : Dirent} (h : e ∈ direntsFrom inum files) :
    inum ≤ e.inum ∧ e.inum < inum + files.length ∧ Plain e.name := by
  obtain ⟨⟨f, j⟩, hx, rfl⟩ := List.mem_map.1 h
  have hj := List.mem_zipIdx hx
  exact ⟨hj.1, hj.2.1, plain_kname f⟩

theorem mem_rootDirents {e : Dirent} (h : e ∈ rootDirents files) :
    0 < e.inum ∧ e.inum < files.length + 2 ∧ Plain e.name := by
  have hroot : rootino = 1 := rfl
  rcases List.mem_cons.1 h with rfl | h
  · exact ⟨by decide, by show rootino < _; omega, by simp [Plain, dot]⟩
  rcases List.mem_cons.1 h with rfl | h
  · exact ⟨by decide, by show rootino < _; omega, by simp [Plain, dotdot]⟩
  obtain ⟨h1, h2, h3⟩ := mem_direntsFrom h
  exact ⟨by omega, by omega, h3⟩

theorem namecmp_take (name name' : Name) : namecmp name (name'.take dirsiz) = namecmp name name' := by
  unfold namecmp
  rw [List.take_take, min_self]

theorem dirlookup_first (h : Image (contents files) v img) (hroot : v.Keeps wide rootino)
    (hs : AtRoot img s dp) (hn : files.length + 2 ≤ wide.ninodes) {name : Name} {m : ℕ}
    {Q : Option (ℕ × Iptr) → Fs → Prop} (hm : m < (rootDirents files).length)
    (hfirst : ∀ j (hj : j < m), ¬ namecmp name (rootDirents files)[j].name)
    (hmatch : namecmp name (rootDirents files)[m].name)
    (hfound : wp (iget rootdev (rootDirents files)[m].inum)
      (fun ip t => Q (some (direntSize * m, ip)) t) E s) :
    wp (dirlookup dp name) Q E s := by
  have hwide : wide.ninodes = 208 := rfl
  have htype : (s.icache dp).type = tDir := h.cached_type hroot hs.copy
  have hlength := length_root files
  have hsize : (s.icache dp).size.toNat = (direntSize * (files.length + 2) / bsize + 1) * bsize := by
    have hd : (s.icache dp).size = (img.dinode rootino).size := congrArg Dinode.size hs.copy
    rw [hd, h.root, hlength]
    refine toNat_ofNat_of_lt ?_
    unfold direntSize bsize
    omega
  have hblocks : direntSize * (files.length + 2) ≤
      blocksOf (contents files rootino).length * bsize := by
    rw [hlength]
    unfold blocksOf bsize
    omega
  have hread : ∀ j (hj : j < (rootDirents files).length),
      direntOf (s.bytes dp (direntSize * j) direntSize) =
        ⟨(rootDirents files)[j].inum, (rootDirents files)[j].name.take dirsiz⟩ := by
    intro j hj
    have hmem := mem_rootDirents (List.getElem_mem hj)
    rw [length_rootDirents] at hj
    have hend : direntSize * j + direntSize ≤ (contents files rootino).length := by
      rw [hlength, ← Nat.mul_succ]
      exact Nat.mul_le_mul_left _ hj
    have hbytes : s.bytes dp (direntSize * j) direntSize = direntBytes (rootDirents files)[j] := by
      rw [h.cached_bytes hs.on hroot hs.copy hend]
      refine List.ext_getElem (by simp) fun x h1 h2 => ?_
      have hx : x < direntSize := by rwa [length_direntBytes] at h2
      rw [List.getElem_map, List.getElem_range, contents_root,
        getD_flatMap_direntBytes _ (by rwa [length_rootDirents]) hx, List.getD_eq_getElem _ _ h2]
    have hinum := inum_direntBytes (rootDirents files)[j]
    rw [Nat.mod_eq_of_lt (by omega)] at hinum
    rw [hbytes, ← hinum, ← name_direntBytes hmem.2.2]
  simp only [dirlookup, wp_run, htype, ne_eq, not_true_eq_false]
  have hdev : (s.icache dp).type ≠ tDev := by
    rw [htype]
    decide
  have hmem := mem_rootDirents (List.getElem_mem hm)
  have hfuel : files.length + 2 < 0 + dirRounds (s.icache dp).size := by
    rw [dirRounds, hsize]
    unfold direntSize bsize
    omega
  have hreadable : s.Readable dp (files.length + 2) := by
    refine ⟨hdev, hs.on.reading, ?_, fun bn hbn => ?_⟩
    · rw [hsize]
      unfold bsize
      omega
    · exact h.cached_mapped hs.on hroot hs.copy bn (by omega)
  have hscan : scan name (((s.records dp (files.length + 2)).drop 0).map direntOf) =
      some (m, (rootDirents files)[m].inum) := by
    have hrecords : (s.records dp (files.length + 2)).map direntOf =
        (rootDirents files).map fun e => ⟨e.inum, e.name.take dirsiz⟩ := by
      refine List.ext_getElem (by simp [length_rootDirents]) fun j h1 h2 => ?_
      simp only [Fs.records, List.getElem_map, List.getElem_range]
      exact hread j (by simpa using h2)
    rw [List.drop_zero, hrecords, scan_first (m := m) (by rwa [List.length_map])]
    · rw [List.getElem_map]
    · intro j hj
      rw [List.getElem_map, namecmp_take]
      exact hfirst j hj
    · rw [List.getElem_map, namecmp_take]
      exact ⟨hmem.1.ne', hmatch⟩
  refine dirScan_rule (k := 0) hreadable (Nat.zero_le _) hfuel (fun m' inum hm' => ?_) fun hnone => ?_
  · obtain ⟨rfl, rfl⟩ := Prod.mk.inj (Option.some.inj (hm'.symm.trans hscan))
    rw [Nat.zero_add, hs.root]
    exact hfound
  · cases hnone.symm.trans hscan

theorem iunlock_locked (href : 0 < (s.icache ip).ref) (hlock : (s.icache ip).locked = true) :
    wp (iunlock ip) (fun _ t => t.blk = s.blk ∧ t.sb = s.sb ∧ t.hist.reading = s.hist.reading ∧
        t.icache = (s.setHandle ip { (s.icache ip).toHandle with locked := false }).icache) E s := by
  have hok : ¬ (¬ (s.icache ip).locked = true ∨ (s.icache ip).ref < 1) := by
    rintro (h | h)
    · exact h hlock
    · omega
  simp only [iunlock, releasesleep, wp_run, hok]
  exact ⟨rfl, rfl, rfl, trivial⟩

theorem slurp_entry (h : Image (contents files) v img) (hn : files.length + 2 ≤ wide.ninodes)
    (hfree : img.freeinode = files.length + 2) (s : Fs) {name : Name} {m : ℕ}
    (hm : m < (rootDirents files).length)
    (hfirst : ∀ j (hj : j < m), ¬ namecmp name (rootDirents files)[j].name)
    (hmatch : namecmp name (rootDirents files)[m].name)
    (hinum : (rootDirents files)[m].inum ≠ rootino) :
    wp (slurp name) (fun r _ => r = some ((contents files (rootDirents files)[m].inum).length,
        some (contents files (rootDirents files)[m].inum))) E (img.mount s) := by
  have hroot : v.Keeps wide rootino := by
    rw [h.keeps _ (by decide), hfree]
    unfold rootino
    omega
  have hmem := mem_rootDirents (List.getElem_mem hm)
  generalize hi : (rootDirents files)[m].inum = i at *
  have hk : v.Keeps wide i := by
    rw [h.keeps _ (by omega), hfree]
    exact ⟨hmem.1, hmem.2.1⟩
  simp only [slurp, wp_bind]
  refine wp_imp (root_locked h hroot s) fun dp t ht => wp_imp ht fun _ u hu => ?_
  refine dirlookup_first h hroot hu hn hm hfirst hmatch ?_
  rw [hi]
  have hno : ∀ ip, 0 < (u.icache ip).ref → (u.icache ip).inum ≠ i := by
    intro ip hpos
    by_cases hd : ip = dp
    · rw [hd, hu.root]
      exact hinum.symm
    · rw [hu.idle ip hd] at hpos
      exact absurd hpos (Nat.lt_irrefl 0)
  have hsome : ∃ ip, (u.icache ip).ref = 0 := by
    have hne : ∀ jp : Iptr, jp + 1 ≠ jp := by decide
    exact ⟨dp + 1, by rw [hu.idle _ (hne dp)]; rfl⟩
  refine wp_imp (iget_new hno hsome) ?_
  rintro ip _ ⟨hzero, rfl⟩
  have hne : ip ≠ dp := by
    rintro rfl
    rw [hu.root] at hzero
    cases hzero
  generalize hx : u.setHandle ip _ = x
  have hdp : (x.icache dp).toHandle = ⟨rootdev, rootino, 1, true, true, false⟩ := by
    rw [← hx, Fs.setHandle, Fs.setInode_icache_of_ne _ _ hne.symm, hu.root]
  have hip : (x.icache ip).toHandle = ⟨rootdev, i, 1, false, false, false⟩ := by
    rw [← hx, Fs.setHandle, Fs.setInode_icache_self]
    simp only [hu.idle ip hne]
    rfl
  have hon : On img x := by
    rw [← hx]
    exact ⟨hu.on.blk, hu.on.super, hu.on.reading⟩
  simp only [wp_bind]
  refine wp_imp (iunlock_locked (by rw [hdp]; exact Nat.one_pos) (by rw [hdp])) ?_
  rintro _ w ⟨hblk, hsb, hread, hic⟩
  have hipw : w.icache ip = x.icache ip := by
    rw [hic, Fs.setHandle, Fs.setInode_icache_of_ne _ _ hne]
  have honw : On img w := ⟨hblk.trans hon.blk, hsb.trans hon.super, hread.trans hon.reading⟩
  have hd : w.dinode (w.icache ip).inum = img.dinode i := by
    rw [honw.dinode, hipw, hip]
  refine wp_imp (ilock_new (by rw [hipw, hip]; exact Nat.one_pos) (by rw [hipw, hip])
    (by rw [hipw, hip]) (hd ▸ h.type_ne hk)) ?_
  rintro _ _ rfl
  rw [wp_get]
  generalize hy : w.setInode ip _ = y
  have hony : On img y := by
    rw [← hy]
    exact ⟨honw.blk, honw.super, honw.reading⟩
  have hcopy : Copies img y ip i := by
    rw [← hy, Copies, Fs.setInode_icache_self, hd]
  have hsize : (y.icache ip).size.toNat = (contents files i).length := by
    have hsz : (y.icache ip).size = (img.dinode i).size := congrArg Dinode.size hcopy
    rw [hsz, h.ino i hk.1 hinum, (h.holds i hk).size]
  have hdev : (y.icache ip).type ≠ tDev := by
    rw [h.cached_type hk hcopy, if_neg hinum]
    decide
  refine wp_imp (readi_found hdev hony.reading (by omega) fun bn hbn => ?_) ?_
  · refine h.cached_mapped hony hk hcopy bn (hbn.trans_le ?_)
    rw [hsize]
    unfold blocksOf bsize
    omega
  · rintro _ z ⟨rfl, rfl⟩
    rw [wp_pure, hsize, h.cached_bytes hony hk hcopy (by omega), map_getD_range]

/-! ## `mkfs` and the kernel agree -/

/-- The kernel reads each host file from the image under its name, no block is in two files, and the
bitmap marks the blocks that were allocated. -/
structure Agrees (files : List HostFile) (img : Img) : Prop where
  reads : ∀ f ∈ files, ∀ s, ∃ t,
    slurp f.kname (img.mount s) = .ok (some (f.content.length, some f.content)) t
  apart : ∀ {i j k l}, 0 < i → i < files.length + 2 → 0 < j → j < files.length + 2 →
    (img.dinode i).ptr img.blk k ≠ 0 →
    (img.dinode i).ptr img.blk k = (img.dinode j).ptr img.blk l → i = j ∧ k = l
  bitmap : ∀ b < fssize, img.used b = decide (b < img.freeblock)

theorem getElem_rootDirents {k : ℕ} (hk : k < files.length)
    (h : k + 2 < (rootDirents files).length) :
    (rootDirents files)[k + 2] = ⟨rootino + 1 + k, files[k].kname⟩ := by
  simp [rootDirents, direntsFrom]

theorem map_char_inj {l l' : List UInt8} :
    (l.map fun b => Char.ofNat b.toNat) = l'.map (fun b => Char.ofNat b.toNat) ↔ l = l' := by
  refine (List.map_injective_iff.2 fun b b' h => ?_).eq_iff
  have := congrArg Char.toNat h
  rw [toNat_char, toNat_char] at this
  exact UInt8.toNat_inj.1 this

theorem namecmp_kname {f g : HostFile} (h : namecmp f.kname g.kname) :
    f.base.take dirsiz = g.base.take dirsiz := by
  have heq : f.kname.take dirsiz = g.kname.take dirsiz := eq_of_beq h
  unfold HostFile.kname at heq
  rw [← List.map_take, ← List.map_take] at heq
  exact map_char_inj.1 heq

theorem eq_of_namecmp {name short : Name} (hshort : short.length < dirsiz) (h : namecmp name short) :
    name = short := by
  have heq : name.take dirsiz = short.take dirsiz := eq_of_beq h
  rw [List.take_of_length_le hshort.le] at heq
  have hlen := congrArg List.length heq
  rw [List.length_take] at hlen
  rwa [List.take_of_length_le (by omega)] at heq

/-- The program returns on arguments for which the disk has room. -/
theorem main_returns (h : Accepted files) :
    ∃ img v, main files Img.zero = .ok () img ∧ img.freeinode = files.length + 2 ∧
      Image (contents files) v img := by
  have hlen : files.length + 2 ≤ wide.ninodes := by
    have := h.inodes
    have : ninodes = 200 := rfl
    have : wide.ninodes = 208 := rfl
    omega
  have hrun : wp (main files) _ (fun _ _ => ¬ True) Img.zero :=
    main_rule hlen (fun _ => h.slash) fun _ => h.fits
  obtain ⟨_, img, hmain, hfree, v, himg⟩ := wp_returns (wp_mono hrun (fun _ _ hq => hq)
    fun _ _ he => he trivial)
  exact ⟨img, v, hmain, hfree, himg⟩

/-- The kernel finds every file of the host on the image of `mkfs`, with its bytes. -/
theorem reads_back (files : List HostFile) (h : Accepted files)
    (hdots : ∀ f ∈ files, f.kname ≠ dot ∧ f.kname ≠ dotdot) :
    ∃ img, main files Img.zero = .ok () img ∧ Agrees files img := by
  obtain ⟨img, v, hmain, hfree, himg⟩ := main_returns h
  have hninodes := h.inodes
  have hn : ninodes = 200 := rfl
  have hwide : wide.ninodes = 208 := rfl
  have hroot : rootino = 1 := rfl
  have hlen : files.length + 2 ≤ wide.ninodes := by omega
  refine ⟨img, hmain, fun f hf s => ?_, fun {i j k l} hi hi' hj hj' hp heq => ?_, fun b hb => ?_⟩
  · obtain ⟨k, hk, rfl⟩ := List.getElem_of_mem hf
    have hm : k + 2 < (rootDirents files).length := by
      rw [length_rootDirents]
      omega
    have hentry := getElem_rootDirents hk hm
    have hfirst : ∀ j (hj : j < k + 2), ¬ namecmp files[k].kname (rootDirents files)[j].name := by
      intro j hj hcmp
      match j, hj with
      | 0, _ => exact (hdots _ hf).1 (eq_of_namecmp (by decide) hcmp)
      | 1, _ => exact (hdots _ hf).2 (eq_of_namecmp (by decide) hcmp)
      | j + 2, hj =>
        have hjk : j < k := by omega
        rw [getElem_rootDirents (hjk.trans hk)] at hcmp
        have hbase := namecmp_kname hcmp
        have hnodup := List.pairwise_iff_getElem.1 h.distinct j k
          (by rw [List.length_map]; omega) (by rwa [List.length_map]) hjk
        rw [List.getElem_map, List.getElem_map] at hnodup
        exact hnodup hbase.symm
    have hread := slurp_entry (E := fun _ _ => False) himg hlen hfree s hm hfirst
      (by rw [hentry]; exact beq_self_eq_true _) (by rw [hentry]; show rootino + 1 + k ≠ rootino; omega)
    obtain ⟨_, t, ht, rfl⟩ := wp_returns hread
    rw [hentry, contents_file hk] at ht
    exact ⟨t, ht⟩
  · have hki : v.Keeps wide i := (himg.keeps i (by omega)).2 ⟨hi, by omega⟩
    have hkj : v.Keeps wide j := (himg.keeps j (by omega)).2 ⟨hj, by omega⟩
    rw [himg.ptr hki] at hp heq
    rw [himg.ptr hkj] at heq
    exact himg.base.toOwned.slot_eq hki hkj hp heq
  · exact himg.bitmap b (hb.trans (by decide))

/-- A host file with two chunks. -/
def greeting : HostFile where
  name := ['_', 'h', 'i'].map Char.toUInt8
  chunks := [[104], [105, 10]]
  name_nul := by decide
  chunk_length := by decide

theorem greeting_accepted : Accepted [greeting] := by
  constructor <;> decide

theorem reads_back_greeting : ∃ img, main [greeting] Img.zero = .ok () img ∧ Agrees [greeting] img :=
  reads_back [greeting] greeting_accepted (by decide)

/-- A host file whose name is `.` in the root directory. -/
def underscoreDot : HostFile where
  name := ['_', '.'].map Char.toUInt8
  chunks := []
  name_nul := by decide
  chunk_length := nofun

/-- A kernel with nothing in it. -/
def idle : Fs where
  blk _ _ := 0
  sb := sb
  outstanding := 0
  lh := []
  icache _ := ⟨.fresh 0, unused⟩
  ftable _ := ⟨0, .none, false, false, 0⟩
  pipes _ := none
  live _ := false
  cwd _ := 0
  ofile _ _ := none
  input := none
  hist := ⟨[], [], [], fun _ => none, false, fun _ => 0, fun _ => 0⟩

theorem underscoreDot_accepted : Accepted [underscoreDot] := by
  constructor <;> decide

/-- How many bytes the kernel finds under the name `dot` on the image of `underscoreDot`. -/
def dotSize : Option ℕ :=
  match main [underscoreDot] Img.zero with
  | .ok _ img =>
    match slurp dot (img.mount idle) with
    | .ok r _ => r.map Prod.fst
    | .error _ _ => none
  | .error _ _ => none

/-- Under the name of the host file `_.` the kernel finds the root directory. -/
theorem dot_not_read : Accepted [underscoreDot] ∧
    ∃ img, main [underscoreDot] Img.zero = .ok () img ∧ ¬ Agrees [underscoreDot] img := by
  obtain ⟨img, -, hmain, -⟩ := main_returns underscoreDot_accepted
  refine ⟨underscoreDot_accepted, img, hmain, fun h => ?_⟩
  obtain ⟨t, ht⟩ := h.reads underscoreDot List.mem_cons_self idle
  have hname : underscoreDot.kname = dot := by decide
  have hroot : dotSize = some 512 := by decide +kernel
  rw [hname] at ht
  simp only [dotSize, hmain, ht] at hroot
  cases hroot

/-! ## The root directory -/

/-- The kernel can read the whole root directory: its blocks are there and marked, after the last
entry there are only zeros, and `bmap` has nothing to allocate.  `n` is the number of files. -/
structure RootFull (img : Img) (n : ℕ) : Prop where
  block : ∀ bn < ((img.dinode rootino).size.toNat + bsize - 1) / bsize,
    (img.dinode rootino).ptr img.blk (slotOf bn) ≠ 0 ∧
    img.used ((img.dinode rootino).ptr img.blk (slotOf bn)) = true
  clear : ∀ k, n + 2 ≤ k → direntSize * k + direntSize ≤ (img.dinode rootino).size.toNat →
    ∀ x < direntSize, img.blk ((img.dinode rootino).ptr img.blk
      (slotOf ((direntSize * k + x) / bsize))) ((direntSize * k + x) % bsize) = 0
  reads : ∀ (s : Fs) ip, s.blk = img.blk → (s.icache ip).toDinode = img.dinode rootino →
    ∀ bn < ((img.dinode rootino).size.toNat + bsize - 1) / bsize, ∃ a, bmap ip bn s = .ok a s

theorem Image.root_size (h : Image (contents files) v img) (hlen : files.length + 2 ≤ wide.ninodes) :
    (img.dinode rootino).size.toNat = ((files.length + 2) / 32 + 1) * bsize := by
  have hwide : wide.ninodes = 208 := rfl
  rw [h.root, length_root]
  refine (toNat_ofNat_of_lt ?_).trans ?_
  all_goals
    unfold direntSize bsize
    omega

/-- The blocks of the root directory are there exactly if its entries do not end with a block. -/
theorem Image.rootFull_iff (h : Image (contents files) v img) (hroot : v.Keeps wide rootino)
    (hlen : files.length + 2 ≤ wide.ninodes) :
    RootFull img files.length ↔ (files.length + 2) % (bsize / direntSize) ≠ 0 := by
  have hwide : wide.ninodes = 208 := rfl
  have hper : bsize / direntSize = 32 := rfl
  have hsize := h.root_size hlen
  have hold := h.holds rootino hroot
  have hhas := hold.has
  have hcount : ((img.dinode rootino).size.toNat + bsize - 1) / bsize =
    (files.length + 2) / 32 + 1 := by
    rw [hsize]
    unfold bsize
    omega
  have hblocks : blocksOf (contents files rootino).length = (files.length + 2 + 31) / 32 := by
    rw [length_root]
    unfold blocksOf direntSize bsize
    omega
  rw [hblocks] at hhas
  have hmax : maxfile = 140 := rfl
  rw [hper]
  constructor
  · intro hfull hz
    have hp := (hfull.block ((files.length + 2) / 32) (by omega)).1
    rw [h.ptr hroot] at hp
    have := (hhas.block _ (by omega)).1 hp
    omega
  intro hne
  have hptr : ∀ bn < (files.length + 2) / 32 + 1, bn < maxfile ∧ v.ptr rootino (slotOf bn) ≠ 0 := by
    intro bn hbn
    exact ⟨by omega, (hhas.block bn (by omega)).2 (by omega)⟩
  refine ⟨fun bn hbn => ?_, fun k hk hend x hx => ?_, fun s ip hblk hcopy bn hbn => ?_⟩
  · obtain ⟨-, hp⟩ := hptr bn (by omega)
    have hlt := (h.shows.ptr_lt h.base hroot hp).2
    have hfits := h.shows.fits
    rw [h.ptr hroot, h.bitmap _ (by unfold fssize bpb at *; omega)]
    exact ⟨hp, decide_eq_true hlt⟩
  · have hlo : (contents files rootino).length ≤ direntSize * k + x := by
      rw [length_root]
      unfold direntSize
      omega
    have hhi : direntSize * k + x < blocksOf (contents files rootino).length * bsize := by
      rw [hblocks]
      unfold direntSize bsize at *
      omega
    generalize direntSize * k + x = o at hlo hhi
    have hzero := hold.pad o hlo hhi
    have hp := (hptr (o / bsize) (by unfold bsize at *; omega)).2
    rw [h.ptr hroot, ← h.shows.data _ (h.shows.ptr_lt h.base hroot hp).1]
    exact hzero
  · obtain ⟨hlt, hp⟩ := hptr bn (by omega)
    have hp' : (s.icache ip).ptr s.blk (slotOf bn) ≠ 0 := by
      rw [hcopy, hblk, h.ptr hroot]
      exact hp
    obtain ⟨a, t, hrun, rfl, -⟩ := wp_returns (bmap_found hlt hp')
    exact ⟨a, hrun⟩

theorem main_image {files : List HostFile} (hlen : files.length + 2 ≤ ipb * ninodeblocks)
    (hmain : main files Img.zero = .ok () img) :
    ∃ v, Image (contents files) v img ∧ v.Keeps wide rootino := by
  have hrun : wp (main files) _ (fun _ _ => ¬ False) Img.zero := main_rule hlen nofun nofun
  obtain ⟨hfree, v, himg⟩ := wp_ok hrun hmain
  refine ⟨v, himg, ?_⟩
  rw [himg.keeps _ (by decide), hfree]
  unfold rootino
  omega

/-- The root directory has a hole exactly if its entries fill its last block. -/
theorem root_full_iff (files : List HostFile) (img : Img) (hmain : main files Img.zero = .ok () img)
    (hlen : files.length + 2 ≤ ipb * ninodeblocks) :
    RootFull img files.length ↔ (files.length + 2) % (bsize / direntSize) ≠ 0 := by
  obtain ⟨v, himg, hroot⟩ := main_image hlen hmain
  exact himg.rootFull_iff hroot hlen

theorem root_full_greeting : ∃ img, main [greeting] Img.zero = .ok () img ∧ RootFull img 1 := by
  obtain ⟨img, -, hmain, -⟩ := main_returns greeting_accepted
  exact ⟨img, hmain, (root_full_iff [greeting] img hmain (by decide)).2 (by decide)⟩

/-- An empty file with a name of one letter. -/
def letter (k : Fin 30) : HostFile where
  name := [UInt8.ofNat (65 + k)]
  chunks := []
  name_nul := by
    revert k
    decide
  chunk_length := nofun

/-- With 30 files the root directory has 32 entries, which fill its block. -/
theorem root_hole : ∃ img, main ((List.finRange 30).map letter) Img.zero = .ok () img ∧
    ¬ RootFull img 30 := by
  have haccept : Accepted ((List.finRange 30).map letter) := by
    constructor <;> decide
  obtain ⟨img, -, hmain, -⟩ := main_returns haccept
  obtain ⟨v, himg, hroot⟩ := main_image (by decide) hmain
  refine ⟨img, hmain, fun hfull => ?_⟩
  exact (himg.rootFull_iff hroot (by decide)).1 hfull (by decide)

/-! ## The image is consistent -/

/-- The inodes of the image come before the end of the inode table. -/
theorem base_narrow (h : v.Base wide) (hlt : ∀ i, v.Keeps wide i → i < ninodes) : v.Base sb := by
  have hle : sb.ninodes ≤ wide.ninodes := by decide
  have hkeeps : ∀ i, v.Keeps sb i ↔ v.Keeps wide i := fun i =>
    ⟨fun hi => ⟨hi.1.trans_le hle, hi.2⟩, fun hi => ⟨hlt i hi, hi.2⟩⟩
  have hown : v.own sb = v.own wide := by
    funext x
    simp only [Volume.own, hkeeps]
  refine ⟨⟨hown ▸ h.own, fun hx => h.area (hown ▸ hx), fun hb hu => ?_⟩, h.fixed,
    fun i hi => h.full i ((hkeeps i).1 hi), fun i hi => h.bare i (hi.trans_le hle)⟩
  rw [hown]
  exact h.covers hb hu

/-- The volume with the size that the root directory gets in the end. -/
def Img.volume (img : Img) (v : Volume) : Volume := v.setIno rootino (img.dinode rootino)

namespace Image

/-- After the entries of the root directory its block has zeros. -/
theorem root_named (h : Image (contents files) v img) (hroot : v.Keeps wide rootino)
    (hlen : files.length + 2 ≤ ninodes) {k : ℕ}
    (hk : direntSize * k + direntSize ≤ blocksOf (contents files rootino).length * bsize) :
    le (fun x => v.byteAt rootino (direntSize * k + x)) 0 2 < ninodes := by
  have hold := h.holds rootino hroot
  have hlength := length_root files
  by_cases hlt : k < (rootDirents files).length
  · have hbytes : le (fun x => v.byteAt rootino (direntSize * k + x)) 0 2 =
        le (leByte (rootDirents files)[k].inum) 0 2 := by
      refine le_congr fun x hx => ?_
      have hx' : 0 + x < direntSize := by unfold direntSize; omega
      have ho : direntSize * k + (0 + x) < (contents files rootino).length := by
        rw [length_rootDirents] at hlt
        unfold direntSize at *
        omega
      rw [hold.byte _ ho, contents_root, getD_flatMap_direntBytes _ hlt hx', getD_direntBytes _ hx',
        direntByte, if_pos (by omega)]
    rw [hbytes, le_leByte]
    exact (Nat.mod_le ..).trans_lt ((mem_rootDirents (List.getElem_mem hlt)).2.1.trans_le hlen)
  · have hzero : le (fun x => v.byteAt rootino (direntSize * k + x)) 0 2 = le (fun _ => 0) 0 2 := by
      refine le_congr fun x hx => hold.pad _ ?_ ?_ <;>
      · rw [length_rootDirents] at hlt
        unfold direntSize at *
        omega
    rw [hzero]
    decide

theorem volume_ino (h : Image C v img) (hi : i < wide.ninodes) :
    (img.volume v).ino i = img.dinode i := by
  by_cases hr : i = rootino
  · rw [hr, Img.volume, Volume.setIno_ino_self]
  · rw [Img.volume, Volume.setIno_ino_of_ne v hr, h.ino i hi hr]

theorem keeps_of_volume (hroot : v.Keeps wide rootino) (hi : (img.volume v).Keeps wide i) :
    v.Keeps wide i := by
  by_cases hr : i = rootino
  · exact hr ▸ hroot
  · rwa [Volume.Keeps, Img.volume, Volume.setIno_ino_of_ne v hr] at hi

theorem ok (h : Image (contents files) v img) (hroot : v.Keeps wide rootino)
    (hfree : img.freeinode = files.length + 2) (hlen : files.length + 2 ≤ ninodes)
    (hne : (files.length + 2) % (bsize / direntSize) ≠ 0) : (img.volume v).Ok sb := by
  have hold := h.holds rootino hroot
  have hsize : (img.dinode rootino).size.toNat = blocksOf (contents files rootino).length * bsize := by
    have hper : bsize / direntSize = 32 := rfl
    rw [h.root_size (hlen.trans (by decide)), length_root]
    unfold blocksOf direntSize bsize at *
    omega
  have hd : { v.ino rootino with size := (img.dinode rootino).size } = img.dinode rootino := by
    rw [h.root]
  have hbase := h.base.resize hroot
    (hsize ▸ hold.has.mapped_blocks (blocksOf_le (hold.length_le h.base hroot)))
  rw [hd] at hbase
  refine ⟨base_narrow hbase fun i hi => ?_, fun i hi ht k hk => ?_⟩
  · have := ((h.keeps i hi.1).1 (keeps_of_volume hroot hi)).2
    omega
  have hi' : (img.volume v).Keeps wide i := ⟨hi.1.trans_le (by decide), hi.2⟩
  rw [h.volume_ino hi'.1] at ht hk
  rw [h.type_eq (keeps_of_volume hroot hi')] at ht
  split_ifs at ht with hr
  · subst hr
    have hbyte : (img.volume v).byteAt rootino = v.byteAt rootino := by
      funext o
      rw [Img.volume, ← hd]
      cases hslot : slotOf (o / bsize) <;>
        simp [Volume.byteAt, Volume.ptr, Volume.setIno, Dinode.ptr, hslot]
    rw [hbyte]
    exact h.root_named hroot hlen (hsize ▸ hk)
  · cases ht

end Image

/-- An image of `mkfs` is a consistent disk, unless the entries of the root directory end with a block. -/
theorem mkfs_consistent (files : List HostFile) (img : Img) (hmain : main files Img.zero = .ok () img)
    (hlen : files.length + 2 ≤ ninodes) (hne : (files.length + 2) % (bsize / direntSize) ≠ 0) :
    Consistent img.blk := by
  have hrun : wp (main files) _ (fun _ _ => ¬ False) Img.zero :=
    main_rule (hlen.trans (by decide)) nofun nofun
  obtain ⟨hfree, v, h⟩ := wp_ok hrun hmain
  have hroot : v.Keeps wide rootino := by
    rw [h.keeps _ (by decide), hfree]
    unfold rootino
    omega
  have hsuper : superblockOf (img.blk 1) = sb := by
    rw [h.super, superblockOf_sbByte]
  have hon : On img (boot img.blk) := ⟨rfl, hsuper, rfl⟩
  have hagree : Volume.Agree sb (img.volume v) (boot img.blk).volume := by
    refine ⟨fun b hb => ?_, fun i hi => ?_, fun b hb => (h.shows.data b hb.1).symm⟩
    · show bit (img.blk ((superblockOf (img.blk 1)).bblock b)) (b % bpb) = v.used b
      rw [hsuper, h.shows.used]
      exact h.bitmap b (hb.trans (by decide))
    · exact (hon.dinode i).trans (h.volume_ino (hi.trans (by decide))).symm
  exact ⟨hsuper ▸ by constructor <;> decide, hsuper ▸ hagree.ok (h.ok hroot hfree hlen hne)⟩

theorem mkfs_consistent_greeting : ∃ img, main [greeting] Img.zero = .ok () img ∧
    Consistent img.blk := by
  obtain ⟨img, -, hmain, -⟩ := main_returns greeting_accepted
  exact ⟨img, hmain, mkfs_consistent [greeting] img hmain (by decide) (by decide)⟩

end Xv6.Mkfs

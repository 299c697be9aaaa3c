import Xv6Cow.Fs.Books

/-!
# Reading a directory

The bytes of a directory are records of 16 bytes, and the loops of `dirlookup` and `dirlink` go
through the list of them from any record on.  What is left behind the last whole record makes both
panic.
-/

namespace Xv6.Blocks

open Bytes Lts Prog
open Names (Name Dirent namecmp scan)

variable {sb : Superblock} {v v' : Volume} {D : ℕ → Dinode} {s : Fs} {dp : Iptr} {i k n off fuel : ℕ}
  {name : Name} {msg : String} {E : Stop → Fs → Prop}

/-- The first `n` records of the file. -/
def Fs.records (s : Fs) (dp : Iptr) (n : ℕ) : List (List UInt8) :=
  (List.range n).map fun k => s.bytes dp (direntSize * k) direntSize

@[simp] theorem Fs.length_records : (s.records dp n).length = n := by simp [Fs.records]

/-- The number of whole records in `size` bytes. -/
def recordsIn (size : UInt32) : ℕ := size.toNat / direntSize

theorem recordsIn_le (size : UInt32) : direntSize * recordsIn size ≤ size.toNat := Nat.mul_div_le ..

/-! ## The loops -/

/-- The cached inode has no holes in its first `n` records. -/
structure Fs.Readable (s : Fs) (dp : Iptr) (n : ℕ) : Prop where
  device : (s.icache dp).type ≠ tDev
  reading : s.hist.reading = false
  size : direntSize * n ≤ (s.icache dp).size.toNat
  mapped : s.Mapped dp (direntSize * n)

theorem readDirent_found (h : s.Readable dp n) (hk : k < n) :
    wp (readDirent dp (direntSize * k) msg)
      (fun e t => t = s ∧ e = direntOf (s.bytes dp (direntSize * k) direntSize)) E s := by
  have hend : direntSize * k + direntSize ≤ direntSize * n := Nat.mul_le_mul_left direntSize hk
  simp only [readDirent, wp_bind]
  refine wp_imp (readi_found h.device h.reading (hend.trans h.size)
    fun bn hbn => h.mapped bn (by omega)) ?_
  rintro _ t ⟨rfl, rfl⟩
  have hlength : (t.bytes dp (direntSize * k) direntSize).length = direntSize := by simp [Fs.bytes]
  simp only [hlength, if_true, wp_pure]
  exact ⟨trivial, trivial⟩

section

variable (h : s.Readable dp n) (hk : k ≤ n) (hfuel : n < k + fuel)

include h hk hfuel

/-- `dirlookup` from record `k` on: it stops at the first entry of the name, or goes on behind the
records. -/
theorem dirScan_rule {Q : Option (ℕ × Iptr) → Fs → Prop}
    (hsome : ∀ m inum, scan name (((s.records dp n).drop k).map direntOf) = some (m, inum) →
      wp (iget (s.icache dp).dev inum) (fun ip t => Q (some (direntSize * (k + m), ip)) t) E s)
    (hnone : scan name (((s.records dp n).drop k).map direntOf) = none →
      ∀ fuel, wp (dirScan dp name (fuel + 1) (direntSize * n)) Q E s) :
    wp (dirScan dp name fuel (direntSize * k)) Q E s := by
  induction fuel generalizing k with
  | zero => omega
  | succ fuel ih =>
    rcases Nat.eq_or_lt_of_le hk with rfl | hlt
    · rw [List.drop_of_length_le (by simp)] at hnone
      exact hnone rfl fuel
    have hcons : ((s.records dp n).drop k).map direntOf =
        direntOf (s.bytes dp (direntSize * k) direntSize) ::
          ((s.records dp n).drop (k + 1)).map direntOf := by
      rw [List.drop_eq_getElem_cons (by simpa using hlt), List.map_cons]
      simp [Fs.records]
    have hoff : direntSize * k < (s.icache dp).size.toNat :=
      (Nat.mul_lt_mul_of_pos_left hlt (by decide)).trans_le h.size
    rw [hcons] at hsome hnone
    simp only [dirScan, wp_bind, wp_get, hoff, if_true]
    refine wp_imp (readDirent_found h hlt) ?_
    rintro _ _ ⟨rfl, rfl⟩
    simp only [scan] at hsome hnone
    split_ifs at hsome hnone ⊢ with hhit
    · simp only [wp_bind, wp_get, wp_pure]
      exact hsome 0 _ rfl
    rw [← Nat.mul_succ]
    refine ih hlt (by omega) (fun m inum hm => ?_) fun hm => hnone (by rw [hm]; rfl)
    have := hsome (m + 1) inum (by rw [hm]; rfl)
    rwa [← Nat.add_assoc, Nat.add_right_comm] at this

/-- `dirlink` looks for the first record that is not in use. -/
theorem emptyScan_rule (hsize : (s.icache dp).size.toNat = direntSize * n) :
    wp (emptyScan dp fuel (direntSize * k)) (fun o t => t = s ∧ o = direntSize *
      (k + ((s.records dp n).drop k).findIdx fun bs => (direntOf bs).inum = 0)) E s := by
  induction fuel generalizing k with
  | zero => omega
  | succ fuel ih =>
    simp only [emptyScan, wp_run, hsize]
    rcases Nat.eq_or_lt_of_le hk with rfl | hlt
    · rw [if_neg (Nat.lt_irrefl _), List.drop_of_length_le (by simp)]
      exact ⟨trivial, rfl⟩
    have hcons : (s.records dp n).drop k =
        s.bytes dp (direntSize * k) direntSize :: (s.records dp n).drop (k + 1) := by
      rw [List.drop_eq_getElem_cons (by simpa using hlt)]
      simp [Fs.records]
    rw [if_pos (Nat.mul_lt_mul_of_pos_left hlt (by decide)), hcons, List.findIdx_cons]
    refine wp_imp (readDirent_found h hlt) ?_
    rintro _ _ ⟨rfl, rfl⟩
    split
    · next hzero => simp [hzero]
    next hzero =>
    rw [← Nat.mul_succ]
    refine wp_imp (ih hlt (by omega)) ?_
    rintro _ _ ⟨rfl, rfl⟩
    simp [hzero, Nat.add_assoc, Nat.add_comm 1]

end

theorem iget_inum (dev inum : ℕ) : wp (iget dev inum) (fun ip t => (t.icache ip).inum = inum)
      (fun e t => e = .panic "iget: no inodes" ∧ t = s) s := by
  simp only [iget, wp_run]
  split
  · next ip hfind =>
    have hip := List.find?_some hfind
    simp only [decide_eq_true_eq] at hip
    simp only [wp_run, Fs.setHandle, Fs.setInode_icache_self]
    exact hip.2.2
  · split
    · exact ⟨rfl, rfl⟩
    · simp only [wp_run, Fs.setHandle, Fs.setInode_icache_self]

/-! ## The records of a volume -/

/-- The records of file `i`. -/
def Volume.records (v : Volume) (i : ℕ) : List (List UInt8) :=
  (List.range (recordsIn (v.ino i).size)).map fun k => v.bytes i (direntSize * k) direntSize

/-- The entries of directory `i`. -/
def Volume.entries (v : Volume) (i : ℕ) : List Dirent := (v.records i).map direntOf

@[simp] theorem Volume.length_records : (v.records i).length = recordsIn (v.ino i).size := by
  simp [Volume.records]

section

variable (h : Rep sb v D s) (hv : v.Base sb) (hi : v.Keeps sb i) (hc : (s.icache dp).Caches i)

include h hv hi hc

theorem Rep.records_eq : s.records dp (recordsIn (v.ino i).size) = v.records i := by
  refine List.map_congr_left fun k hk => h.cached_bytes hv hi hc ?_
  have hle := recordsIn_le (v.ino i).size
  have hend := Nat.mul_le_mul_left direntSize (List.mem_range.1 hk)
  rw [Nat.mul_succ] at hend
  omega

theorem Rep.readable (hr : s.hist.reading = false) : s.Readable dp (recordsIn (v.ino i).size) := by
  have hcopy := h.copy dp i hc
  have hle := recordsIn_le (v.ino i).size
  refine ⟨?_, hr, ?_, fun bn hbn => h.cached_mapped hv hi hc bn (by omega)⟩
  · rw [hcopy]
    exact hi.2.2
  · rw [hcopy]
    exact hle

/-- `dirlookup` returns what the entries of the directory say.  It panics behind them if bytes are
left there. -/
theorem dirlookup_rule (hr : s.hist.reading = false) (hdir : (v.ino i).type = tDir)
    {Q : Option (ℕ × Iptr) → Fs → Prop}
    (hsome : ∀ m inum, scan name (v.entries i) = some (m, inum) →
      wp (iget (s.icache dp).dev inum) (fun ip t => Q (some (direntSize * m, ip)) t) E s)
    (hnone : scan name (v.entries i) = none → Q none s)
    (hleft : (v.ino i).size.toNat % direntSize ≠ 0 → ∀ e t, E e t) :
    wp (dirlookup dp name) Q E s := by
  have hcopy := h.copy dp i hc
  have htype : (s.icache dp).type = tDir := (congrArg Dinode.type hcopy).trans hdir
  have hsize : (s.icache dp).size = (v.ino i).size := congrArg Dinode.size hcopy
  have hrec := h.records_eq hv hi hc
  simp only [dirlookup, wp_run, htype, ne_eq, not_true_eq_false, hsize]
  refine dirScan_rule (k := 0) (h.readable hv hi hc hr) (Nat.zero_le _)
    (by unfold recordsIn dirRounds; omega) (fun m inum hm => ?_) fun hm fuel => ?_
  · rw [List.drop_zero, hrec] at hm
    rw [Nat.zero_add]
    exact hsome m inum hm
  rw [List.drop_zero, hrec] at hm
  simp only [dirScan, wp_run, hsize]
  split
  · next hlt =>
    have hne : (v.ino i).size.toNat % direntSize ≠ 0 := by
      unfold recordsIn direntSize at *
      omega
    simp only [readDirent, wp_bind]
    refine wp_mono (readi_file h hv hi hc hr _ _) ?_ fun e t _ => hleft hne e t
    rintro (_ | bs) t ⟨rfl, hbs⟩
    · exact hleft hne _ _
    have hend := (hbs bs rfl).2
    rw [wp_ite, if_neg ?_]
    · exact hleft hne _ _
    · unfold recordsIn direntSize at *
      omega
  · exact hnone hm

end

theorem Volume.getElem?_records (v : Volume) (i k : ℕ) : (v.records i)[k]? =
    if k < recordsIn (v.ino i).size then some (v.bytes i (direntSize * k) direntSize) else none := by
  split_ifs with hk
  · simp [Volume.records, hk]
  · simp [hk]

/-- The records after a write to record `m`, which may be the first one behind the last. -/
theorem Volume.Put.records {m : ℕ} {bs : List UInt8} (h : v.Put v' i (direntSize * m) bs)
    (hbs : bs.length = direntSize) (hwhole : (v.ino i).size.toNat % direntSize = 0)
    (hm : m ≤ recordsIn (v.ino i).size) : (v'.ino i).size.toNat % direntSize = 0 ∧
      v'.records i = (v.records i).take m ++ bs :: (v.records i).drop (m + 1) := by
  have hsize := h.size
  have hlen : recordsIn (v'.ino i).size = max (recordsIn (v.ino i).size) (m + 1) := by
    unfold recordsIn at *
    rw [hsize, hbs]
    unfold direntSize at *
    omega
  have hnew : v'.bytes i (direntSize * m) direntSize = bs := by
    refine List.ext_getElem (by simp [Volume.bytes, hbs]) fun x _ hx => ?_
    simp only [Volume.bytes, List.getElem_map, List.getElem_range]
    rw [h.new (by omega) (by omega), Nat.add_sub_cancel_left, List.getD_eq_getElem _ _ hx]
  have hold : ∀ k, k ≠ m → k < recordsIn (v.ino i).size →
      v'.bytes i (direntSize * k) direntSize = v.bytes i (direntSize * k) direntSize := by
    intro k hkm hk
    refine List.map_congr_left fun x hx => h.kept ?_ ?_
    · have := List.mem_range.1 hx
      unfold recordsIn direntSize at *
      omega
    have := List.mem_range.1 hx
    rw [hbs]
    unfold direntSize at *
    omega
  refine ⟨?_, List.ext_getElem? fun k => ?_⟩
  · rw [hsize, hbs]
    unfold direntSize at *
    omega
  have htake : ((v.records i).take m).length = m := by simpa using hm
  rw [v'.getElem?_records, hlen]
  rcases lt_trichotomy k m with hk | rfl | hk
  · rw [List.getElem?_append_left (by omega), List.getElem?_take_of_lt hk, v.getElem?_records,
      if_pos (by omega), if_pos (by omega), hold k hk.ne (by omega)]
  · rw [List.getElem?_append_right htake.le, htake, Nat.sub_self, if_pos (by omega), hnew]
    rfl
  have hsucc : k - m = k - m - 1 + 1 := by omega
  have hidx : m + 1 + (k - m - 1) = k := by omega
  rw [List.getElem?_append_right (by omega), htake, hsucc, List.getElem?_cons_succ,
    List.getElem?_drop, v.getElem?_records, hidx]
  by_cases hlt : k < recordsIn (v.ino i).size
  · rw [if_pos (by omega), if_pos hlt, hold k hk.ne' hlt]
  · rw [if_neg (by omega), if_neg hlt]

end Xv6.Blocks

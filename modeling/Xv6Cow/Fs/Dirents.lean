import Xv6Cow.Fs.MkfsKernel
import Xv6Cow.Fs.Tree

/-!
# Directories as maps on names (`fs.c`, `string.c`)

The names in directory entries are 14 bytes, with a NUL only behind a shorter name.  `strncmp`,
`strncpy` and `skipelem` each cut a name in their own way.  On the blocks, `dirlookup`, `dirlink` and
the write of `unlink` do to the entries of a directory what the model of `Names` does to its lists,
and a list made so is a finite map.
-/

namespace Xv6.Dirents

open Bytes Blocks Lts Prog
open Names (Name Dirent dirsiz scan putEntry)

/-! ## Names in C -/

/-- The bytes from an address on. -/
abbrev Ptr := ℕ → UInt8

/-- `p++`. -/
def next (p : Ptr) : Ptr := fun i => p (i + 1)

/-- The bytes of a buffer; behind them a NUL. -/
def str (l : List UInt8) : Ptr := fun i => l.getD i 0

def strncmp (p q : Ptr) : ℕ → ℤ
  | 0 => 0
  | n + 1 =>
    if p 0 ≠ 0 ∧ p 0 = q 0 then strncmp (next p) (next q) n else (p 0).toNat - (q 0).toNat

/-- The `n` bytes that `strncpy` stores: the second loop fills up with zeros. -/
def strncpy (t : Ptr) : ℕ → List UInt8
  | 0 => []
  | n + 1 => t 0 :: if t 0 ≠ 0 then strncpy (next t) n else List.replicate n 0

def namecmp (s t : Ptr) : ℤ := strncmp s t dirsiz

/-- The byte of `/`. -/
def slash : UInt8 := 47

/-- The first element of a path. -/
def elem (path : List UInt8) : List UInt8 := (path.dropWhile (· == slash)).takeWhile (· != slash)

/-- `skipelem` with what the buffer `name` held. -/
def skipelem (path : List UInt8) (name : Ptr) : Option (Ptr × List UInt8) :=
  if path.dropWhile (· == slash) = [] then none
  else
    let s := elem path
    some (fun i => if i < min s.length dirsiz then str s i
        else if s.length < dirsiz ∧ i = s.length then 0 else name i,
      ((path.dropWhile (· == slash)).dropWhile (· != slash)).dropWhile (· == slash))

/-- The first `n` bytes up to the first NUL. -/
def key (p : Ptr) (n : ℕ) : List UInt8 := ((List.range n).map p).takeWhile (· != 0)

section Key

variable {p q : Ptr} {n : ℕ}

theorem key_succ (p : Ptr) (n : ℕ) :
    key p (n + 1) = if p 0 = 0 then [] else p 0 :: key (next p) n := by
  rw [key, List.range_succ_eq_map, List.map_cons, List.map_map, List.takeWhile_cons]
  by_cases h : p 0 = 0
  · simp [h]
  · simp only [h, if_false, bne_iff_ne, ne_eq, not_false_eq_true, if_true]
    rfl

theorem strncmp_eq_zero : strncmp p q n = 0 ↔ key p n = key q n := by
  induction n generalizing p q with
  | zero => simp [strncmp, key]
  | succ n ih =>
    rw [key_succ, key_succ, strncmp]
    by_cases heq : p 0 = q 0
    · by_cases h0 : q 0 = 0
      · simp [heq, h0]
      · simp [heq, h0, ih]
    have hne : ((p 0).toNat : ℤ) - (q 0).toNat ≠ 0 := fun h =>
      heq (UInt8.toNat_inj.1 (by omega))
    simp only [heq, and_false, if_false, hne, false_iff]
    split_ifs with h1 h2 h2
    · exact absurd (h1.trans h2.symm) heq
    · nofun
    · nofun
    · simp [heq]

theorem key_strncpy (p : Ptr) (n : ℕ) : key (str (strncpy p n)) n = key p n := by
  induction n generalizing p with
  | zero => rfl
  | succ n ih =>
    rw [key_succ, key_succ, strncpy]
    by_cases h : p 0 = 0
    · simp [str, h]
    · rw [if_pos h, ← ih (next p)]
      rfl

theorem strncpy_eq (p : Ptr) (n : ℕ) :
    strncpy p n = key p n ++ List.replicate (n - (key p n).length) 0 := by
  induction n generalizing p with
  | zero => rfl
  | succ n ih =>
    rw [key_succ, strncpy]
    by_cases h : p 0 = 0
    · simp [h, List.replicate_succ]
    · rw [if_pos h, if_neg h, ih (next p), List.length_cons, Nat.succ_sub_succ, List.cons_append]

theorem key_of_bytes {l : List UInt8} (hl : 0 ∉ l) (hn : l.length ≤ n)
    (hp : ∀ i < l.length, p i = str l i) (hend : l.length < n → p l.length = 0) : key p n = l := by
  induction n generalizing p l with
  | zero =>
    obtain rfl := List.eq_nil_of_length_eq_zero (Nat.le_zero.1 hn)
    rfl
  | succ n ih =>
    rw [key_succ]
    cases l with
    | nil => exact if_pos (hend (Nat.succ_pos n))
    | cons b l =>
      have hb : p 0 = b := hp 0 (Nat.succ_pos _)
      rw [List.mem_cons, not_or] at hl
      have htail : key (next p) n = l := by
        refine ih hl.2 (Nat.le_of_succ_le_succ hn) (fun i hi => ?_) fun hlt => ?_
        · exact hp (i + 1) (Nat.succ_lt_succ hi)
        · exact hend (Nat.succ_lt_succ hlt)
      rw [hb, if_neg (Ne.symm hl.1), htail]

theorem str_take {l : List UInt8} {i : ℕ} (h : i < n) : str (l.take n) i = str l i := by
  rw [str, str, List.getD_eq_getElem?_getD, List.getD_eq_getElem?_getD, List.getElem?_take_of_lt h]

/-- What `skipelem` leaves in `name` is the element cut to `DIRSIZ`, for every length. -/
theorem key_skipelem {path rest : List UInt8} {old name : Ptr} (hnul : 0 ∉ path)
    (h : skipelem path old = some (name, rest)) : key name dirsiz = (elem path).take dirsiz := by
  unfold skipelem at h
  split_ifs at h
  cases h
  have hmem : 0 ∉ (elem path).take dirsiz := fun h0 =>
    hnul ((List.dropWhile_suffix _).subset ((List.takeWhile_prefix _).subset (List.mem_of_mem_take h0)))
  refine key_of_bytes hmem (List.length_take_le _ _) (fun i hi => ?_) fun hlt => ?_
  · rw [List.length_take, min_comm] at hi
    show (if i < min (elem path).length dirsiz then str (elem path) i else _) = _
    rw [if_pos hi, str_take (by omega)]
  rw [List.length_take] at hlt ⊢
  have hshort : (elem path).length < dirsiz := by omega
  rw [min_eq_right hshort.le]
  show (if _ < min (elem path).length dirsiz then _ else _) = _
  rw [if_neg (by omega), if_pos ⟨hshort, rfl⟩]

theorem key_str {l : List UInt8} (hl : 0 ∉ l) : key (str l) dirsiz = l.take dirsiz := by
  refine key_of_bytes (fun h0 => hl (List.mem_of_mem_take h0)) (List.length_take_le _ _)
    (fun i hi => ?_) fun hlt => ?_
  · rw [List.length_take] at hi
    rw [str_take (by omega)]
  · rw [List.length_take] at hlt ⊢
    rw [str, List.getD_eq_getElem?_getD, List.getElem?_eq_none (by omega)]
    rfl

end Key

/-! ## Names in entries -/

/-- The name that a pointer is to. -/
def nameOf (p : Ptr) : Name := (key p dirsiz).map fun b => Char.ofNat b.toNat

section Name

variable {p q : Ptr}

theorem length_key (p : Ptr) (n : ℕ) : (key p n).length ≤ n := by
  have := (List.takeWhile_prefix (· != (0 : UInt8)) (l := (List.range n).map p)).length_le
  rwa [List.length_map, List.length_range] at this

theorem take_nameOf (p : Ptr) : (nameOf p).take dirsiz = nameOf p := by
  refine List.take_of_length_le ?_
  rw [nameOf, List.length_map]
  exact length_key p dirsiz

theorem namecmp_nameOf : Names.namecmp (nameOf p) (nameOf q) = true ↔ key p dirsiz = key q dirsiz := by
  rw [Names.namecmp, beq_iff_eq, take_nameOf, take_nameOf, nameOf, nameOf, Mkfs.map_char_inj]

theorem plain_nameOf (p : Ptr) : Mkfs.Plain (nameOf p) := by
  intro c hc
  obtain ⟨b, hb, rfl⟩ := List.mem_map.1 hc
  have hne : b ≠ 0 := by simpa using List.mem_takeWhile_imp hb
  rw [Mkfs.toNat_char]
  exact ⟨b.toNat_lt, fun h0 => hne (UInt8.toNat_inj.1 h0)⟩

/-- An entry has a name as `dirlookup` reads it, with no NUL behind 14 bytes. -/
theorem name_direntOf {bs : List UInt8} (h : bs.length = direntSize) :
    (direntOf bs).name = nameOf (str (bs.drop 2)) := by
  have hbytes : (List.range dirsiz).map (str (bs.drop 2)) = bs.drop 2 := by
    refine List.ext_getElem ?_ fun i _ hi => ?_
    · simp [h, direntSize, dirsiz]
    · rw [List.getElem_map, List.getElem_range, str, List.getD_eq_getElem _ _ hi]
  rw [nameOf, key, hbytes, direntOf]
  simp only [bne, ne_eq, decide_not]
  rfl

/-- The bytes of an entry that `dirlink` writes are those of `strncpy`. -/
theorem drop_direntBytes_nameOf (inum : ℕ) (p : Ptr) :
    (direntBytes ⟨inum, nameOf p⟩).drop 2 = strncpy p dirsiz := by
  rw [Mkfs.drop_direntBytes, take_nameOf, strncpy_eq, nameOf, List.length_map, List.map_map]
  congr 1
  conv_rhs => rw [← List.map_id (key p dirsiz)]
  refine List.map_congr_left fun b _ => ?_
  rw [Function.comp_apply, Mkfs.toNat_char, UInt8.ofNat_toNat]
  rfl

end Name

/-! ## Lists of entries -/

/-- No two live entries have equal names. -/
def Distinct (es : List Dirent) : Prop :=
  es.Pairwise fun a b => a.inum ≠ 0 → b.inum ≠ 0 → Names.namecmp a.name b.name = false

/-- The entry that `dirlink` writes. -/
def slot (es : List Dirent) : ℕ := es.findIdx (·.inum = 0)

section Entries

variable {es : List Dirent} {e d : Dirent} {name name' : Name} {m i : ℕ}

theorem namecmp_comm (a b : Name) : Names.namecmp a b = Names.namecmp b a := Bool.beq_comm

theorem namecmp_trans {a b c : Name} (h : Names.namecmp a b = true) :
    Names.namecmp a c = Names.namecmp b c := by
  rw [Names.namecmp, Names.namecmp, beq_iff_eq.1 h]

theorem scan_congr (h : Names.namecmp name name' = true) : scan name es = scan name' es := by
  induction es with
  | nil => rfl
  | cons e es ih => rw [scan, scan, namecmp_trans h, ih]

theorem scan_eq_none : scan name es = none ↔ ∀ e ∈ es, e.inum ≠ 0 →
    Names.namecmp name e.name = false := by
  induction es with
  | nil => simp [scan]
  | cons e es ih =>
    rw [scan, List.forall_mem_cons, ← ih]
    split_ifs with h
    · simp [h]
    · rw [not_and, Bool.not_eq_true] at h
      rw [Option.map_eq_none_iff, and_iff_right h]

theorem Distinct.putEntry (h : Distinct es) (hd : ∀ e ∈ es, e.inum ≠ 0 →
    Names.namecmp d.name e.name = false) :
    Distinct (putEntry d es) := by
  induction es with
  | nil => exact List.pairwise_singleton ..
  | cons a es ih =>
    obtain ⟨ha, hes⟩ := List.pairwise_cons.1 h
    rw [List.forall_mem_cons] at hd
    unfold Names.putEntry
    split_ifs with h0
    · exact List.pairwise_cons.2 ⟨fun b hb _ hb0 => hd.2 b hb hb0, hes⟩
    refine List.pairwise_cons.2 ⟨fun b hb ha0 hb0 => ?_, ih hes hd.2⟩
    rcases Names.mem_putEntry hb with rfl | hb
    · rw [namecmp_comm]
      exact hd.1 ha0
    · exact ha b hb ha0 hb0

/-- Other names keep their inodes and their offsets. -/
theorem scan_putEntry (hd : ∀ e ∈ es, e.inum ≠ 0 → Names.namecmp d.name e.name = false)
    (h0 : d.inum ≠ 0) : scan name (putEntry d es) =
      if Names.namecmp name d.name then some (slot es, d.inum) else scan name es := by
  induction es with
  | nil => simp [putEntry, scan, slot, h0]
  | cons a es ih =>
    rw [List.forall_mem_cons] at hd
    rw [putEntry, slot, List.findIdx_cons]
    by_cases ha : a.inum = 0
    · by_cases hk : Names.namecmp name d.name = true
      · simp [ha, scan, h0, hk]
      · simp [ha, scan, hk]
    rw [if_neg ha, scan, ih hd.2]
    by_cases hk : Names.namecmp name d.name = true
    · -- the live entry in front has another name
      rw [if_pos hk, if_pos hk, if_neg fun h => ?_]
      · simp [ha, slot]
      · rw [namecmp_trans hk, hd.1 ha] at h
        cases h.2
    · rw [if_neg hk, if_neg hk, scan]

theorem Distinct.set (h : Distinct es) (hd : d.inum = 0) (k : ℕ) : Distinct (es.set k d) := by
  induction es generalizing k with
  | nil => exact h
  | cons a es ih =>
    obtain ⟨ha, hes⟩ := List.pairwise_cons.1 h
    cases k with
    | zero => exact List.pairwise_cons.2 ⟨fun b _ h0 => absurd hd h0, hes⟩
    | succ k =>
      refine List.pairwise_cons.2 ⟨fun b hb ha0 hb0 => ?_, ih hes k⟩
      rcases List.mem_or_eq_of_mem_set hb with hb | rfl
      · exact ha b hb ha0 hb0
      · exact absurd hd hb0

theorem scan_set (h : Distinct es) (hl : scan name es = some (m, i)) (hd : d.inum = 0) :
    scan name' (es.set m d) = if Names.namecmp name' name then none else scan name' es := by
  induction es generalizing m with
  | nil => cases hl
  | cons a es ih =>
    obtain ⟨ha, hes⟩ := List.pairwise_cons.1 h
    rw [scan] at hl
    split_ifs at hl with hhit
    · cases hl
      rw [List.set_cons_zero, scan, if_neg fun h => h.1 hd, scan]
      by_cases hk : Names.namecmp name' name = true
      · -- another entry with the name would make two
        have hnone : scan name' es = none := by
          refine scan_eq_none.2 fun b hb hb0 => ?_
          rw [namecmp_trans hk, namecmp_trans hhit.2]
          exact ha b hb hhit.1 hb0
        rw [if_pos hk, hnone]
        rfl
      · rw [if_neg hk, if_neg fun h => hk ?_]
        rw [namecmp_comm, namecmp_trans hhit.2, namecmp_comm]
        exact h.2
    · obtain ⟨⟨m, i⟩, hrest, heq⟩ := Option.map_eq_some_iff.1 hl
      obtain ⟨rfl, rfl⟩ := Prod.mk.inj heq
      rw [List.set_cons_succ, scan, ih hes hrest, scan]
      by_cases hk : Names.namecmp name' name = true
      · rw [if_pos hk, if_neg fun h => hhit ⟨h.1, namecmp_trans hk ▸ h.2⟩, if_pos hk]
        rfl
      · rw [if_neg hk, if_neg hk]

theorem putEntry_eq (d : Dirent) (es : List Dirent) :
    putEntry d es = es.take (slot es) ++ d :: es.drop (slot es + 1) := by
  induction es with
  | nil => rfl
  | cons a es ih =>
    rw [putEntry, slot, List.findIdx_cons]
    by_cases ha : a.inum = 0
    · simp [ha]
    · rw [if_neg ha, ih]
      simp [ha, slot]

end Entries

/-! ## A directory on the blocks -/

/-- Inode `dp` of the cache is a directory of whole entries, on blocks that represent a volume. -/
structure Directory (sb : Superblock) (v : Volume) (dp : Iptr) (s : Fs) : Prop where
  laid : sb.Laid
  rep : Rep sb v v.ino s
  base : v.Base sb
  lt : ∀ ip i, (s.icache ip).Caches i → i < sb.ninodes
  cached : (s.icache dp).Caches (s.icache dp).inum
  dir : (v.ino (s.icache dp).inum).type = tDir
  whole : (v.ino (s.icache dp).inum).size.toNat % direntSize = 0
  out : 1 ≤ s.outstanding
  reading : s.hist.reading = false

/-- Inode `dp` of the cache is such a directory. -/
def IsDir (dp : Iptr) (s : Fs) : Prop := ∃ sb v, Directory sb v dp s

/-- The entries that the blocks of the cached inode hold. -/
def entries (s : Fs) (dp : Iptr) : List Dirent :=
  (s.records dp (recordsIn (s.icache dp).size)).map direntOf

/-- Offset and inode of the entry with the name. -/
def finds (s : Fs) (dp : Iptr) (p : Ptr) : Option (ℕ × ℕ) :=
  (scan (nameOf p) (entries s dp)).map fun x => (direntSize * x.1, x.2)

/-- The calls on a directory stop if the inode cache, the log or the disk is full. -/
def Short (e : Stop) (_ : Fs) : Prop :=
  e = .panic "iget: no inodes" ∨ e = .panic "too big a transaction" ∨ e = .panic "balloc: out of blocks"

section Directory

variable {sb : Superblock} {v : Volume} {s t : Fs} {dp ip : Iptr} {m : ℕ} {msg : String}

namespace Directory

section

variable (h : Directory sb v dp s)

include h

theorem keeps : v.Keeps sb (s.icache dp).inum := by
  refine ⟨h.lt dp _ h.cached, ?_, ?_⟩
  · rw [h.dir]
    decide
  · rw [h.dir]
    decide

theorem size_eq : (s.icache dp).size = (v.ino (s.icache dp).inum).size :=
  congrArg Dinode.size (h.rep.copy dp _ h.cached)

theorem entries_eq : entries s dp = v.entries (s.icache dp).inum := by
  rw [entries, h.size_eq, h.rep.records_eq h.base h.keeps h.cached]
  rfl

theorem length_le : (entries s dp).length ≤ Names.maxents := by
  rw [h.entries_eq, Volume.entries, List.length_map, Volume.length_records]
  have hfull := h.base.full _ h.keeps
  generalize (v.ino (s.icache dp).inum).size = size at hfull ⊢
  by_contra hlt
  have hmax : Names.maxents = 4480 := rfl
  have hlast := hfull maxfile ?_
  · exact Nat.lt_irrefl _ hlast.1
  · unfold recordsIn direntSize at hlt
    unfold maxfile ndirect nindirect bsize
    omega

theorem setHandle (ip : Iptr) (y : Handle) (hy : ∀ i, y.Caches i → (s.icache ip).Caches i)
    (hdp : ip = dp → y.Caches (s.icache dp).inum) : Directory sb v dp (s.setHandle ip y) ∧
      ((s.setHandle ip y).icache dp).inum = (s.icache dp).inum := by
  have hrep : Rep sb v v.ino (s.setHandle ip y) := by
    refine h.rep.setInode _ (fun i hi => h.rep.copy ip i (hy i hi)) fun i hi jp hj hc => ?_
    exact hj (h.rep.uniq jp ip i hc (hy i hi))
  have hlt : ∀ jp i, ((s.setHandle ip y).icache jp).Caches i → i < sb.ninodes := by
    intro jp i hc
    by_cases hj : jp = ip
    · rw [hj, Fs.setHandle, Fs.setInode_icache_self] at hc
      exact h.lt ip i (hy i hc)
    · rw [Fs.setHandle, Fs.setInode_icache_of_ne _ _ hj] at hc
      exact h.lt jp i hc
  have hself : ((s.setHandle ip y).icache dp).Caches (s.icache dp).inum := by
    by_cases hj : dp = ip
    · rw [hj, Fs.setHandle, Fs.setInode_icache_self]
      exact hj ▸ hdp hj.symm
    · rw [Fs.setHandle, Fs.setInode_icache_of_ne _ _ hj]
      exact h.cached
  have hinum := hself.2.2
  refine ⟨⟨h.laid, hrep, h.base, hlt, ?_, ?_, ?_, h.out, h.reading⟩, hinum⟩
  · rwa [hinum]
  · rw [hinum]
    exact h.dir
  · rw [hinum]
    exact h.whole

theorem recorded (hpos : 0 < (s.icache ip).ref) : Directory sb v dp (s.recorded ip) :=
  ⟨h.laid, h.rep.recorded hpos fun hval => h.lt ip _ ⟨hpos, hval, rfl⟩, h.base, h.lt, h.cached, h.dir,
    h.whole, h.out, h.reading⟩

end

/-- A directory that a call has locked. -/
theorem of_at {K : Volume → Led → Prop} {c : Ctx} (h : At True K sb c s) (hi : (dp, tDir) ∈ c.locks)
    (ho : 1 ≤ c.out) (hwhole : (s.icache dp).size.toNat % direntSize = 0) : IsDir dp s := by
  obtain ⟨v, hv, -⟩ := h.content trivial
  have hc := h.caches_of_lock hi
  refine ⟨sb, v, hv.laid, hv.rep, hv.ok.toBase, fun ip i hip => hip.2.2 ▸ hv.lt ip hip.1, hc,
    hv.type_of_lock h hi, ?_, h.outstanding ▸ ho, h.ledger.reading⟩
  rw [← hv.rep.copy dp _ hc]
  exact hwhole

end Directory

/-- An inode just got is not freed by `iput`. -/
structure Spare (x : Handle) : Prop where
  pos : 0 < x.ref
  valid : x.valid = true → 1 < x.ref

theorem iget_keeps (h : Directory sb v dp s) (dev inum : ℕ) :
    wp (iget dev inum) (fun ip t => (Directory sb v dp t ∧ (t.icache dp).inum = (s.icache dp).inum) ∧
      (t.icache ip).inum = inum ∧ Spare (t.icache ip).toHandle) Short s := by
  simp only [iget, wp_run]
  split
  · next ip hfind =>
    have hip := List.find?_some hfind
    simp only [decide_eq_true_eq] at hip
    have hset := h.setHandle ip { (s.icache ip).toHandle with ref := (s.icache ip).ref + 1 }
      (fun i hi => ⟨hip.1, hi.2⟩) fun hd => hd ▸
      ⟨Nat.succ_pos _, (hd ▸ h.cached : (s.icache ip).Caches _).2⟩
    simp only [wp_run]
    refine ⟨hset, ?_⟩
    simp only [Fs.setHandle, Fs.setInode_icache_self]
    exact ⟨hip.2.2, Nat.succ_pos _, fun _ => Nat.succ_lt_succ hip.1⟩
  · split
    · exact .inl rfl
    next ip hfind =>
    have hzero : (s.icache ip).ref = 0 := by simpa using List.find?_some hfind
    simp only [wp_run]
    refine ⟨h.setHandle _ _ (fun i hi => absurd hi.2.1 Bool.false_ne_true) fun hd => ?_, ?_⟩
    · have := h.cached.1
      rw [← hd] at this
      omega
    · simp only [Fs.setHandle, Fs.setInode_icache_self]
      exact ⟨trivial, Nat.one_pos, by simp⟩

theorem iput_keeps (h : Directory sb v dp s) (hip : Spare (s.icache ip).toHandle) :
    wp (iput ip) (fun _ t => Directory sb v dp t ∧ (t.icache dp).inum = (s.icache dp).inum)
      (fun e _ => e = .sleeps) s := by
  simp only [iput, acquiresleep, wp_run]
  split
  · trivial
  obtain ⟨hu, hinum⟩ := h.setHandle ip { (s.icache ip).toHandle with locked := true }
    (fun i hi => hi) fun hd => hd ▸ h.cached
  have hself : (s.setHandle ip { (s.icache ip).toHandle with locked := true }).icache ip =
      { s.icache ip with locked := true } := Fs.setInode_icache_self ..
  generalize hus : s.setHandle ip _ = u at *
  have hspare : Spare (u.icache ip).toHandle := hself ▸ ⟨hip.pos, hip.valid⟩
  rw [if_neg fun hcond => (hspare.valid hcond.1).ne' hcond.2.2]
  refine releaseDrop (P := fun t => Directory sb v dp t ∧ (t.icache dp).inum = (s.icache dp).inum) ?_
  rw [← hinum]
  refine (hu.recorded hspare.pos).setHandle _ _ (fun i hi => ⟨hspare.pos, hi.2⟩) fun hd => ?_
  have hc := hu.cached
  rw [← hd] at hc ⊢
  exact ⟨Nat.sub_pos_of_lt (hspare.valid hc.2.1), hc.2⟩

theorem writeDirent_puts (h : Directory sb v dp s) (hm : m ≤ (entries s dp).length)
    (hroom : m < Names.maxents)
    (e : Dirent) : wp (writeDirent dp (direntSize * m) e msg) (fun _ t => IsDir dp t ∧
      entries t dp = (entries s dp).take m ++ direntOf (direntBytes e) :: (entries s dp).drop (m + 1))
      Short s := by
  have hdev : (s.icache dp).type ≠ tDev := by
    rw [show (s.icache dp).type = tDir from (congrArg Dinode.type
      (h.rep.copy dp _ h.cached)).trans h.dir]
    decide
  have hle : m ≤ recordsIn (v.ino (s.icache dp).inum).size := by
    rwa [h.entries_eq, Volume.entries, List.length_map, Volume.length_records] at hm
  have hoff : direntSize * m ≤ (v.ino (s.icache dp).inum).size.toNat :=
    (Nat.mul_le_mul_left _ hle).trans (recordsIn_le _)
  have hend : direntSize * m + (direntBytes e).length ≤ maxfile * bsize := by
    rw [Volume.length_direntBytes, ← Nat.mul_succ]
    exact (Nat.mul_le_mul_left direntSize hroom).trans (by decide)
  have hwrite := wp_and (writei_file h.rep h.laid h.base h.keeps h.cached h.out h.reading
    (direntBytes e)
    (direntSize * m)) (writei_led hdev (direntBytes e) (direntSize * m))
  simp only [writeDirent, wp_bind]
  refine wp_mono hwrite ?_ ?_
  · rintro r t ⟨⟨v', hrep, ⟨hbase, -⟩, ⟨hre, hled⟩, hput⟩, -⟩
    obtain ⟨rfl, hnew⟩ := hput hoff hend
    rw [Volume.length_direntBytes]
    simp only [ne_eq, not_true_eq_false, if_false, wp_pure]
    have hinum : (t.icache dp).inum = (s.icache dp).inum :=
      congrArg Handle.inum (congrFun (congrArg Led.icache hled) dp)
    obtain ⟨hwhole, hrecords⟩ := hnew.records (Volume.length_direntBytes e) h.whole hle
    have hdir : Directory sb v' dp t := by
      refine ⟨h.laid, hrep, hbase, fun ip i hc => h.lt ip i (hc.of_led hled.symm), ?_, ?_, ?_, ?_, ?_⟩
      · rw [hinum]
        exact h.cached.of_led hled
      · rw [hinum, hre.type]
        exact h.dir
      · rw [hinum]
        exact hwhole
      · exact h.out.trans_eq (congrArg Led.outstanding hled).symm
      · exact (congrArg Led.reading hled).trans h.reading
    refine ⟨⟨sb, v', hdir⟩, ?_⟩
    rw [hdir.entries_eq, hinum, h.entries_eq, Volume.entries, hrecords, Volume.entries]
    simp only [List.map_append, List.map_cons, List.map_take, List.map_drop]
  · rintro e t ⟨hgood, msg, hmsg, rfl⟩
    simp only [lowPanics, List.mem_cons, List.not_mem_nil, or_false] at hmsg
    rcases hmsg with rfl | rfl | rfl | rfl | rfl
    · exact absurd rfl hgood.notFree
    · exact absurd rfl hgood.inTrans
    · exact .inr (.inl rfl)
    · exact .inr (.inr rfl)
    · exact absurd rfl hgood.inRange

theorem dirlookup_finds (h : IsDir dp s) (p : Ptr) :
    wp (dirlookup dp (nameOf p)) (fun r t => (IsDir dp t ∧ entries t dp = entries s dp) ∧
      r.map (fun x => (x.1, (t.icache x.2).inum)) = finds s dp p) Short s := by
  obtain ⟨sb, v, h⟩ := h
  rw [finds, h.entries_eq]
  refine dirlookup_rule h.rep h.base h.keeps h.cached h.reading h.dir (fun m inum hm => ?_)
    (fun hm => ?_) fun hne => absurd h.whole hne
  · refine wp_imp (iget_keeps h _ inum) ?_
    rintro ip t ⟨⟨ht, hinum⟩, hip, -⟩
    rw [ht.entries_eq, hinum, hm, ← hip]
    exact ⟨⟨⟨sb, v, ht⟩, rfl⟩, rfl⟩
  · rw [hm]
    exact ⟨⟨⟨sb, v, h⟩, h.entries_eq⟩, rfl⟩

/-- `dirlink` does to the entries what the model of `Names` does. -/
theorem dirlink_puts (h : IsDir dp s) (p : Ptr) {inum : ℕ} (hlt : inum < 65536)
    (hroom : slot (entries s dp) < Names.maxents) :
    wp (dirlink dp (nameOf p) inum) (fun r t => IsDir dp t ∧ match scan (nameOf p) (entries s dp) with
      | some _ => r = false ∧ entries t dp = entries s dp
      | none => r = true ∧ entries t dp = putEntry ⟨inum, nameOf p⟩ (entries s dp))
      (fun e t => Short e t ∨ e = .sleeps ∧ finds s dp p ≠ none) s := by
  obtain ⟨sb, v, h⟩ := h
  have hent := h.entries_eq
  simp only [dirlink, wp_bind]
  refine dirlookup_rule h.rep h.base h.keeps h.cached h.reading h.dir (fun m i hm => ?_) (fun hm => ?_)
    fun hne => absurd h.whole hne
  · rw [← hent] at hm
    refine wp_mono (iget_keeps h _ i) ?_ fun e t he => .inl he
    rintro ip t ⟨⟨ht, hinum⟩, -, hspare⟩
    simp only [wp_run, hm]
    refine wp_mono (iput_keeps ht hspare) ?_ fun e _ he => .inr ⟨he, ?_⟩
    · rintro _ u ⟨hu, hinum'⟩
      refine ⟨⟨sb, v, hu⟩, trivial, ?_⟩
      rw [hu.entries_eq, hinum', hinum, hent]
    · simp [finds, hm]
  · rw [← hent] at hm
    simp only [wp_run, hm]
    refine wp_mono (emptyScan_rule (k := 0) (h.rep.readable h.base h.keeps h.cached h.reading)
      (Nat.zero_le _) (by rw [h.size_eq]; unfold recordsIn dirRounds; omega)
      (by rw [h.size_eq, recordsIn, Nat.mul_div_cancel' (Nat.dvd_of_mod_eq_zero h.whole)]))
      ?_ fun e t he => .inl he
    rintro _ t ⟨rfl, rfl⟩
    rw [Nat.zero_add, List.drop_zero, ← h.size_eq]
    have hslot : ((t.records dp (recordsIn (t.icache dp).size)).findIdx fun bs =>
        (direntOf bs).inum = 0) = slot (entries t dp) := by
      rw [slot, entries, List.findIdx_map]
      rfl
    rw [hslot]
    refine wp_mono (writeDirent_puts h List.findIdx_le_length hroom ⟨inum, nameOf p⟩) ?_
      fun e t he => .inl he
    rintro _ u ⟨hu, hput⟩
    refine ⟨hu, trivial, ?_⟩
    have hback : direntOf (direntBytes ⟨inum, nameOf p⟩) = ⟨inum, nameOf p⟩ :=
      congrArg₂ Dirent.mk ((Mkfs.inum_direntBytes _).trans (Nat.mod_eq_of_lt hlt))
        ((Mkfs.name_direntBytes (plain_nameOf p)).trans (take_nameOf p))
    rw [hput, putEntry_eq, hback, slot]

theorem clear_puts (h : IsDir dp s) (hm : m < (entries s dp).length) :
    wp (writeDirent dp (direntSize * m) ⟨0, []⟩ msg) (fun _ t => IsDir dp t ∧
      entries t dp = (entries s dp).set m ⟨0, []⟩) Short s := by
  obtain ⟨sb, v, h⟩ := h
  refine wp_imp (writeDirent_puts h hm.le (hm.trans_le h.length_le) ⟨0, []⟩) ?_
  rintro _ t ⟨ht, hput⟩
  refine ⟨ht, ?_⟩
  rw [hput, List.set_eq_take_append_cons_drop, if_pos hm]
  rfl

end Directory

/-! ## Histories -/

/-- What is done to a directory that is locked. -/
inductive DirOp
  | dirlink (p : Ptr) (inum : ℕ)
  | unlink (p : Ptr)

/-- Inode numbers fill two bytes, and there is room for the entry. -/
def DirOp.enabled (dp : Iptr) (s : Fs) : DirOp → Bool
  | .dirlink _ inum => decide (0 < inum ∧ inum < 65536 ∧ slot (entries s dp) < Names.maxents)
  | .unlink _ => true

/-- `dirlink`, and what `unlink` does to the directory. -/
def DirOp.run (dp : Iptr) : DirOp → FsM Unit
  | .dirlink p inum => do
    let _ ← Blocks.dirlink dp (nameOf p) inum
  | .unlink p => do
    match ← dirlookup dp (nameOf p) with
    | none => pure ()
    | some (off, _) => writeDirent dp off ⟨0, []⟩ "unlink: writei"

def step (dp : Iptr) (s : Fs) (x : DirOp) : Option Fs :=
  if x.enabled dp s then
    match x.run dp s with
    | .ok _ t => some t
    | .error _ _ => none
  else none

section History

variable {s s₀ t : Fs} {dp : Iptr} {p : Ptr} {x : DirOp} {ls : List DirOp}

theorem step_eq_some (h : step dp s x = some t) : x.enabled dp s = true ∧ x.run dp s = .ok () t := by
  unfold step at h
  split_ifs at h with hx
  split at h
  · next hrun =>
    cases h
    exact ⟨hx, hrun⟩
  · cases h

theorem lt_of_scan {name : Name} {es : List Dirent} {m i : ℕ} (h : scan name es = some (m, i)) :
    m < es.length := by
  obtain ⟨e, he, -⟩ := Names.scan_mem h
  exact (List.getElem?_eq_some_iff.1 he).1

theorem distinct_step (h : IsDir dp s ∧ Distinct (entries s dp)) (hx : step dp s x = some t) :
    IsDir dp t ∧ Distinct (entries t dp) := by
  obtain ⟨hdir, hdis⟩ := h
  obtain ⟨hen, hrun⟩ := step_eq_some hx
  refine wp_ok (Q := fun _ t => IsDir dp t ∧ Distinct (entries t dp)) (E := fun _ _ => True) ?_ hrun
  cases x with
  | dirlink p inum =>
    obtain ⟨-, hlt, hroom⟩ := of_decide_eq_true hen
    simp only [DirOp.run, wp_run]
    refine wp_lax (dirlink_puts hdir p hlt hroom) ?_
    rintro r t ⟨ht, hput⟩
    refine ⟨ht, ?_⟩
    split at hput
    · rw [hput.2]
      exact hdis
    · next hnone =>
      rw [hput.2]
      exact hdis.putEntry (scan_eq_none.1 hnone)
  | unlink p =>
    simp only [DirOp.run, wp_bind]
    refine wp_lax (dirlookup_finds hdir p) ?_
    rintro r t ⟨⟨ht, hsame⟩, hr⟩
    rw [← hsame] at hdis
    rcases r with _ | r
    · exact ⟨ht, hdis⟩
    obtain ⟨off, ip⟩ := r
    obtain ⟨⟨m, i⟩, hm, heq⟩ := Option.map_eq_some_iff.1 hr.symm
    obtain ⟨rfl, -⟩ := Prod.mk.inj heq
    refine wp_lax (clear_puts ht (hsame ▸ lt_of_scan hm)) ?_
    rintro _ u ⟨hu, hset⟩
    rw [hset]
    exact ⟨hu, hdis.set rfl m⟩

theorem distinct_run (h : IsDir dp s₀) (hempty : entries s₀ dp = [])
    (hrun : Run (ofFun (step dp)) s₀ ls s) : IsDir dp s ∧ Distinct (entries s dp) :=
  hrun.invariant ⟨h, hempty ▸ .nil⟩ fun _ _ _ hs hx => distinct_step hs hx

/-- A directory made by `dirlink` and `unlink` from an empty one is a finite map on names: the laws of
its entries, that `dirlookup` and `dirlink` go by them on the blocks, and that names are compared and
copied as in C. -/
theorem directory_map (h : IsDir dp s₀) (hempty : entries s₀ dp = [])
    (hrun : Run (ofFun (step dp)) s₀ ls s) :
    Distinct (entries s dp) ∧
    (∀ p, wp (dirlookup dp (nameOf p)) (fun r t => entries t dp = entries s dp ∧
      r.map (fun x => (x.1, (t.icache x.2).inum)) = finds s dp p) Short s) ∧
    (∀ p inum, 0 < inum → inum < 65536 → slot (entries s dp) < Names.maxents →
      wp (dirlink dp (nameOf p) inum) (fun r t =>
        (r = false ↔ ∃ e ∈ entries s dp, e.inum ≠ 0 ∧ Names.namecmp (nameOf p) e.name = true) ∧
        ∀ q, finds t dp q = if r = true ∧ key q dirsiz = key p dirsiz
          then some (direntSize * slot (entries s dp), inum) else finds s dp q)
        (fun e t => Short e t ∨ e = .sleeps ∧ finds s dp p ≠ none) s) ∧
    (∀ p off i, finds s dp p = some (off, i) →
      wp (writeDirent dp off ⟨0, []⟩ "unlink: writei") (fun _ t => ∀ q, finds t dp q =
        if key q dirsiz = key p dirsiz then none else finds s dp q) Short s) ∧
    (∀ p inum bs, bs.length = direntSize →
      (Names.namecmp (nameOf p) (direntOf bs).name = true ↔ namecmp p (str (bs.drop 2)) = 0) ∧
      (direntBytes ⟨inum, nameOf p⟩).drop 2 = strncpy p dirsiz) ∧
    ∀ path old name rest, 0 ∉ path → skipelem path old = some (name, rest) →
      namecmp name (str (elem path)) = 0 ∧ namecmp name (str (strncpy name dirsiz)) = 0 ∧
        finds s dp name = finds s dp (str (elem path)) := by
  obtain ⟨hdir, hdis⟩ := distinct_run h hempty hrun
  refine ⟨hdis, fun p => ?_, fun p inum hpos hlt hroom => ?_, fun p off i hoff => ?_,
    fun p inum bs hbs => ?_, fun path old name rest hnul hskip => ?_⟩
  · exact wp_imp (dirlookup_finds hdir p) fun r t ht => ⟨ht.1.2, ht.2⟩
  · refine wp_imp (dirlink_puts hdir p hlt hroom) ?_
    rintro r t ⟨-, hput⟩
    split at hput
    · next x hsome =>
      obtain ⟨rfl, hsame⟩ := hput
      obtain ⟨e, hmem, -, hne, hname⟩ := Names.scan_mem hsome
      refine ⟨iff_of_true rfl ⟨e, List.mem_of_getElem? hmem, hne, hname⟩, fun q => ?_⟩
      rw [finds, hsame, if_neg fun h => Bool.false_ne_true h.1]
      rfl
    next hnone =>
    obtain ⟨rfl, hset⟩ := hput
    rw [scan_eq_none] at hnone
    refine ⟨iff_of_false (by decide) ?_, fun q => ?_⟩
    · rintro ⟨e, he, hne, hname⟩
      rw [hnone e he hne] at hname
      cases hname
    · rw [finds, hset, scan_putEntry hnone hpos.ne', finds]
      simp only [namecmp_nameOf, true_and]
      split_ifs <;> rfl
  · obtain ⟨⟨m, j⟩, hm, heq⟩ := Option.map_eq_some_iff.1 hoff
    obtain ⟨rfl, rfl⟩ := Prod.mk.inj heq
    refine wp_imp (clear_puts hdir (lt_of_scan hm)) ?_
    rintro _ t ⟨-, hset⟩ q
    rw [finds, hset, scan_set hdis hm rfl, finds]
    simp only [namecmp_nameOf]
    split_ifs <;> rfl
  · rw [name_direntOf hbs, namecmp_nameOf, namecmp, strncmp_eq_zero]
    exact ⟨Iff.rfl, drop_direntBytes_nameOf inum p⟩
  · have hmem : 0 ∉ elem path := fun h0 =>
      hnul ((List.dropWhile_suffix _).subset ((List.takeWhile_prefix _).subset h0))
    have hkey := (key_skipelem hnul hskip).trans (key_str hmem).symm
    refine ⟨strncmp_eq_zero.2 hkey, strncmp_eq_zero.2 (key_strncpy ..).symm, ?_⟩
    rw [finds, scan_congr (namecmp_nameOf.2 hkey), finds]

def fresh : FsM Iptr := do
  beginOp
  newInode rootdev tDir 0 0

/-- A new directory on a disk with the root only. -/
def scratch : Iptr × Fs :=
  match fresh (boot rootDisk) with
  | .ok dp s => (dp, s)
  | .error _ s => (0, s)

theorem isDir_scratch : IsDir scratch.1 scratch.2 := by
  have hne : scratch.1 ≠ 0 := by decide +kernel
  have hsize : (scratch.2.icache scratch.1).size.toNat % direntSize = 0 := by decide +kernel
  have hidle : Idle True (superblockOf (rootDisk 1)) (boot rootDisk) := boot_idle fun _ =>
    rootDisk_consistent
  have hat : wp fresh (fun dp s => ∃ K c, At True K (superblockOf (rootDisk 1)) c s ∧
      (dp, tDir) ∈ c.locks ∧ 1 ≤ c.out) (fun _ _ => True) (boot rootDisk) := by
    simp only [fresh, wp_bind]
    refine wp_lax (begin_at hidle stable_any) fun _ t ht => ?_
    refine wp_lax (newInode_at ht le_rfl tDir 0 0) ?_
    rintro ip u ⟨i, ty, -, hu, -, hty⟩
    exact ⟨_, _, hu, hty trivial ▸ List.mem_cons_self, le_rfl⟩
  unfold scratch at hne hsize ⊢
  cases hrun : fresh (boot rootDisk) with
  | error e t =>
    rw [hrun] at hne
    exact absurd rfl hne
  | ok dp t =>
    rw [hrun] at hsize
    obtain ⟨K, c, ht, hlock, hout⟩ := wp_ok hat hrun
    exact Directory.of_at ht hlock hout hsize

/-- A name of `n` bytes. -/
def longName (c : Char) (n : ℕ) : Ptr := str (List.replicate n (UInt8.ofNat c.toNat))

/-- A name of 20 bytes is linked behind a short one, which is removed; one of 14 bytes gets its slot. -/
def history : List DirOp :=
  [.dirlink (longName 'a' 1) 2, .dirlink (longName 'b' 20) 40000, .unlink (longName 'a' 1),
    .dirlink (longName 'c' 14) 3]

theorem directory_map_reused : ∃ s, Run (ofFun (step scratch.1)) scratch.2 history s ∧
    entries s scratch.1 = [⟨3, List.replicate 14 'c'⟩, ⟨40000, List.replicate 14 'b'⟩] ∧
    Distinct (entries s scratch.1) ∧
    wp (dirlookup scratch.1 (nameOf (longName 'b' 15)))
      (fun r t => r.map (fun x => (x.1, (t.icache x.2).inum)) = some (16, 40000)) Short s := by
  have hlist : ((history.foldlM (step scratch.1) scratch.2).map fun s => entries s scratch.1) =
      some [⟨3, List.replicate 14 'c'⟩, ⟨40000, List.replicate 14 'b'⟩] := by decide +kernel
  obtain ⟨s, hs, hentries⟩ := Option.map_eq_some_iff.1 hlist
  have hrun := Run.of_foldlM hs
  obtain ⟨hdis, hlook, -⟩ := directory_map isDir_scratch (by decide +kernel) hrun
  refine ⟨s, hrun, hentries, hdis, wp_imp (hlook (longName 'b' 15)) fun r t ht => ?_⟩
  rw [ht.2, finds, hentries]
  decide +kernel

end History

end Xv6.Dirents

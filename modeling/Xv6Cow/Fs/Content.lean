import Xv6Cow.Fs.Represent

/-!
# The content of an inode

The rules for `readi`, `writei` and `itrunc`.  Reading a file without holes changes nothing, because
`bmap` finds every block it is asked for.  Writing starts inside the file or at its end, so it either
leaves the inode alone or makes the file longer, and then `iupdate` writes the new blocks back.
-/

namespace Xv6.Blocks

open Function Bytes Lts Prog

variable {sb : Superblock} {v v' : Volume} {D : ℕ → Dinode} {s : Fs} {ip : Iptr} {b i off : ℕ}

/-! ## Reading -/

/-- Byte `o` of the file, by the copy of its inode in the cache. -/
def Fs.byteAt (s : Fs) (ip : Iptr) (o : ℕ) : UInt8 :=
  s.blk ((s.icache ip).ptr s.blk (slotOf (o / bsize))) (o % bsize)

/-- The `n` bytes of the file at `off`. -/
def Fs.bytes (s : Fs) (ip : Iptr) (off n : ℕ) : List UInt8 :=
  (List.range n).map fun k => s.byteAt ip (off + k)

theorem Fs.bytes_add (s : Fs) (ip : Iptr) (off m n : ℕ) :
    s.bytes ip off (m + n) = s.bytes ip off m ++ s.bytes ip (off + m) n := by
  simp only [Fs.bytes, List.range_add, List.map_append, List.map_map, Function.comp_def,
    Nat.add_assoc]

/-- The cached inode has a block for each of the first `n` bytes. -/
def Fs.Mapped (s : Fs) (ip : Iptr) (n : ℕ) : Prop :=
  ∀ bn, bn * bsize < n → bn < maxfile ∧ (s.icache ip).ptr s.blk (slotOf bn) ≠ 0

section Found

variable {E : Stop → Fs → Prop} {n : ℕ}

theorem addrOf_found {j : Fin 13} (h : (s.icache ip).addrs j ≠ 0) :
    wp (addrOf ip j) (fun a t => t = s ∧ a = ((s.icache ip).addrs j).toNat) E s := by
  simp only [addrOf, wp_run, h]
  exact ⟨trivial, trivial⟩

theorem bmap_found {bn : ℕ} (hbn : bn < maxfile) (hp : (s.icache ip).ptr s.blk (slotOf bn) ≠ 0) :
    wp (bmap ip bn) (fun a t => t = s ∧ a = (s.icache ip).ptr s.blk (slotOf bn)) E s := by
  unfold bmap
  by_cases hd : bn < ndirect
  · rw [slotOf_direct hd, ptr_addrSlot] at hp ⊢
    rw [if_pos hd]
    exact addrOf_found fun hz => hp (addrs_eq_zero.1 hz)
  have hlt : bn - ndirect < nindirect := by
    unfold maxfile at hbn
    omega
  obtain ⟨e, hslot, he⟩ := slotOf_entry hd hbn
  rw [hslot] at hp ⊢
  have hind : (s.icache ip).addrs 12 ≠ 0 := fun hz => hp (if_pos hz)
  have hword : (s.icache ip).ptr s.blk (.entry e) =
      word (s.blk ((s.icache ip).addrs 12).toNat) e := if_neg hind
  rw [if_neg hd, if_pos hlt, ← he, wp_bind]
  refine wp_imp (addrOf_found hind) ?_
  rintro _ t ⟨rfl, rfl⟩
  rw [hword] at hp ⊢
  simp only [entryOf, wp_run, hp]
  exact ⟨trivial, trivial⟩

theorem readLoop_found {fuel left : ℕ} (hm : s.Mapped ip (off + left)) (hfuel : left ≤ fuel) :
    wp (readLoop ip fuel off left) (fun bs t => t = s ∧ bs = s.bytes ip off left) E s := by
  induction fuel generalizing off left with
  | zero =>
    obtain rfl : left = 0 := by omega
    exact ⟨rfl, rfl⟩
  | succ fuel ih =>
    by_cases hz : left = 0
    · subst hz
      exact ⟨rfl, rfl⟩
    simp only [readLoop, hz, wp_run]
    obtain ⟨hbn, hp⟩ := hm (off / bsize) (by have := Nat.div_mul_le_self off bsize; omega)
    refine wp_imp (bmap_found hbn hp) ?_
    rintro _ t ⟨rfl, rfl⟩
    generalize hleft : min left (bsize - off % bsize) = m
    have hmod : off % bsize < bsize := Nat.mod_lt _ (by decide)
    have hnext : off + m + (left - m) = off + left := by omega
    refine wp_imp (ih (hnext ▸ hm) (by omega)) ?_
    rintro rest u ⟨rfl, rfl⟩
    refine ⟨rfl, ?_⟩
    have hsplit : left = m + (left - m) := by omega
    rw [hsplit, Fs.bytes_add, Nat.add_sub_cancel_left]
    congr 1
    refine List.map_congr_left fun k hk => ?_
    have hk := List.mem_range.1 hk
    have hlo : off ≤ off + k := Nat.le_add_right ..
    have hhi : off + k < off + m := by omega
    obtain ⟨hdiv, hrem⟩ := Volume.block_of hlo hhi (by omega)
    rw [Fs.byteAt, hdiv, hrem, Nat.add_sub_cancel_left]

theorem readi_found (hdev : (s.icache ip).type ≠ tDev) (hr : s.hist.reading = false)
    (hlen : off + n ≤ (s.icache ip).size.toNat) (hm : s.Mapped ip (off + n)) :
    wp (readi ip off n) (fun r t => t = s ∧ r = some (s.bytes ip off n)) E s := by
  have hsize : (s.icache ip).size.toNat < 2 ^ 32 := UInt32.toNat_lt ..
  have hok : ¬ ((s.icache ip).size.toNat < off ∨ (off + n) % 2 ^ 32 < off) := by
    rw [Nat.mod_eq_of_lt (by omega)]
    omega
  simp only [readi, wp_run, hdev, hok, Nat.not_lt_of_le hlen]
  refine wp_imp (readLoop_found (s := { s with hist.reading := true }) hm le_rfl) ?_
  rintro _ _ ⟨rfl, rfl⟩
  refine ⟨?_, rfl⟩
  show { s with hist.reading := false } = s
  rw [← hr]

end Found

/-- The pointers of an allocated inode are the same over the blocks as over the volume. -/
theorem Rep.ptr_blk (h : Rep sb v D s) (hv : v.Base sb) (hi : i < sb.ninodes)
    (ht : (v.ino i).type ≠ 0) (k : Slot) : (v.ino i).ptr s.blk k = v.ptr i k := by
  refine Dinode.ptr_congr k fun hind => h.data _ ?_
  by_cases hd : (v.ino i).type = tDev
  · exact absurd (hv.bare i hi hd 12) hind
  · exact hv.toOwned.area_of_ptr (k := .indirect) ⟨hi, ht, hd⟩ fun hz => hind (addrs_eq_zero.2 hz)

/-- The `n` bytes of the file at `off`. -/
def Volume.bytes (v : Volume) (i off n : ℕ) : List UInt8 := (List.range n).map fun k =>
    v.byteAt i (off + k)

section

variable (h : Rep sb v D s) (hv : v.Base sb) (hi : v.Keeps sb i) (hc : (s.icache ip).Caches i)

include h hv hi hc

theorem Rep.cached_ptr (k : Slot) : (s.icache ip).ptr s.blk k = v.ptr i k := by
  rw [h.copy ip i hc, h.ptr_blk hv hi.1 hi.2.1]

theorem Rep.cached_mapped : s.Mapped ip (v.ino i).size.toNat := by
  intro bn hbn
  rw [h.cached_ptr hv hi hc]
  exact hv.full i hi bn hbn

theorem Rep.cached_bytes {n : ℕ} (hlen : off + n ≤ (v.ino i).size.toNat) :
    s.bytes ip off n = v.bytes i off n := by
  refine List.map_congr_left fun k hk => ?_
  have hk := List.mem_range.1 hk
  have hp := (hv.full i hi ((off + k) / bsize)
    (by have := Nat.div_mul_le_self (off + k) bsize; omega)).2
  rw [Fs.byteAt, h.cached_ptr hv hi hc, h.data _ (hv.toOwned.area_of_ptr hi hp), Volume.byteAt]

theorem readLoop_rule {E : Stop → Fs → Prop} {fuel left : ℕ}
    (hlen : off + left ≤ (v.ino i).size.toNat) (hfuel : left ≤ fuel) :
    wp (readLoop ip fuel off left) (fun bs t => t = s ∧ bs = v.bytes i off left) E s := by
  refine wp_imp (readLoop_found (fun bn hbn => h.cached_mapped hv hi hc bn (by omega)) hfuel) ?_
  rintro bs t ⟨rfl, rfl⟩
  exact ⟨rfl, h.cached_bytes hv hi hc hlen⟩

end

theorem Rep.setReading (h : Rep sb v D s) (r : Bool) : Rep sb v D { s with hist.reading := r } :=
  ⟨h.sb_eq, h.super, h.used, h.ino, h.data, h.copy, h.disk, h.uniq,
    h.hist.given, h.hist.truncated, h.hist.released⟩

theorem readi_file (h : Rep sb v D s) (hv : v.Base sb) (hi : v.Keeps sb i)
    (hc : (s.icache ip).Caches i) (hr : s.hist.reading = false) (off n : ℕ) :
    wp (readi ip off n) (fun r t => t = s ∧ ∀ bs, r = some bs → bs = v.bytes i off bs.length ∧
        off + bs.length ≤ (v.ino i).size.toNat) Good s := by
  have hcopy := h.copy ip i hc
  have htype : (s.icache ip).type = (v.ino i).type := congrArg Dinode.type hcopy
  have hsize : (s.icache ip).size = (v.ino i).size := congrArg Dinode.size hcopy
  have hdev : ¬ (v.ino i).type = tDev := hi.2.2
  simp only [readi, wp_run, htype, hsize, hdev]
  by_cases hbad : (v.ino i).size.toNat < off ∨ (off + n) % 2 ^ 32 < off
  · rw [if_pos hbad]
    exact ⟨trivial, nofun⟩
  rw [if_neg hbad]
  generalize hn : (if (v.ino i).size.toNat < off + n then (v.ino i).size.toNat - off else n) = n'
  have hlen : off + n' ≤ (v.ino i).size.toNat := by
    split at hn <;> omega
  refine wp_imp (readLoop_rule (h.setReading true) hv hi hc hlen le_rfl) ?_
  rintro bs _ ⟨rfl, rfl⟩
  refine ⟨?_, fun bs hbs => ?_⟩
  · show { s with hist.reading := false } = s
    rw [← hr]
  obtain rfl := Option.some.inj hbs
  have hlength : (v.bytes i off n').length = n' := by simp [Volume.bytes]
  rw [hlength]
  exact ⟨rfl, hlen⟩

/-! ## Writing -/

theorem writeLoop_rule (h : Rep sb v D s) (hsb : sb.Laid) (hv : v.Base sb) (hi : v.Keeps sb i)
    (hc : (s.icache ip).Caches i) (ho : 1 ≤ s.outstanding) (hr : s.hist.reading = false)
    {fuel : ℕ} {src : List UInt8} (hoff : v.Mapped i off)
    (hend : off + src.length ≤ maxfile * bsize) (hfuel : src.length ≤ fuel) :
    wp (writeLoop ip fuel off src)
      (fun _ t => ∃ v', Rep sb v' D t ∧ v'.Base sb ∧ v.Written sb v' i off src ∧ t.led = s.led)
      Good s := by
  induction fuel generalizing s v off src with
  | zero =>
    obtain rfl : src = [] := List.length_eq_zero_iff.1 (by omega)
    exact ⟨v, h, hv, .nil sb v i off, rfl⟩
  | succ fuel ih =>
    by_cases hz : src.length = 0
    · obtain rfl := List.length_eq_zero_iff.1 hz
      exact ⟨v, h, hv, .nil sb v i off, rfl⟩
    simp only [writeLoop, hz, if_false, wp_bind]
    have hbn : off / bsize < maxfile := by
      unfold bsize at *
      omega
    refine wp_imp (bmap_rule h hsb hv hi hc hbn fun _ => ⟨ho, hr⟩) ?_
    rintro a t ⟨v1, h1⟩
    have hout : t.outstanding = s.outstanding := congrArg Led.outstanding h1.led
    have hread : t.hist.reading = s.hist.reading := congrArg Led.reading h1.led
    have hi1 := h1.grown.keeps_iff.2 hi
    generalize hpart : src.take (min src.length (bsize - off % bsize)) = part
    have hmod : off % bsize < bsize := Nat.mod_lt _ (by decide)
    have hlen : part.length = min src.length (bsize - off % bsize) := by
      rw [← hpart, List.length_take]
      omega
    have hsrc : part ++ src.drop part.length = src := by
      rw [hlen, ← hpart, List.take_append_drop]
    have hdrop : (src.drop part.length).length = src.length - part.length := List.length_drop ..
    refine wp_imp (modifyBlk_rule h1.rep.histOk (by omega) _ _) ?_
    rintro _ _ ⟨l, rfl⟩
    have hp : v1.ptr i (slotOf (off / bsize)) ≠ 0 := h1.ptr ▸ h1.ne
    have harea := h1.base.toOwned.area_of_ptr hi1 hp
    have hpos : 0 < part.length := by omega
    obtain ⟨hbase, hw⟩ := hv.write h1.grown h1.base hi hpos (by omega) hbn hp
      fun hp0 => by rw [(h1.same hp0).2]
    rw [← h1.ptr, h1.rep.data _ harea]
    have h2 := (h1.rep.setData hsb harea (patch (v1.data (v1.ptr i (slotOf (off / bsize))))
      (off % bsize) part.length fun k => part.getD k 0)).setLh l
    have hrest : off + part.length + (src.drop part.length).length ≤ maxfile * bsize := by omega
    refine wp_imp (ih h2 hbase (hw.keeps_iff.2 hi) (hc.of_led h1.led) (hout.symm ▸ ho)
      (hread.trans hr) (hw.reach hoff) hrest (by omega)) ?_
    rintro _ u ⟨v', hrep, hbase', hw', hled⟩
    refine ⟨v', hrep, hbase', ?_, hled.trans h1.led⟩
    rw [← hsrc]
    exact hw.append hw' hi hoff

/-- The bytes `src` stand in file `i` at `off`. -/
structure Volume.Put (v v' : Volume) (i off : ℕ) (src : List UInt8) : Prop where
  size : (v'.ino i).size.toNat = max (v.ino i).size.toNat (off + src.length)
  new : ∀ {o}, off ≤ o → o < off + src.length → v'.byteAt i o = src.getD (o - off) 0
  kept : ∀ {o}, o < (v.ino i).size.toNat → ¬ (off ≤ o ∧ o < off + src.length) →
    v'.byteAt i o = v.byteAt i o

theorem writei_file (h : Rep sb v v.ino s) (hsb : sb.Laid) (hv : v.Base sb) (hi : v.Keeps sb i)
    (hc : (s.icache ip).Caches i) (ho : 1 ≤ s.outstanding) (hr : s.hist.reading = false)
    (src : List UInt8) (off : ℕ) :
    wp (writei ip src off)
      (fun r t => ∃ v', Rep sb v' v'.ino t ∧ (v'.Base sb ∧ (v.Ok sb → v.Fits sb i off src → v'.Ok sb)) ∧
        (v.Rewritten v' i ∧ t.led = s.led) ∧ (off ≤ (v.ino i).size.toNat →
          off + src.length ≤ maxfile * bsize → r = some src.length ∧ v.Put v' i off src)) Good s := by
  have hcopy := h.copy ip i hc
  have htype : (s.icache ip).type = (v.ino i).type := congrArg Dinode.type hcopy
  have hsize : (s.icache ip).size = (v.ino i).size := congrArg Dinode.size hcopy
  have hdev : ¬ (v.ino i).type = tDev := hi.2.2
  simp only [writei, wp_run, htype, hsize, hdev]
  by_cases hbad : (v.ino i).size.toNat < off ∨ (off + src.length) % 2 ^ 32 < off
  · rw [if_pos hbad]
    refine ⟨v, h, ⟨hv, fun hok _ => hok⟩, ⟨.refl v i, trivial⟩, fun h1 h2 => ?_⟩
    unfold maxfile ndirect nindirect bsize at h2
    omega
  rw [if_neg hbad]
  by_cases hbig : maxfile * bsize < off + src.length
  · rw [if_pos hbig]
    exact ⟨v, h, ⟨hv, fun hok _ => hok⟩, ⟨.refl v i, trivial⟩, fun _ h2 =>
      absurd h2 (Nat.not_le_of_lt hbig)⟩
  rw [if_neg hbig]
  have hle : off ≤ (v.ino i).size.toNat := by omega
  have hoff : v.Mapped i off := fun bn hbn => hv.full i hi bn (by omega)
  refine wp_imp (writeLoop_rule h hsb hv hi hc ho hr hoff (Nat.le_of_not_lt hbig) le_rfl) ?_
  rintro _ t ⟨v', hrep, hbase, hw, hled⟩
  have hc' := hc.of_led hled
  have hcopy' := hrep.copy ip i hc'
  have hsize' : (t.icache ip).size = (v.ino i).size :=
    (congrArg Dinode.size hcopy').trans (hw.size_eq i)
  have hout : t.outstanding = s.outstanding := congrArg Led.outstanding hled
  rw [hsize']
  by_cases hgrow : 0 < src.length ∧ (v.ino i).size.toNat < off + src.length
  · rw [if_pos hgrow, hcopy']
    have hn : (UInt32.ofNat (off + src.length)).toNat = off + src.length :=
      toNat_ofNat_of_lt (by unfold maxfile ndirect nindirect bsize at hbig; omega)
    refine wp_imp (iupdate_rule (hrep.setCopy hc' _) hsb hi.1 (by simpa using hc')
      (hout.symm ▸ ho)) ?_
    rintro _ u ⟨hu, huled, -⟩
    have hbyte : ∀ o, (v'.setIno i { v'.ino i with size := UInt32.ofNat (off + src.length) }).byteAt
        i o = v'.byteAt i o := fun o => by
      unfold Volume.byteAt Volume.ptr
      rw [Volume.setIno_ino_self]
      rfl
    refine ⟨_, ?_, ⟨hv.written_grow hw hbase hi hle hn, fun hok hfit =>
      hok.written_grow hw hbase hi hfit hle hn⟩,
      ⟨⟨fun j hj => ?_, ?_, ?_⟩, ?_⟩, fun _ _ => ⟨trivial, ?_, fun h1 h2 => ?_, fun ho hnot => ?_⟩⟩
    · -- the dinode written is the only one that was behind
      convert hu using 1
      funext j
      by_cases hj : j = i
      · rw [hj, update_self]
      · rw [update_of_ne hj, v'.setIno_ino_of_ne hj, hw.ino j hj]
    · rw [v'.setIno_ino_of_ne hj, hw.ino j hj]
    · rw [Volume.setIno_ino_self]
      exact hw.type_eq i
    · rw [Volume.setIno_ino_self]
      exact hw.nlink_eq
    · exact huled.trans ((hrep.setCopy_led hc'
        { v'.ino i with size := UInt32.ofNat (off + src.length) } rfl).trans hled)
    · rw [Volume.setIno_ino_self, hn, max_eq_right hgrow.2.le]
    · rw [hbyte, hw.new h1 h2]
    · rw [hbyte, hw.kept hi (hv.full i hi) ho fun hc => hnot hc.2]
  · rw [if_neg hgrow]
    have hsame : v'.ino i = v.ino i := hw.same.resolve_right (by omega)
    have hino : v.ino = v'.ino := by
      funext j
      by_cases hj : j = i
      · rw [hj, hsame]
      · rw [hw.ino j hj]
    refine ⟨v', hino ▸ hrep, ⟨hbase, fun hok hfit => hok.written hw hbase hfit hle⟩,
      ⟨⟨hw.ino, hw.type_eq i, hw.nlink_eq⟩, hled⟩,
      fun _ _ => ⟨trivial, ?_, hw.new, fun ho hnot => hw.kept hi (hv.full i hi) ho fun hc => hnot hc.2⟩⟩
    rw [hw.size_eq, max_eq_left (by omega)]

/-! ## Truncating -/

namespace Volume

/-- The blocks `l` are unmarked, and the addresses of inode `i` are `a`. -/
structure Freed (v v' : Volume) (i : ℕ) (l : List ℕ) (a : Fin 13 → UInt32) : Prop where
  used : ∀ c, v'.used c = true ↔ v.used c = true ∧ c ∉ l
  data : v'.data = v.data
  ino : v'.ino = update v.ino i { v.ino i with addrs := a }

variable {v v' v'' : Volume} {i b c : ℕ} {l l' : List ℕ} {a a' : Fin 13 → UInt32}

theorem Freed.refl (v : Volume) (i : ℕ) : Freed v v i [] (v.ino i).addrs :=
  ⟨by simp, rfl, (update_eq_self ..).symm⟩

theorem Freed.ino_self (h : Freed v v' i l a) : v'.ino i = { v.ino i with addrs := a } := by
  rw [h.ino, update_self]

theorem Freed.trans (h : Freed v v' i l a) (h' : Freed v' v'' i l' a') :
    Freed v v'' i (l ++ l') a' where
  used c := by
    rw [h'.used, h.used, List.mem_append]
    tauto
  data := h'.data.trans h.data
  ino := by rw [h'.ino, h.ino_self, h.ino, update_idem]

theorem Freed.one (v : Volume) (i b : ℕ) (j : Fin 13) :
    Freed v ((v.setUsed b false).setIno i ((v.ino i).setAddr j 0)) i [b]
      (update (v.ino i).addrs j 0) := by
  refine ⟨fun c => ?_, rfl, rfl⟩
  show update v.used b false c = true ↔ _
  by_cases hc : c = b
  · simp [hc]
  · simp [hc]

theorem Freed.unmark (v : Volume) (i b : ℕ) : Freed v (v.setUsed b false) i [b] (v.ino i).addrs := by
  refine ⟨fun c => ?_, rfl, (update_eq_self ..).symm⟩
  show update v.used b false c = true ↔ _
  by_cases hc : c = b
  · simp [hc]
  · simp [hc]

end Volume

/-- The nonzero addresses among those in `js`. -/
def addrList (a : Fin 13 → UInt32) (js : List (Fin 13)) : List ℕ :=
  (js.filter fun j => a j ≠ 0).map fun j => (a j).toNat

/-- The loop over `addrs` frees each block once. -/
theorem truncDirect_rule (h : Rep sb v D s) (hsb : sb.Laid) (hc : (s.icache ip).Caches i)
    (ho : 1 ≤ s.outstanding) (js : List (Fin 13)) (hnd : (addrList (v.ino i).addrs js).Nodup)
    (hused : ∀ b ∈ addrList (v.ino i).addrs js, b < sb.size ∧ v.used b = true) :
    wp (truncDirect ip js)
      (fun _ t => ∃ v', Rep sb v' D t ∧ t.led = s.led ∧ v.Freed v' i (addrList (v.ino i).addrs js)
        fun j => if j ∈ js then 0 else (v.ino i).addrs j) Good s := by
  induction js generalizing s v with
  | nil => exact ⟨v, h, rfl, by simpa [addrList] using Volume.Freed.refl v i⟩
  | cons j js ih =>
    have hcopy : ∀ {t : Fs}, t.icache = s.icache → (t.icache ip).toDinode = v.ino i := fun ht => by
      rw [ht, h.copy ip i hc]
    have haddr : (s.icache ip).addrs j = (v.ino i).addrs j := congrFun (congrArg _ (hcopy rfl)) j
    simp only [truncDirect, wp_run, haddr]
    by_cases hz : (v.ino i).addrs j = 0
    · have hlist : addrList (v.ino i).addrs (j :: js) = addrList (v.ino i).addrs js := by
        simp [addrList, hz]
      rw [hlist] at hnd hused ⊢
      simp only [hz, ne_eq, not_true_eq_false, if_false]
      refine wp_imp (ih h hc ho hnd hused) ?_
      rintro _ t ⟨v', hrep, hled, hf⟩
      refine ⟨v', hrep, hled, ?_⟩
      have hfun : (fun j' => if j' ∈ j :: js then 0 else (v.ino i).addrs j') =
          fun j' => if j' ∈ js then 0 else (v.ino i).addrs j' := by
        funext j'
        by_cases hjj : j' = j
        · subst hjj
          simp [hz]
        · simp [hjj]
      rwa [hfun]
    · have hlist : addrList (v.ino i).addrs (j :: js) =
          ((v.ino i).addrs j).toNat :: addrList (v.ino i).addrs js := by simp [addrList, hz]
      rw [hlist] at hnd hused ⊢
      obtain ⟨hfirst, hnd⟩ := List.nodup_cons.1 hnd
      obtain ⟨⟨hlt, hu⟩, hused⟩ := List.forall_mem_cons.1 hused
      have hj : j ∉ js := fun hj =>
        hfirst (List.mem_map.2 ⟨j, List.mem_filter.2 ⟨hj, by simpa using hz⟩, rfl⟩)
      simp only [hz, ne_eq, not_false_eq_true, if_true]
      refine wp_imp (bfree_rule h hsb hlt hu ho) ?_
      rintro _ t ⟨ht, hled, hic⟩
      simp only [hcopy hic]
      have hc1 : (t.icache ip).Caches i := hic ▸ hc
      have hrep1 := ht.setCopy hc1 ((v.ino i).setAddr j 0)
      have hled1 : (t.setCopy ip ((v.ino i).setAddr j 0)).led = t.led := ht.setCopy_led hc1 _ rfl
      have hf1 := Volume.Freed.one v i ((v.ino i).addrs j).toNat j
      generalize ((v.setUsed ((v.ino i).addrs j).toNat false).setIno i ((v.ino i).setAddr j 0)) = v1
        at hrep1 hf1
      have hout : t.outstanding = s.outstanding := congrArg Led.outstanding hled
      -- the addresses still to free
      have haddrs : ∀ j', j' ≠ j → (v1.ino i).addrs j' = (v.ino i).addrs j' := by
        intro j' hj'
        rw [hf1.ino_self]
        exact update_of_ne hj' ..
      have hrest : addrList (v1.ino i).addrs js = addrList (v.ino i).addrs js := by
        have hsame : ∀ j' ∈ js, (v1.ino i).addrs j' = (v.ino i).addrs j' := fun j' hj' =>
          haddrs j' fun heq => hj (heq ▸ hj')
        unfold addrList
        rw [List.filter_congr fun j' hj' => by rw [hsame j' hj']]
        exact List.map_congr_left fun j' hj' => by rw [hsame j' (List.mem_of_mem_filter hj')]
      refine wp_imp (ih hrep1 (by simpa using hc1) (hout.symm ▸ ho) (hrest ▸ hnd) fun b hb => ?_) ?_
      · rw [hrest] at hb
        obtain ⟨hlt', hu'⟩ := hused b hb
        exact ⟨hlt', (hf1.used _).2 ⟨hu', fun heq => hfirst (List.mem_singleton.1 heq ▸ hb)⟩⟩
      rintro _ u ⟨v', hrep, huled, hf⟩
      refine ⟨v', hrep, ?_, ?_⟩
      · rw [huled, hled1, hled]
      have hfun : (fun j' => if j' ∈ j :: js then 0 else (v.ino i).addrs j') =
          fun j' => if j' ∈ js then 0 else (v1.ino i).addrs j' := by
        funext j'
        by_cases hjj : j' = j
        · subst hjj
          simp [hj, hf1.ino_self]
        · simp [hjj, haddrs j' hjj]
      rw [hfun, ← hrest]
      exact hf1.trans hf

/-- The nonzero words of an indirect block among those in `js`. -/
def wordList (f : ℕ → UInt8) (js : List ℕ) : List ℕ := (js.map (word f)).filter (· ≠ 0)

/-- The loop over the indirect block frees each block once. -/
theorem truncEntries_rule (h : Rep sb v D s) (hsb : sb.Laid) (ho : 1 ≤ s.outstanding) {ind : ℕ}
    (hind : sb.Area ind) (i : ℕ) (js : List ℕ) (hnd : (wordList (v.data ind) js).Nodup)
    (hused : ∀ b ∈ wordList (v.data ind) js, b < sb.size ∧ v.used b = true) :
    wp (truncEntries ind js) (fun _ t => ∃ v', Rep sb v' D t ∧ t.led = s.led ∧ t.icache = s.icache ∧
        v.Freed v' i (wordList (v.data ind) js) (v.ino i).addrs) Good s := by
  induction js generalizing s v with
  | nil => exact ⟨v, h, rfl, rfl, .refl v i⟩
  | cons j js ih =>
    have hword : word (s.blk ind) j = word (v.data ind) j := by rw [h.data _ hind]
    simp only [truncEntries, wp_run, hword]
    by_cases hz : word (v.data ind) j = 0
    · rw [show wordList (v.data ind) (j :: js) = wordList (v.data ind) js
        by simp [wordList, hz]] at hnd hused ⊢
      simp only [hz, ne_eq, not_true_eq_false, if_false]
      exact ih h ho hnd hused
    rw [show wordList (v.data ind) (j :: js) = word (v.data ind) j :: wordList (v.data ind) js by
      simp [wordList, hz]] at hnd hused ⊢
    obtain ⟨hfirst, hnd⟩ := List.nodup_cons.1 hnd
    obtain ⟨⟨hlt, hu⟩, hused⟩ := List.forall_mem_cons.1 hused
    simp only [hz, ne_eq, not_false_eq_true, if_true]
    refine wp_imp (bfree_rule h hsb hlt hu ho) ?_
    rintro _ t ⟨ht, hled, hic⟩
    have hout : t.outstanding = s.outstanding := congrArg Led.outstanding hled
    have hf1 := Volume.Freed.unmark v i (word (v.data ind) j)
    refine wp_imp (ih (v := v.setUsed (word (v.data ind) j) false) ht (hout.symm ▸ ho) hnd
      fun b hb => ?_) ?_
    · obtain ⟨hlt', hu'⟩ := hused b hb
      exact ⟨hlt', (hf1.used _).2 ⟨hu', fun heq => hfirst (List.mem_singleton.1 heq ▸ hb)⟩⟩
    · rintro _ u ⟨v', hrep, huled, huic, hf⟩
      exact ⟨v', hrep, huled.trans hled, huic.trans hic, hf1.trans hf⟩

/-- The blocks that the indirect slot gives back. -/
def indirectList (v : Volume) (i : ℕ) : List ℕ :=
  if (v.ino i).addrs 12 = 0 then []
  else wordList (v.data ((v.ino i).addrs 12).toNat) (List.range nindirect) ++
    [((v.ino i).addrs 12).toNat]

theorem word_eq_ptr (hind : (v.ino i).addrs 12 ≠ 0) {e : ℕ} (he : e < nindirect) :
    word (v.data ((v.ino i).addrs 12).toNat) e = v.ptr i (.entry ⟨e, he⟩) := (if_neg hind).symm

theorem truncIndirect_rule (h : Rep sb v D s) (hsb : sb.Laid) (hc : (s.icache ip).Caches i)
    (ho : 1 ≤ s.outstanding) {w : Volume} (hw : w.Owned sb)
    (hi : (w.ino i).addrs 12 ≠ 0 → w.Keeps sb i) (hdata : v.data = w.data)
    (hind : (v.ino i).addrs 12 = (w.ino i).addrs 12)
    (hused : ∀ k, (∀ j, k ≠ .direct j) → w.ptr i k ≠ 0 → v.used (w.ptr i k) = true) :
    wp (truncIndirect ip) (fun _ t => ∃ v', Rep sb v' D t ∧ t.led = s.led ∧
        v.Freed v' i (indirectList v i) (update (v.ino i).addrs 12 0)) Good s := by
  have hcopy : ∀ {t : Fs}, t.icache = s.icache → (t.icache ip).toDinode = v.ino i := fun ht => by
    rw [ht, h.copy ip i hc]
  have haddr : (s.icache ip).addrs 12 = (v.ino i).addrs 12 := congrFun (congrArg _ (hcopy rfl)) 12
  simp only [truncIndirect, wp_run, haddr, indirectList]
  by_cases hz : (v.ino i).addrs 12 = 0
  · simp only [hz, ne_eq, not_true_eq_false, if_false, if_true]
    refine ⟨v, h, trivial, ?_⟩
    rw [show update (v.ino i).addrs 12 0 = (v.ino i).addrs by
      rw [← hz, update_eq_self]]
    exact .refl v i
  have hp : w.ptr i .indirect ≠ 0 := fun h0 => hz (hind ▸ addrs_eq_zero.2 h0)
  have hi := hi (hind ▸ hz)
  have hptr : ((v.ino i).addrs 12).toNat = w.ptr i .indirect := by rw [hind]; rfl
  have harea : sb.Area ((v.ino i).addrs 12).toNat := hptr ▸ hw.area_of_ptr hi hp
  have hentry : ∀ {e} (he : e < nindirect), word (v.data ((v.ino i).addrs 12).toNat) e =
      w.ptr i (.entry ⟨e, he⟩) := by
    intro e he
    rw [hdata, hind]
    exact word_eq_ptr (hind ▸ hz) he
  simp only [hz, ne_eq, not_false_eq_true, if_true, if_false]
  refine wp_imp (truncEntries_rule h hsb ho harea i (List.range nindirect) ?_ fun b hb => ?_) ?_
  · rw [wordList, List.filter_map]
    refine (List.nodup_range.filter _).map_on fun e he e' he' heq => ?_
    obtain ⟨he, hne⟩ := List.mem_filter.1 he
    have hne : word _ e ≠ 0 := of_decide_eq_true hne
    rw [hentry (List.mem_range.1 he)] at hne heq
    rw [hentry (List.mem_range.1 (List.mem_of_mem_filter he'))] at heq
    exact congrArg Fin.val (Slot.entry.inj (hw.slot_eq hi hi hne heq).2)
  · obtain ⟨hb, hne⟩ := List.mem_filter.1 hb
    obtain ⟨e, he, rfl⟩ := List.mem_map.1 hb
    have hne : word _ e ≠ 0 := of_decide_eq_true hne
    rw [hentry (List.mem_range.1 he)] at hne ⊢
    exact ⟨(hw.area_of_ptr hi hne).2, hused _ (fun _ => nofun) hne⟩
  · rintro _ t ⟨v1, hrep1, hled1, hic1, hf1⟩
    have hout1 : t.outstanding = s.outstanding := congrArg Led.outstanding hled1
    have hu1 : v1.used ((v.ino i).addrs 12).toNat = true := by
      refine (hf1.used _).2 ⟨hptr ▸ hused .indirect (fun _ => nofun) hp, fun hmem => ?_⟩
      obtain ⟨hmem, -⟩ := List.mem_filter.1 hmem
      obtain ⟨e, he, heq⟩ := List.mem_map.1 hmem
      rw [hentry (List.mem_range.1 he), hptr] at heq
      cases (hw.slot_eq hi hi (heq ▸ hp) heq).2
    refine wp_imp (bfree_rule hrep1 hsb harea.2 hu1 (hout1.symm ▸ ho)) ?_
    rintro _ u ⟨hu, hled2, hic2⟩
    simp only [hcopy (hic2.trans hic1)]
    have hino : v1.ino i = v.ino i := hf1.ino_self
    have hf2 := Volume.Freed.one v1 i ((v.ino i).addrs 12).toNat 12
    rw [hino] at hf2
    have hc2 : (u.icache ip).Caches i := hic2.trans hic1 ▸ hc
    refine ⟨_, hu.setCopy hc2 _, ?_, hf1.trans hf2⟩
    have htype : ((v.ino i).setAddr 12 0).type = (v1.ino i).type := by
      rw [hino]
      rfl
    exact (hu.setCopy_led hc2 _ htype).trans (hled2.trans hled1)

theorem mem_directs {j : Fin 13} : j ∈ (List.finRange 12).map Fin.castSucc ↔ j ≠ 12 := by
  revert j
  decide

theorem nodup_directs : ((List.finRange 12).map Fin.castSucc).Nodup := by decide

/-- The two loops of `itrunc` give back what the slots of the inode hold. -/
theorem mem_freed {c : ℕ} : c ∈ addrList (v.ino i).addrs ((List.finRange 12).map Fin.castSucc) ++
    indirectList v i ↔ c ≠ 0 ∧ ∃ k, v.ptr i k = c := by
  have hdirect : c ∈ addrList (v.ino i).addrs ((List.finRange 12).map Fin.castSucc) ↔
      c ≠ 0 ∧ ∃ j, v.ptr i (.direct j) = c := by
    simp only [addrList, List.mem_map, List.mem_filter, List.mem_finRange, true_and,
      decide_eq_true_eq]
    constructor
    · rintro ⟨_, ⟨⟨j, rfl⟩, hne⟩, rfl⟩
      exact ⟨fun hz => hne (addrs_eq_zero.2 hz), j, rfl⟩
    · rintro ⟨hc, j, rfl⟩
      exact ⟨_, ⟨⟨j, rfl⟩, fun hz => hc (addrs_eq_zero.1 hz)⟩, rfl⟩
  have hindirect : c ∈ indirectList v i ↔
      c ≠ 0 ∧ (v.ptr i .indirect = c ∨ ∃ e, v.ptr i (.entry e) = c) := by
    unfold indirectList
    by_cases hz : (v.ino i).addrs 12 = 0
    · have hind : v.ptr i .indirect = 0 := addrs_eq_zero.1 hz
      have hentry : ∀ e, v.ptr i (.entry e) = 0 := fun e => if_pos hz
      simp only [hz, if_true, List.not_mem_nil, hind, hentry, exists_const, or_self, false_iff]
      exact fun ⟨hc, h0⟩ => hc h0.symm
    simp only [hz, if_false, List.mem_append, List.mem_singleton, wordList, List.mem_filter,
      List.mem_map, List.mem_range, decide_eq_true_eq]
    constructor
    · rintro (⟨⟨e, he, rfl⟩, hne⟩ | rfl)
      · exact ⟨hne, .inr ⟨⟨e, he⟩, (word_eq_ptr hz he).symm⟩⟩
      · exact ⟨fun h0 => hz (addrs_eq_zero.2 h0), .inl rfl⟩
    · rintro ⟨hc, rfl | ⟨e, rfl⟩⟩
      · exact .inr rfl
      · exact .inl ⟨⟨e, e.isLt, word_eq_ptr hz e.isLt⟩, hc⟩
  rw [List.mem_append, hdirect, hindirect, ← and_or_left]
  refine and_congr_right fun _ => ⟨?_, ?_⟩
  · rintro (⟨j, hj⟩ | hj | ⟨e, he⟩)
    · exact ⟨_, hj⟩
    · exact ⟨_, hj⟩
    · exact ⟨_, he⟩
  · rintro ⟨k, hk⟩
    cases k with
    | direct j => exact .inl ⟨j, hk⟩
    | indirect => exact .inr (.inl hk)
    | entry e => exact .inr (.inr ⟨e, hk⟩)

theorem Volume.Freed.trunc {l : List ℕ} (h : v.Freed v' i l fun _ => 0)
    (hl : ∀ c, c ∈ l ↔ c ≠ 0 ∧ ∃ k, v.ptr i k = c) :
    v'.setIno i { v'.ino i with size := 0 } = v.trunc i := by
  refine Volume.ext (funext fun c => ?_) ?_ h.data
  · rw [Bool.eq_iff_iff, Volume.used_trunc, ← hl]
    exact h.used c
  · show update v'.ino i _ = update v.ino i _
    rw [h.ino_self, h.ino, update_idem]

/-- `itrunc` gives all blocks of the file back. -/
theorem itrunc_rule (h : Rep sb v v.ino s) (hsb : sb.Laid) (hv : v.Base sb) (hi : i < sb.ninodes)
    (ht : (v.ino i).type ≠ 0) (hc : (s.icache ip).Caches i) (ho : 1 ≤ s.outstanding) :
    wp (itrunc ip) (fun _ t => Rep sb (v.trunc i) (v.trunc i).ino t ∧ t.led = s.led) Good s := by
  have hkeeps : ∀ j, (v.ino i).addrs j ≠ 0 → v.Keeps sb i := fun j hne =>
    ⟨hi, ht, fun htd => hne (hv.bare i hi htd j)⟩
  have hptr : ∀ j, v.ptr i (addrSlot j) = ((v.ino i).addrs j).toNat := fun j => ptr_addrSlot ..
  have hne : ∀ j, (v.ino i).addrs j ≠ 0 → v.ptr i (addrSlot j) ≠ 0 := fun j hj h0 =>
    hj (addrs_eq_zero.2 (hptr j ▸ h0))
  simp only [itrunc, wp_run, h.copy ip i hc]
  refine wp_imp (truncDirect_rule h hsb hc ho _ ?_ fun b hb => ?_) ?_
  · refine (nodup_directs.filter _).map_on fun j hjd j' hjd' heq => ?_
    obtain ⟨hjd, hj⟩ := List.mem_filter.1 hjd
    have hj : (v.ino i).addrs j ≠ 0 := of_decide_eq_true hj
    have hk := hkeeps j hj
    have hslot := (hv.toOwned.slot_eq hk hk (hne j hj) (l := addrSlot j') (by rw [hptr, hptr, heq])).2
    obtain ⟨a, -, rfl⟩ := List.mem_map.1 hjd
    obtain ⟨a', -, rfl⟩ := List.mem_map.1 (List.mem_of_mem_filter hjd')
    rw [addrSlot_castSucc, addrSlot_castSucc] at hslot
    rw [Slot.direct.inj hslot]
  · obtain ⟨j, hj, rfl⟩ := List.mem_map.1 hb
    have hj : (v.ino i).addrs j ≠ 0 := of_decide_eq_true (List.mem_filter.1 hj).2
    rw [← hptr]
    exact ⟨(hv.toOwned.area_of_ptr (hkeeps j hj) (hne j hj)).2,
      hv.toOwned.used_of_ptr (hkeeps j hj) (hne j hj)⟩
  rintro _ t ⟨v1, hrep1, hled1, hf1⟩
  have hc1 := hc.of_led hled1
  have hout1 : t.outstanding = s.outstanding := congrArg Led.outstanding hled1
  have hind : (v1.ino i).addrs 12 = (v.ino i).addrs 12 := by
    rw [hf1.ino_self]
    simp only [mem_directs, ne_eq, not_true_eq_false, if_false]
  refine wp_imp (truncIndirect_rule hrep1 hsb hc1 (hout1.symm ▸ ho) hv.toOwned (hkeeps 12) hf1.data
    hind ?_) ?_
  · intro k hk hp
    by_cases h12 : (v.ino i).addrs 12 = 0
    · cases k with
      | direct j => exact absurd rfl (hk j)
      | indirect => exact absurd (addrs_eq_zero.1 h12) hp
      | entry e => exact absurd (if_pos h12) hp
    have hki := hkeeps 12 h12
    refine (hf1.used _).2 ⟨hv.toOwned.used_of_ptr hki hp, fun hmem => ?_⟩
    obtain ⟨j, hj, heq⟩ := List.mem_map.1 hmem
    obtain ⟨a, -, rfl⟩ := List.mem_map.1 (List.mem_of_mem_filter hj)
    rw [← hptr, addrSlot_castSucc] at heq
    exact hk a (hv.toOwned.slot_eq hki hki hp heq.symm).2
  rintro _ u ⟨v2, hrep2, hled2, hf2⟩
  have hc2 := hc1.of_led hled2
  have hout2 : u.outstanding = t.outstanding := congrArg Led.outstanding hled2
  have hzero : update (v1.ino i).addrs 12 0 = fun _ => 0 := by
    funext j
    by_cases hj : j = 12
    · rw [hj, update_self]
    · rw [update_of_ne hj, hf1.ino_self]
      exact if_pos (mem_directs.2 hj)
  have hlist : indirectList v1 i = indirectList v i := by
    unfold indirectList
    rw [hind, hf1.data]
  rw [hzero, hlist] at hf2
  have htrunc := (hf1.trans hf2).trunc fun c => mem_freed
  have hcopy3 := hrep2.setCopy hc2 { v2.ino i with size := 0 }
  have hled3 : (u.setCopy ip { v2.ino i with size := 0 }).led = u.led := hrep2.setCopy_led hc2 _ rfl
  rw [htrunc] at hcopy3
  simp only [hrep2.copy ip i hc2]
  refine wp_imp (iupdate_rule hcopy3 hsb hi (by simpa using hc2) ?_) ?_
  · show 1 ≤ u.outstanding
    omega
  rintro _ w ⟨hrep, hled, -⟩
  have hino : update v.ino i ((v.trunc i).ino i) = (v.trunc i).ino := by
    show update v.ino i (update v.ino i _ i) = update v.ino i _
    rw [update_self]
  rw [hino] at hrep
  refine ⟨⟨hrep.sb_eq, hrep.super, hrep.used, hrep.ino, hrep.data, hrep.copy, hrep.disk,
    hrep.uniq, hrep.hist.given, ?_, hrep.hist.released⟩, ?_⟩
  · intro r hr
    rcases List.mem_cons.1 hr with rfl | hr
    · -- none of the blocks is marked any more
      intro c hc
      obtain ⟨hc0, k, hk⟩ := Volume.mem_blocks.1 hc
      rw [h.ptr_blk hv hi ht k] at hk
      have hki : v.Keeps sb i := by
        refine ⟨hi, ht, fun htd => hc0 ?_⟩
        rw [← hk]
        cases k with
        | direct j => exact addrs_eq_zero.1 (hv.bare i hi htd _)
        | indirect => exact addrs_eq_zero.1 (hv.bare i hi htd _)
        | entry e => exact if_pos (hv.bare i hi htd 12)
      have hlt : c < sb.size := hk ▸ (hv.toOwned.area_of_ptr hki (hk.symm ▸ hc0)).2
      show w.used c = false
      rw [hrep.used c hlt, ← Bool.not_eq_true, Volume.used_trunc]
      exact fun hu => hu.2 ⟨hc0, k, hk⟩
    · exact hrep.hist.truncated r hr
  · show w.led = s.led
    rw [hled, hled3, hled2, hled1]

end Xv6.Blocks

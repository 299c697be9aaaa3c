import Xv6Cow.Fs.Syscalls

/-!
# What every run of system calls keeps

From a consistent image every block of a file is held once, files have no holes, and the inode cache
is never ahead of the disk when a lock is released.  From any image the reference counts of inodes,
files and pipes are right between calls.
-/

namespace Xv6.Blocks

open Function Bytes Lts Prog Refs
open Names (Dirent dot dotdot)

/-! ## Consistent images -/

/-- The volume in the blocks. -/
def Fs.volume (s : Fs) : Volume := volumeOf s.sb s.blk s.dinode

/-- The image of a disk is consistent and its files have no holes. -/
structure Consistent (blk : ℕ → ℕ → UInt8) : Prop where
  laid : (superblockOf (blk 1)).Laid
  ok : (boot blk).volume.Ok (superblockOf (blk 1))

namespace Volume

variable {sb : Superblock} {v v' : Volume} {i : ℕ} {k : Slot}

/-- Only the marks of the disk, its inodes and the blocks of the data area matter. -/
structure Agree (sb : Superblock) (v v' : Volume) : Prop where
  used : ∀ b < sb.size, v'.used b = v.used b
  ino : ∀ i < sb.ninodes, v'.ino i = v.ino i
  data : ∀ b, sb.Area b → v'.data b = v.data b

namespace Agree

theorem keeps_iff (h : Agree sb v v') : v'.Keeps sb i ↔ v.Keeps sb i := by
  unfold Keeps
  constructor
  · rintro ⟨hi, ht⟩
    exact ⟨hi, h.ino i hi ▸ ht⟩
  · rintro ⟨hi, ht⟩
    exact ⟨hi, (h.ino i hi).symm ▸ ht⟩

section

variable (h : Agree sb v v') (ho : v.Owned sb)

include h ho

theorem ptr (hi : v.Keeps sb i) (k : Slot) : v'.ptr i k = v.ptr i k := by
  unfold Volume.ptr
  rw [h.ino i hi.1]
  refine Dinode.ptr_congr k fun hind => h.data _ ?_
  have hptr : v.ptr i .indirect ≠ 0 := fun hz => hind (addrs_eq_zero.2 hz)
  exact ho.area_of_ptr hi hptr

theorem own (x : ℕ × Slot) : v'.own sb x = v.own sb x := by
  by_cases hk : v.Keeps sb x.1
  · simp only [Volume.own, h.keeps_iff, h.ptr ho hk]
  · rw [own_none_of_not (mt h.keeps_iff.1 hk), own_none_of_not hk]

theorem owned : v'.Owned sb := by
  have hused : ∀ {x b}, v'.own sb x = some b → v'.used b = true := fun {x b} hx => by
    rw [h.own ho] at hx
    rw [h.used b (ho.area hx).2]
    exact ho.own.used hx
  refine ⟨⟨fun hx hy => ?_, hused⟩, fun hx => ho.area (h.own ho _ ▸ hx), fun hb hu => ?_⟩
  · rw [h.own ho] at hx hy
    exact ho.own.inj hx hy
  · rw [h.used _ hb.2] at hu
    obtain ⟨x, hx⟩ := ho.covers hb hu
    exact ⟨x, (h.own ho x).trans hx⟩

theorem full (hf : v.Full sb) : v'.Full sb := by
  intro i hi bn hbn
  have hk := h.keeps_iff.1 hi
  rw [h.ino i hi.1] at hbn
  rw [h.ptr ho hk]
  exact hf i hk bn hbn

end

theorem ok (h : Agree sb v v') (hv : v.Ok sb) : v'.Ok sb := by
  refine ⟨⟨h.owned hv.toOwned, fun b hb => ?_, h.full hv.toOwned hv.full, fun i hi => ?_⟩,
    fun i hi ht k hk => ?_⟩
  · rw [h.used b (hb.trans_le (Nat.sub_le ..)), hv.fixed b hb]
  · rw [h.ino i hi]
    exact hv.bare i hi
  have hi' := h.keeps_iff.1 hi
  rw [h.ino i hi.1] at ht hk
  refine (le_congr fun x hx => ?_).trans_lt (hv.named i hi' ht k hk)
  have hp := (hv.full i hi' ((direntSize * k + (0 + x)) / bsize)
    (by unfold direntSize bsize at *; omega)).2
  rw [Volume.byteAt, Volume.byteAt, h.ptr hv.toOwned hi', h.data _ (hv.area_of_ptr hi' hp)]

end Agree

end Volume

/-! ## The state at the start -/

/-- The inode cache at the start: one entry, for the current directory of the first process. -/
theorem boot_icache (blk : ℕ → ℕ → UInt8) (ip : Iptr) : (boot blk).led.icache ip =
    if ip = 0 then ⟨rootdev, rootino, 1, false, false, false⟩ else ⟨0, 0, 0, false, false, false⟩ := by
  by_cases hip : ip = 0
  · subst hip
    rfl
  rw [if_neg hip]
  show (update (fun _ => Inode.unused) 0 _ ip).toHandle = _
  rw [update_of_ne hip]
  rfl

variable {blk : ℕ → ℕ → UInt8}

theorem boot_ref {ip : Iptr} (h : 0 < ((boot blk).led.icache ip).ref) : ip = 0 := by
  by_contra hip
  rw [boot_icache, if_neg hip] at h
  cases h

theorem boot_refs (blk : ℕ → ℕ → UInt8) :
    Balanced (fun ip => ((boot blk).led.icache ip).ref) ((boot blk).led.holds none) 0 := by
  have hzero : Balanced (fun _ : Iptr => 0) (fun _ : Fid ⊕ Pid => none) 0 := fun ip => by simp [holders]
  have hone : Balanced (fun ip => ((boot blk).led.icache ip).ref)
    (fun _ : Fid ⊕ Pid => none) (0 ::ₘ 0) := by
    refine hzero.inc ?_ fun ip hip => ?_
    · rw [boot_icache, if_pos rfl]
    · rw [boot_icache, if_neg hip]
  refine hone.give (a := .inr initproc) rfl rfl fun a ha => ?_
  cases a with
  | inl f => rfl
  | inr p =>
    have hp : p ≠ initproc := fun heq => ha (congrArg _ heq)
    exact Led.holds_dead (decide_eq_false hp) none

theorem boot_ledger (blk : ℕ → ℕ → UInt8) : Ledger (Ctx.idle (boot blk)) (boot blk).led := by
  refine ⟨rfl, rfl, boot_refs blk, fun f => ?_, fun e => ?_, (by rintro _ ⟨⟩), fun ip hip => ?_,
    fun ip => ?_,
    fun ip jp hip hjp _ => ?_, fun _ _ => rfl, fun _ _ _ _ => rfl, ⟨rfl, rfl, rfl⟩, fun _ => rfl,
      (by rintro _ _ ⟨⟩)⟩
  · simp [holders, Led.descs, Fs.led, boot, Ctx.idle]
  · simp [holders, Led.openEnds, File.pipeEnd, Fs.led, boot, Ctx.idle]
  · rw [boot_icache] at hip
    split at hip <;> cases hip
  · rw [boot_icache]
    split
    · exact ⟨(by rintro ⟨⟩), (by rintro ⟨⟩), fun _ => rfl, fun _ => rfl⟩
    · exact ⟨(by rintro ⟨⟩), (by rintro ⟨⟩), (by rintro ⟨⟩), (by rintro ⟨⟩)⟩
  · rw [boot_ref hip, boot_ref hjp]

theorem boot_content (h : Consistent blk) :
    Content (superblockOf (blk 1)) (boot blk).volume (boot blk) := by
  have hnone : ∀ ip i, ¬ ((boot blk).icache ip).Caches i := by
    rintro ip i ⟨-, hvalid, -⟩
    have hc := boot_icache blk ip
    rw [show ((boot blk).icache ip).valid = ((boot blk).led.icache ip).valid from rfl, hc] at hvalid
    split at hvalid <;> cases hvalid
  refine ⟨h.laid, ⟨rfl, rfl, fun _ _ => rfl, fun _ _ => rfl, fun _ _ => rfl, fun ip i hc => ?_,
    fun _ _ _ => rfl, fun ip _ i hc => ?_, ⟨nofun, nofun, nofun⟩⟩, h.ok, fun ip hpos => ?_,
      fun ip i hc => ?_,
    nofun, nofun⟩
  · exact absurd hc (hnone ip i)
  · exact absurd hc (hnone ip i)
  · rw [boot_ref hpos]
    exact h.laid.root
  · exact absurd hc (hnone ip i)

theorem boot_idle {good : Prop} (h : good → Consistent blk) :
    Idle good (superblockOf (blk 1)) (boot blk) :=
  ⟨boot_ledger blk, fun hg => ⟨_, boot_content (h hg), trivial⟩⟩

/-! ## Small disks -/

namespace Volume

variable {sb : Superblock} {v : Volume}

/-- How many blocks hold `n` bytes. -/
def blocksFor (n : ℕ) : ℕ := (n + (bsize - 1)) / bsize

theorem full_iff : v.Full sb ↔ ∀ i < sb.ninodes, v.Keeps sb i →
    ∀ bn < blocksFor (v.ino i).size.toNat, bn < maxfile ∧ v.ptr i (slotOf bn) ≠ 0 := by
  have hlt : ∀ n bn, bn < blocksFor n ↔ bn * bsize < n := fun n bn => by
    unfold blocksFor bsize
    omega
  simp only [Full, Mapped, hlt]
  exact ⟨fun h i _ => h i, fun h i hi => h i hi.1 hi⟩

instance : Decidable (v.Full sb) := decidable_of_iff' _ full_iff

end Volume

/-- A disk of 64 blocks with 16 inodes, of which the blocks below `n` are marked. -/
def smallDisk (ino : ℕ → Dinode) (n : ℕ) (data : ℕ → ℕ → UInt8) (b o : ℕ) : UInt8 :=
  if b = 1 then leByte ([64, 29, 16, 30, 2, 32, 34].getD (o / 4) 0) (o % 4)
  else if b = 32 ∨ b = 33 then (ino ((b - 32) * 8 + o / 64)).byte (o % 64)
  else if b = 34 then UInt8.ofNat (2 ^ min 8 (n - o * 8) - 1)
  else data b o

/-- The block of a directory with the given entries. -/
def dirBlock (es : List Names.Dirent) (o : ℕ) : UInt8 :=
  direntByte (es.getD (o / direntSize) ⟨0, []⟩) (o % direntSize)

def addrsOf (bs : List ℕ) (j : Fin 13) : UInt32 := UInt32.ofNat (bs.getD j 0)

def rootInode : Dinode := ⟨tDir, 0, 0, 1, 32, addrsOf [35]⟩

/-- Only the root directory. -/
def rootDisk : ℕ → ℕ → UInt8 :=
  smallDisk (fun i => if i = rootino then rootInode else .fresh 0) 36
    fun b => if b = 35 then dirBlock [⟨rootino, ['.']⟩, ⟨rootino, ['.', '.']⟩] else fun _ => 0

theorem rootDisk_eval : superblockOf (rootDisk 1) = ⟨64, 29, 16, 30, 2, 32, 34⟩ ∧
    (∀ i < 16, (boot rootDisk).volume.Keeps (superblockOf (rootDisk 1)) i ↔ i = rootino) ∧
    (∀ j, ((boot rootDisk).volume.ino rootino).addrs j = if j = 0 then 35 else 0) ∧
    (∀ b < 64, (boot rootDisk).volume.used b = decide (b < 36)) ∧
    (boot rootDisk).volume.Full (superblockOf (rootDisk 1)) ∧
    ((boot rootDisk).volume.ino rootino).size.toNat = 32 ∧
    (∀ i < 16, ((boot rootDisk).volume.ino i).type ≠ tDev) ∧
    ∀ k < 2, le (fun x => (boot rootDisk).volume.byteAt rootino (direntSize * k + x)) 0 2 < 16 := by
  decide +kernel

theorem rootDisk_sb : superblockOf (rootDisk 1) = ⟨64, 29, 16, 30, 2, 32, 34⟩ := rootDisk_eval.1

theorem rootDisk_keeps {i : ℕ} : (boot rootDisk).volume.Keeps
    (superblockOf (rootDisk 1)) i ↔ i = rootino := by
  obtain ⟨-, hall, -⟩ := rootDisk_eval
  constructor
  · intro hi
    have hlt := hi.1
    rw [rootDisk_sb] at hlt
    exact (hall i hlt).1 hi
  · rintro rfl
    exact (hall _ (by decide)).2 rfl

theorem rootDisk_ptr (k : Slot) :
    (boot rootDisk).volume.ptr rootino k = if k = .direct 0 then 35 else 0 := by
  obtain ⟨-, -, haddrs, -⟩ := rootDisk_eval
  unfold Volume.ptr
  cases k with
  | direct j =>
    show (((boot rootDisk).volume.ino rootino).addrs j.castSucc).toNat = _
    rw [haddrs]
    revert j
    decide
  | indirect =>
    show (((boot rootDisk).volume.ino rootino).addrs 12).toNat = _
    rw [haddrs]
    rfl
  | entry j =>
    have hzero : ((boot rootDisk).volume.ino rootino).addrs 12 = 0 := haddrs 12
    simp [Dinode.ptr, hzero]

theorem rootDisk_own {x : ℕ × Slot} {b : ℕ} :
    (boot rootDisk).volume.own (superblockOf (rootDisk 1)) x = some b ↔
    x = (rootino, .direct 0) ∧ b = 35 := by
  obtain ⟨i, k⟩ := x
  simp only [Volume.own, rootDisk_keeps]
  by_cases hi : i = rootino
  · subst hi
    rw [rootDisk_ptr]
    by_cases hk : k = .direct 0
    · simp [hk, eq_comm]
    · simp [hk]
  · simp [hi]

theorem rootDisk_consistent : Consistent rootDisk where
  laid := by
    rw [rootDisk_sb]
    exact ⟨by decide, by decide, by decide, by decide, by decide⟩
  ok := by
    obtain ⟨-, -, -, hused, hfull, htype, hdev, hnames⟩ := rootDisk_eval
    refine ⟨⟨⟨⟨fun hx hy => ?_, fun hx => ?_⟩, fun hx => ?_, fun hb hu => ⟨(rootino, .direct 0), ?_⟩⟩,
      fun b hb => ?_, hfull, fun i hi hti => ?_⟩, fun i hi _ k hk => ?_⟩
    · rw [(rootDisk_own.1 hx).1, (rootDisk_own.1 hy).1]
    · rw [(rootDisk_own.1 hx).2]
      exact hused 35 (by decide)
    · rw [(rootDisk_own.1 hx).2, rootDisk_sb]
      decide
    · rw [rootDisk_sb] at hb
      rw [hused _ hb.2, decide_eq_true_iff] at hu
      have hge : 35 ≤ _ := hb.1
      exact rootDisk_own.2 ⟨rfl, by omega⟩
    · rw [rootDisk_sb] at hb
      have hb : b < 35 := hb
      rw [hused b (by omega), decide_eq_true_iff]
      omega
    · rw [rootDisk_sb] at hi
      exact absurd hti (hdev i hi)
    · obtain rfl := rootDisk_keeps.1 hi
      rw [htype] at hk
      rw [rootDisk_sb]
      unfold direntSize at hk
      exact hnames k (by omega)

theorem run_after {cs : List Call} (h : (cs.foldlM Fs.step (boot blk)).isSome = true) :
    Run (ofFun Fs.step) (boot blk) cs (after blk cs) := by
  obtain ⟨t, ht⟩ := Option.isSome_iff_exists.1 h
  have hafter : after blk cs = t := by simp [after, ht]
  rw [hafter]
  exact Run.of_foldlM ht

/-! ## Runs from a consistent image -/

section Consistent

variable {blk : ℕ → ℕ → UInt8} {cs : List Call} {s t u : Fs} {e : Stop}

theorem run_consistent (h : Consistent blk) (hrun : Run (ofFun Fs.step) (boot blk) cs t) :
    Idle True (superblockOf (blk 1)) t := run_idle (boot_idle fun _ => h) hrun

variable {sb : Superblock}

/-- The volume that the blocks represent is the one that can be read from them. -/
theorem Content.agree {v : Volume} (h : Content sb v s) : Volume.Agree sb v s.volume := by
  obtain rfl := h.rep.sb_eq
  exact ⟨h.rep.used, h.rep.ino, h.rep.data⟩

theorem Rests.content (h : Idle True sb s) : ∃ v, Content sb v s := by
  obtain ⟨v, hv, -⟩ := At.content h trivial
  exact ⟨v, hv⟩

theorem Rests.unlocked {good : Prop} {K : Volume → Led → Prop} (h : Rests good K sb s)
    (ip : Iptr) : (s.icache ip).locked = false := by
  refine Bool.eq_false_iff.2 fun hip => ?_
  obtain ⟨ty, hty⟩ := h.ledger.held ip hip
  cases hty

theorem stops_good (h : Idle True sb s) {x : Call} (hx : x.enabled s = true)
    (hr : x.run s = .error e u) : Good e u := by
  have hrun := run_at h hx
  unfold wp at hrun
  rw [hr] at hrun
  exact hrun trivial

/-- No block in use is handed out. -/
def GivesFree (s : Fs) : Prop :=
  ∀ g ∈ s.hist.given, ∀ x, (g.volume s.sb).own s.sb x ≠ some g.block

/-- A file that is truncated loses every block. -/
def TruncatesAll (s : Fs) : Prop := ∀ r ∈ s.hist.truncated, ∀ b ∈ r.blocks, r.used b = false

/-- Between calls every block in use has one owner, so `balloc` gives only free blocks and `itrunc` gives
all blocks of a file back; a call that panics has kept this too. -/
theorem blocks_owned (h : Consistent blk) (hrun : Run (ofFun Fs.step) (boot blk) cs s) :
    s.volume.Owned s.sb ∧ GivesFree s ∧ TruncatesAll s ∧
      ∀ x : Call, x.enabled s = true → ∀ e t, x.run s = .error e t →
        GivesFree t ∧ TruncatesAll t ∧ e ≠ .panic "freeing free block" ∧
          (e = .panic "balloc: out of blocks" → ∀ b < t.sb.size, t.used b = true) := by
  have hs := run_consistent h hrun
  obtain ⟨v, hv⟩ := hs.content
  have hhist := hv.rep.histOk
  refine ⟨?_, fun g hg => (hhist.given g hg).2, hhist.truncated, fun x hx e t hr => ?_⟩
  · rw [hv.rep.sb_eq]
    exact hv.agree.owned hv.ok.toOwned
  · have hgood := stops_good hs hx hr
    exact ⟨fun g hg => (hgood.hist.given g hg).2, hgood.hist.truncated, hgood.notFree,
      fun he => (hgood.outOfBlocks he).2⟩

/-- A file is made and written, loses its name, and is closed. -/
def scratchCalls : List Call :=
  [.openFile 0 ['f'] 0x202, .write 0 0 [1, 2, 3, 4], .unlink 0 ['/', 'f'], .close 0 0]

theorem scratch_eval : (scratchCalls.foldlM Fs.step (boot rootDisk)).isSome = true ∧
    (after rootDisk scratchCalls).hist.given.length = 1 ∧
    (after rootDisk scratchCalls).hist.truncated.length = 1 ∧
    (after rootDisk scratchCalls).hist.released.length ≠ 0 ∧
    0 < ((after rootDisk scratchCalls).icache 0).ref := by decide +kernel

theorem scratch_runs : Run (ofFun Fs.step) (boot rootDisk) scratchCalls (after rootDisk scratchCalls) :=
  run_after scratch_eval.1

theorem blocks_owned_scratch : Consistent rootDisk ∧
    (after rootDisk scratchCalls).volume.Owned (after rootDisk scratchCalls).sb ∧
    (after rootDisk scratchCalls).hist.given.length = 1 ∧ GivesFree (after rootDisk scratchCalls) ∧
    (after rootDisk scratchCalls).hist.truncated.length = 1 ∧
      TruncatesAll (after rootDisk scratchCalls) := by
  obtain ⟨howned, hgiven, htrunc, -⟩ := blocks_owned rootDisk_consistent scratch_runs
  obtain ⟨-, hone, htwo, -⟩ := scratch_eval
  exact ⟨rootDisk_consistent, howned, hone, hgiven, htwo, htrunc⟩

/-- No block is handed out for a read. -/
def ReadsOnly (s : Fs) : Prop := ∀ g ∈ s.hist.given, g.reading = false

/-- Files have a block wherever their size says so, so reading allocates nothing and logs nothing. -/
theorem no_holes (h : Consistent blk) (hrun : Run (ofFun Fs.step) (boot blk) cs s) :
    s.volume.Full s.sb ∧ ReadsOnly s ∧
      ∀ x : Call, x.enabled s = true → ∀ e t, x.run s = .error e t →
        ReadsOnly t ∧ e ≠ .panic "log_write outside of trans" ∧
          (e = .panic "too big a transaction" → 1 ≤ t.outstanding) := by
  have hs := run_consistent h hrun
  obtain ⟨v, hv⟩ := hs.content
  refine ⟨?_, fun g hg => (hv.rep.hist.given g hg).1, fun x hx e t hr => ?_⟩
  · rw [hv.rep.sb_eq]
    exact hv.agree.full hv.ok.toOwned hv.ok.full
  · have hgood := stops_good hs hx hr
    exact ⟨fun g hg => (hgood.hist.given g hg).1, hgood.inTrans, hgood.tooBig⟩

theorem no_holes_scratch : Consistent rootDisk ∧
    (after rootDisk scratchCalls).volume.Full (after rootDisk scratchCalls).sb ∧
    (after rootDisk scratchCalls).hist.given.length = 1 ∧ ReadsOnly (after rootDisk scratchCalls) := by
  obtain ⟨hfull, hreads, -⟩ := no_holes rootDisk_consistent scratch_runs
  exact ⟨rootDisk_consistent, hfull, scratch_eval.2.1, hreads⟩

/-- The disk stays consistent, so the kernel can start from it again; the superblock stays the same, no
file grows past `MAXFILE` blocks, and no directory is open for writing. -/
theorem disk_kept (h : Consistent blk) (hrun : Run (ofFun Fs.step) (boot blk) cs s) :
    Consistent s.blk ∧ superblockOf (s.blk 1) = superblockOf (blk 1) ∧
      (∀ i, s.volume.Keeps s.sb i → (s.volume.ino i).size.toNat ≤ maxfile * bsize) ∧
      ∀ f ip, (s.ftable f).type = .inode ip → (s.ftable f).writable = true →
        (s.volume.ino (s.icache ip).inum).type ≠ tDir := by
  have hs := run_consistent h hrun
  obtain ⟨v, hv⟩ := hs.content
  have hsb := hv.rep.sb_eq
  have hsuper := hv.rep.super
  have hok := hv.agree.ok hv.ok
  refine ⟨⟨hsuper ▸ h.laid, ?_⟩, hsuper, fun i hi => ?_, fun f ip hf hw => ?_⟩
  · have hmount : (boot s.blk).sb = s.sb := hsuper.trans hsb.symm
    have hboot : (boot s.blk).volume = s.volume := by
      unfold Fs.volume Fs.dinode
      rw [hmount]
      rfl
    rw [hboot, hsuper]
    exact hok
  · rw [hsb] at hi
    by_contra hbig
    have hfull := hok.full i hi maxfile (by omega)
    exact lt_irrefl _ hfull.1
  · have hlt := hv.lt ip (hs.ledger.pos_of_file hf)
    have hino : s.volume.ino (s.icache ip).inum = v.ino (s.icache ip).inum := hv.rep.ino _ hlt
    rw [hino]
    exact (hv.writable f ip hf hw).2

theorem disk_kept_scratch : Consistent (after rootDisk scratchCalls).blk :=
  (disk_kept rootDisk_consistent scratch_runs).1

/-- The first block of `/b` is the block with the inodes: no file has a hole, but the block is
not of the data area. -/
def tableDisk : ℕ → ℕ → UInt8 :=
  smallDisk
    (fun i => match i with
      | 1 => ⟨tDir, 0, 0, 1, 64, addrsOf [35]⟩
      | 2 => ⟨tFile, 0, 0, 1, 512, addrsOf [36]⟩
      | 3 => ⟨tFile, 0, 0, 1, 512, addrsOf [32]⟩
      | _ => .fresh 0)
    37
    (fun b => if b = 35 then dirBlock [⟨1, ['.']⟩, ⟨1, ['.', '.']⟩, ⟨2, ['a']⟩, ⟨3, ['b']⟩]
      else fun _ => 0)

/-- A write to `/b` takes the first block from `/a`. -/
def holeCalls : List Call :=
  [.openFile 0 ['/', 'b'] 2, .read 0 0 140 none, .write 0 0 [0, 0, 0, 0], .openFile 0 ['/', 'a'] 0]

/-- A read of `/a` then hands out a block. -/
theorem read_allocates : (boot tableDisk).volume.Full (boot tableDisk).sb ∧
    Run (ofFun Fs.step) (boot tableDisk) holeCalls (after tableDisk holeCalls) ∧
    ¬ (after tableDisk holeCalls).volume.Full (after tableDisk holeCalls).sb ∧
    (Call.read 0 1 1 none).enabled (after tableDisk holeCalls) = true ∧
    (Call.read 0 1 1 none).stops (after tableDisk holeCalls) = some (.panic "log_write outside of trans") := by
  refine ⟨by decide +kernel, run_after (by decide +kernel), by decide +kernel, by decide +kernel, ?_⟩
  decide +kernel

/-- The copy of a released inode was as on the disk. -/
def ReleasesWritten (s : Fs) : Prop := ∀ x ∈ s.hist.released, x.1 = x.2

/-- The copy of the inode is thrown away. -/
def Fs.evict (s : Fs) (ip : Iptr) : Fs := s.setHandle ip { (s.icache ip).toHandle with valid := false }

section

variable {ip : Iptr} (hpos : 0 < (s.icache ip).ref) (hun : (s.icache ip).locked = false)

include hpos hun

theorem ilock_of_valid (hval : (s.icache ip).valid = true) :
    ilock ip s = .ok () (s.setInode ip { s.icache ip with locked := true }) := by
  have hge : ¬ (s.icache ip).ref < 1 := by omega
  simp [ilock, acquiresleep, Fs.setHandle, bind, EStateM.bind, get, getThe, MonadStateOf.get,
    EStateM.get, set, EStateM.set, pure, EStateM.pure, hge, hun, hval]

theorem ilock_of_invalid
    (hval : (s.icache ip).valid = false) (htype : (s.dinode (s.icache ip).inum).type ≠ 0) :
    ilock ip s = .ok () (s.setInode ip
      { s.icache ip with toDinode := s.dinode (s.icache ip).inum, valid := true, locked := true }) := by
  have hge : ¬ (s.icache ip).ref < 1 := by omega
  simp [ilock, acquiresleep, Fs.setHandle, bind, EStateM.bind, get, getThe, MonadStateOf.get,
    EStateM.get, set,
    EStateM.set, pure, EStateM.pure, hge, hun, hval, Fs.setInode_dinode, htype, Fs.setInode_setInode]

/-- An entry that is as on the disk can be read again. -/
theorem ilock_evict
    (hcopy : (s.icache ip).valid = true → (s.icache ip).toDinode = s.dinode (s.icache ip).inum ∧
      (s.icache ip).type ≠ 0) : ilock ip (s.evict ip) = ilock ip s := by
  by_cases hval : (s.icache ip).valid = true
  · obtain ⟨hd, htype⟩ := hcopy hval
    have hic : (s.evict ip).icache ip = { s.icache ip with valid := false } :=
      s.setInode_icache_self ip _
    have hdisk : (s.evict ip).dinode (s.icache ip).inum = s.dinode (s.icache ip).inum := rfl
    rw [ilock_of_valid hpos hun hval, ilock_of_invalid (by rw [hic]; exact hpos)
      (by rw [hic]; exact hun)
      (by rw [hic]) (by rw [hic, hdisk, ← hd]; exact htype), hic, hdisk, ← hd]
    show EStateM.Result.ok () ((s.setInode ip _).setInode ip _) = _
    rw [Fs.setInode_setInode, ← hval]
  · have hsame : s.evict ip = s := by
      unfold Fs.evict Fs.setHandle Fs.setInode
      rw [← Bool.eq_false_iff.2 hval, update_eq_self]
    rw [hsame]

end

/-- An inode whose lock is released is on the disk as it is in the cache. -/
theorem cache_written (h : Consistent blk) (hrun : Run (ofFun Fs.step) (boot blk) cs s) :
    ReleasesWritten s ∧ (∀ i < s.sb.ninodes, ∀ d, s.hist.last i = some d → s.dinode i = d) ∧
      (∀ ip, 0 < (s.icache ip).ref → ilock ip (s.evict ip) = ilock ip s) ∧
      ∀ x : Call, x.enabled s = true → ∀ e t, x.run s = .error e t → ReleasesWritten t := by
  have hs := run_consistent h hrun
  obtain ⟨v, hv⟩ := hs.content
  refine ⟨hv.rep.hist.released, fun i hi d hd => ?_, fun ip hpos => ?_, fun x hx e t hr => ?_⟩
  · rw [hv.rep.sb_eq] at hi
    rw [hv.rep.ino i hi]
    refine ((hv.last i d hd).2 fun ip hip => ?_).symm
    rw [hs.unlocked ip] at hip
    cases hip
  · refine ilock_evict hpos (hs.unlocked ip) fun hval => ?_
    have hc : (s.icache ip).Caches (s.icache ip).inum := ⟨hpos, hval, rfl⟩
    have hcopy := hv.rep.copy ip _ hc
    refine ⟨hcopy.trans (hv.rep.ino _ (hv.lt ip hpos)).symm, ?_⟩
    rw [hcopy]
    exact hv.valid ip _ hc
  · exact (stops_good hs hx hr).hist.released

theorem cache_written_scratch : Consistent rootDisk ∧ ReleasesWritten (after rootDisk scratchCalls) ∧
    (after rootDisk scratchCalls).hist.released.length ≠ 0 ∧
    0 < ((after rootDisk scratchCalls).icache 0).ref ∧
    ilock 0 ((after rootDisk scratchCalls).evict 0) = ilock 0 (after rootDisk scratchCalls) := by
  obtain ⟨hreleased, -, hevict, -⟩ := cache_written rootDisk_consistent scratch_runs
  obtain ⟨-, -, -, hlen, hpos⟩ := scratch_eval
  exact ⟨rootDisk_consistent, hreleased, hlen, hpos, hevict 0 hpos⟩

/-- A write to `/b` changes the link count of `/a` on the disk while `/a` is open. -/
def tableCalls : List Call :=
  [.openFile 0 ['/', 'a'] 0, .openFile 0 ['/', 'b'] 2, .read 0 1 134 none,
  .write 0 1 [9, 0], .fstat 0 0]

/-- The cached `/a` is released with the old link count. -/
theorem released_stale : (boot tableDisk).volume.Full (boot tableDisk).sb ∧
    Run (ofFun Fs.step) (boot tableDisk) tableCalls (after tableDisk tableCalls) ∧
    ¬ ReleasesWritten (after tableDisk tableCalls) := by
  refine ⟨by decide +kernel, run_after (by decide +kernel), ?_⟩
  unfold ReleasesWritten
  decide +kernel

end Consistent

/-! ## Reference counts, whatever the image -/

section Counts

variable {blk : ℕ → ℕ → UInt8} {cs : List Call} {s : Fs}

theorem run_counts (hrun : Run (ofFun Fs.step) (boot blk) cs s) : Ledger (Ctx.idle s) s.led :=
  have hboot : Idle False (superblockOf (blk 1)) (boot blk) := boot_idle False.elim
  (run_idle hboot hrun).ledger

/-- The open files that refer to the inode. -/
def Fs.openings (s : Fs) (ip : Iptr) : ℕ :=
  (Finset.univ.filter fun f => 0 < (s.ftable f).ref ∧ (s.ftable f).type = .inode ip).card

/-- The processes in the directory. -/
def Fs.visitors (s : Fs) (ip : Iptr) : ℕ :=
  (Finset.univ.filter fun p => s.live p = true ∧ s.cwd p = ip).card

theorem FileType.ip_eq_some {y : FileType} {ip : Iptr} : y.ip = some ip ↔ y = .inode ip := by
  cases y <;> simp [FileType.ip]

theorem holders_files (hl : Ledger (Ctx.idle s) s.led) (ip : Iptr) :
    holders (fun f => s.led.holds none (.inl f)) ip = s.openings ip := by
  refine holders_eq_card fun f => ?_
  refine FileType.ip_eq_some.trans ⟨fun hf => ⟨Nat.pos_of_ne_zero fun hzero => ?_, hf⟩, And.right⟩
  have hnone := hl.idle f hzero
  rw [hf] at hnone
  cases hnone

theorem holders_procs (s : Fs) (ip : Iptr) :
    holders (fun p => s.led.holds none (.inr p)) ip = s.visitors ip := by
  refine holders_eq_card fun p => ?_
  simp [Led.holds, Fs.led]

/-- The count of an inode is the number of open files and working directories that hold it. -/
theorem inode_refs (hrun : Run (ofFun Fs.step) (boot blk) cs s) :
    (∀ ip jp, 0 < (s.icache ip).ref → 0 < (s.icache jp).ref → (s.icache ip).dev = (s.icache jp).dev →
      (s.icache ip).inum = (s.icache jp).inum → ip = jp) ∧
    (∀ ip, (s.icache ip).ref = s.openings ip + s.visitors ip) ∧ s.outstanding = 0 ∧
      ∀ ip, 0 < (s.icache ip).ref → (s.icache ip).freed = false := by
  have hl := run_counts hrun
  refine ⟨fun ip jp hi hj _ heq => hl.uniq ip jp hi hj heq, fun ip => ?_, hl.out,
    fun ip hi => (hl.fits ip).freed hi⟩
  have href : (s.icache ip).ref = holders (s.led.holds none) ip + 0 := hl.refs ip
  rw [href, holders_sum, holders_files hl, holders_procs]
  rfl

/-- Two processes share a file and the end of a pipe; one of them moves to another directory. -/
def sharedCalls : List Call :=
  [.mkdir 0 ['d'], .openFile 0 ['/'] 0, .dup 0 0, .openFile 0 ['d', '/', 'x', '/'] 0, .pipe 0 (some 0),
    .fork 0 (some 1), .chdir 1 ['d'], .close 0 3]

theorem shared_eval : (sharedCalls.foldlM Fs.step (boot rootDisk)).isSome = true ∧
    ((after rootDisk sharedCalls).icache 0).ref = 2 ∧ ((after rootDisk sharedCalls).ftable 0).ref = 4 ∧
    ((after rootDisk sharedCalls).pipes 0).any (·.isOpen true) = true := by decide +kernel

theorem shared_runs : Run (ofFun Fs.step) (boot rootDisk) sharedCalls (after rootDisk sharedCalls) :=
  run_after shared_eval.1

theorem inode_refs_shared : ((after rootDisk sharedCalls).icache 0).ref = 2 ∧
    (after rootDisk sharedCalls).openings 0 + (after rootDisk sharedCalls).visitors 0 = 2 ∧
    (after rootDisk sharedCalls).outstanding = 0 := by
  obtain ⟨-, hrefs, hout, -⟩ := inode_refs shared_runs
  have href := shared_eval.2.1
  exact ⟨href, (hrefs 0).symm.trans href, hout⟩

/-- Some process has a descriptor for the end of the pipe. -/
def Fs.HasEnd (s : Fs) (page : ℕ) (writable : Bool) : Prop :=
  ∃ p fd f, s.live p = true ∧ s.ofile p fd = some f ∧ (s.ftable f).type = .pipe page ∧
    (s.ftable f).writable = writable

/-- The descriptors that refer to the file. -/
def Fs.descriptors (s : Fs) (f : Fid) : ℕ :=
  (Finset.univ.filter fun x : Pid × Fd => s.live x.1 = true ∧ s.ofile x.1 x.2 = some f).card

theorem descriptors_eq (hl : Ledger (Ctx.idle s) s.led) (f : Fid) :
    (s.ftable f).ref = s.descriptors f := by
  have hcard : holders (s.led.descs none) f = s.descriptors f := by
    refine holders_eq_card fun x => ?_
    rw [s.led.descs_none]
    refine ⟨fun hx => ⟨?_, hx⟩, And.right⟩
    by_contra hdead
    have hnone := hl.dead x.1 (Bool.eq_false_iff.2 hdead) nofun x.2
    rw [hx] at hnone
    cases hnone
  have href : (s.ftable f).ref = holders (s.led.descs none) f + 0 := hl.frefs f
  rw [href, hcard, Nat.add_zero]

theorem pipeEnd_eq_some {x : File} {page : ℕ} {w : Bool} :
    x.pipeEnd = some (page, w) ↔ x.type = .pipe page ∧ x.writable = w := by
  unfold File.pipeEnd
  split
  · next q hq => simp [hq]
  · next hne =>
    simp only [reduceCtorEq, false_iff, not_and]
    exact fun hq => absurd hq (hne page)

section

variable (hl : Ledger (Ctx.idle s) s.led) (page : ℕ)

include hl page

/-- An end of a pipe is open as long as it is a file, and a file as long as it has a descriptor. -/
theorem openEnds_pos (w : Bool) : 0 < s.led.openEnds (page, w) ↔ s.HasEnd page w := by
  have hends : s.led.openEnds (page, w) = holders (fun f => (s.led.ftable f).pipeEnd) (page, w) + 0 :=
    hl.ends (page, w)
  rw [hends, Nat.add_zero, holders, card_filter_pos]
  constructor
  · rintro ⟨f, hf⟩
    obtain ⟨htype, hw⟩ := pipeEnd_eq_some.1 hf
    -- a file in use has a descriptor
    have hpos : 0 < s.descriptors f := by
      rw [← descriptors_eq hl]
      refine Nat.pos_of_ne_zero fun hzero => ?_
      have hnone := hl.idle f hzero
      rw [htype] at hnone
      cases hnone
    obtain ⟨⟨p, fd⟩, hlive, hfd⟩ := card_filter_pos.1 hpos
    exact ⟨p, fd, f, hlive, hfd, htype, hw⟩
  · rintro ⟨p, fd, f, -, -, htype, hw⟩
    exact ⟨f, pipeEnd_eq_some.2 ⟨htype, hw⟩⟩

theorem isOpen_iff (w : Bool) :
    (∃ pi, s.pipes page = some pi ∧ pi.isOpen w = true) ↔ s.HasEnd page w := by
  rw [← openEnds_pos hl]
  rcases hpi : s.pipes page with _ | pi
  · rw [openEnds_of_none hpi]
    simp
  rw [openEnds_of_some hpi]
  cases hw : pi.isOpen w <;> simp [hw]

theorem isSome_iff : (s.pipes page).isSome = true ↔ ∃ w, s.HasEnd page w := by
  constructor
  · intro hsome
    obtain ⟨pi, hpi⟩ := Option.isSome_iff_exists.1 hsome
    have hused := hl.used page pi hpi
    by_contra hnone
    have hclosed : ∀ w, pi.isOpen w = false := fun w => Bool.eq_false_iff.2 fun hw =>
      hnone ⟨w, (isOpen_iff hl page w).1 ⟨pi, hpi, hw⟩⟩
    rw [Pipes.Pipe.freed_eq_isOpen, hclosed, hclosed] at hused
    cases hused
  · rintro ⟨w, hw⟩
    obtain ⟨pi, hpi, -⟩ := (isOpen_iff hl page w).2 hw
    rw [hpi]
    rfl

end

open Classical in
/-- The count of a file is the number of its descriptors, and a pipe lives as long as one of its ends. -/
theorem file_refs (hrun : Run (ofFun Fs.step) (boot blk) cs s) :
    (∀ f, (s.ftable f).ref = s.descriptors f ∧ ((s.ftable f).ref = 0 → (s.ftable f).type = .none)) ∧
    (∀ page w, (∃ pi, s.pipes page = some pi ∧ pi.isOpen w = true) ↔ s.HasEnd page w) ∧
      ∀ page, s.hist.kallocs page = s.hist.kfrees page + if ∃ w, s.HasEnd page w then 1 else 0 := by
  have hl := run_counts hrun
  refine ⟨fun f => ⟨?_, hl.idle f⟩, isOpen_iff hl, fun page => ?_⟩
  · exact descriptors_eq hl f
  refine (hl.pages page).trans ?_
  have hiff := isSome_iff hl page
  by_cases hsome : (s.pipes page).isSome = true
  · rw [if_pos (hiff.1 hsome), show s.led.pipes page = s.pipes page from rfl, hsome]
    rfl
  · rw [if_neg (mt hiff.2 hsome), show s.led.pipes page = s.pipes page from rfl,
      Bool.eq_false_iff.2 hsome]
    rfl

theorem file_refs_shared : ((after rootDisk sharedCalls).ftable 0).ref = 4 ∧
    (after rootDisk sharedCalls).descriptors 0 = 4 ∧ (after rootDisk sharedCalls).HasEnd 0 true := by
  obtain ⟨hrefs, hends, -⟩ := file_refs shared_runs
  have href := shared_eval.2.2.1
  refine ⟨href, (hrefs 0).1.symm.trans href, (hends 0 true).1 ?_⟩
  exact Option.any_eq_true _ _ |>.1 shared_eval.2.2.2

end Counts

end Xv6.Blocks

import Xv6Cow.Fs.Content
import Xv6Cow.Lib.Refs

/-!
# The ledger of a call

In the middle of a call the count of every inode is the number of its users plus the references the
call holds, and so for open files and the ends of pipes.  This is the `Ledger`; it balances whatever
is on the disk.  If the image was consistent, the blocks represent a volume besides: `Content`.
-/

namespace Xv6.Blocks

open Function Bytes Lts Prog Refs

/-! ## The books -/

/-- What a call knows: the operations outstanding, the inodes it has locked with their types, the
references it holds, the descriptor and the process whose references it has in hand, and the tables
of the processes. -/
structure Ctx where
  out : ℕ
  locks : List (Iptr × Int16)
  refs : Multiset Iptr
  frefs : Multiset Fid
  ends : Multiset (ℕ × Bool)
  desc : Option (Pid × Fd)
  proc : Option Pid
  live : Pid → Bool
  cwd : Pid → Iptr
  ofile : Pid → Fd → Option Fid

/-- The books between calls. -/
def Ctx.idle (s : Fs) : Ctx := ⟨0, [], 0, 0, 0, none, none, s.live, s.cwd, s.ofile⟩

def FileType.ip : FileType → Option Iptr
  | .inode ip => some ip
  | _ => Option.none

/-- The end of a pipe that the file is. -/
def File.pipeEnd (f : File) : Option (ℕ × Bool) :=
  match f.type with
  | .pipe page => some (page, f.writable)
  | _ => none

namespace Led

/-- The users of inodes: files and current directories. -/
def holds (l : Led) (proc : Option Pid) : Fid ⊕ Pid → Option Iptr
  | .inl f => (l.ftable f).type.ip
  | .inr p => if l.live p ∧ proc ≠ some p then some (l.cwd p) else none

/-- The users of files. -/
def descs (l : Led) (desc : Option (Pid × Fd)) (x : Pid × Fd) : Option Fid :=
  if desc = some x then none else l.ofile x.1 x.2

/-- 1 for an end of a pipe that is open. -/
def openEnds (l : Led) (x : ℕ × Bool) : ℕ := ((l.pipes x.1).elim false (·.isOpen x.2)).toNat

end Led

/-- The fields of an entry of the inode cache fit together. -/
structure Handle.Fits (h : Handle) : Prop where
  read : h.locked = true → h.valid = true
  held : h.locked = true → 0 < h.ref
  dev : 0 < h.ref → h.dev = rootdev
  freed : 0 < h.ref → h.freed = false

/-- The references, locks and files agree with the books. -/
structure Ledger (c : Ctx) (l : Led) : Prop where
  out : l.outstanding = c.out
  reading : l.reading = false
  refs : Balanced (fun ip => (l.icache ip).ref) (l.holds c.proc) c.refs
  frefs : Balanced (fun f => (l.ftable f).ref) (l.descs c.desc) c.frefs
  ends : Balanced l.openEnds (fun f => (l.ftable f).pipeEnd) c.ends
  locked : ∀ x ∈ c.locks, (l.icache x.1).locked = true ∧ l.type x.1 = x.2
  held : ∀ ip, (l.icache ip).locked = true → ∃ ty, (ip, ty) ∈ c.locks
  fits : ∀ ip, (l.icache ip).Fits
  uniq : ∀ ip jp, 0 < (l.icache ip).ref → 0 < (l.icache jp).ref →
    (l.icache ip).inum = (l.icache jp).inum → ip = jp
  idle : ∀ f, (l.ftable f).ref = 0 → (l.ftable f).type = .none
  dead : ∀ p, l.live p = false → c.proc ≠ some p → ∀ fd, l.ofile p fd = none
  procs : l.live = c.live ∧ l.cwd = c.cwd ∧ l.ofile = c.ofile
  /-- A page is taken back from a pipe once, when both ends are closed. -/
  pages : ∀ page, l.kallocs page = l.kfrees page + (l.pipes page).isSome.toNat
  used : ∀ page p, l.pipes page = some p → p.freed = false

/-- No entry with the inode is locked. -/
def Fs.Unlocked (s : Fs) (i : ℕ) : Prop := ∀ ip, (s.icache ip).locked = true → (s.icache ip).inum ≠ i

/-- The blocks represent a volume, and the inode cache its inodes. -/
structure Content (sb : Superblock) (v : Volume) (s : Fs) : Prop where
  laid : sb.Laid
  rep : Rep sb v v.ino s
  ok : v.Ok sb
  lt : ∀ ip, 0 < (s.icache ip).ref → (s.icache ip).inum < sb.ninodes
  valid : ∀ ip i, (s.icache ip).Caches i → (v.ino i).type ≠ 0
  /-- No directory is open for writing. -/
  writable : ∀ f ip, (s.ftable f).type = .inode ip → (s.ftable f).writable = true →
    (v.ino (s.icache ip).inum).type ≠ 0 ∧ (v.ino (s.icache ip).inum).type ≠ tDir
  /-- An inode that nobody has locked is as it was when its lock was released. -/
  last : ∀ i d, s.hist.last i = some d →
    (i < sb.ninodes ∧ (v.ino i).type ≠ 0) ∧ (s.Unlocked i → d = v.ino i)

/-- The state of a call with the books `c`.  `good` says that the image was consistent, and `K` what is
known of the volume and the users of its inodes. -/
structure At (good : Prop) (K : Volume → Led → Prop) (sb : Superblock) (c : Ctx) (s : Fs) : Prop where
  ledger : Ledger c s.led
  content : good → ∃ v, Content sb v s ∧ K v s.led

/-- How a call stops. -/
def Stops (good : Prop) (e : Stop) (t : Fs) : Prop := good → Good e t

/-- The users of inodes and files are the same. -/
structure Led.Same (l l' : Led) : Prop where
  type : ∀ f, (l'.ftable f).type = (l.ftable f).type
  live : l'.live = l.live
  cwd : l'.cwd = l.cwd
  ofile : l'.ofile = l.ofile
  inum : ∀ ip, 0 < (l.icache ip).ref → (l'.icache ip).inum = (l.icache ip).inum

/-- What is known does not depend on references and locks, as long as the call keeps `R` in hand. -/
def Stable (proc : Option Pid) (R : Multiset Iptr) (K : Volume → Led → Prop) : Prop :=
  ∀ (c c' : Ctx) v l l', Ledger c l → Ledger c' l' → c.proc = proc ∧ R ≤ c.refs →
    c'.proc = proc ∧ R ≤ c'.refs → l.Same l' → K v l → K v l'

variable {good : Prop} {K : Volume → Led → Prop} {sb : Superblock} {c : Ctx} {v v' : Volume} {s t : Fs}
  {l : Led} {ip jp : Iptr} {i : ℕ} {ty : Int16} {α : Type} {x : FsM α}

theorem Stable.cons {o : Option Pid} {R : Multiset Iptr} (h : Stable o R K) (ip : Iptr) :
    Stable o (ip ::ₘ R) K := by
  intro c c' v l l' hl hl' hc hc'
  exact h c c' v l l' hl hl' ⟨hc.1, (Multiset.le_cons_self R ip).trans hc.2⟩
    ⟨hc'.1, (Multiset.le_cons_self R ip).trans hc'.2⟩

/-! ## What the functions on blocks leave alone -/

/-- The stop comes from the log, the bitmap or the block map. -/
def Low (e : Stop) (_ : Fs) : Prop := ∃ msg ∈ lowPanics, e = .panic msg

theorem low {msg : String} (h : msg ∈ lowPanics) : Low (.panic msg) s := ⟨msg, h, rfl⟩

/-- The program does not touch references, locks and files. -/
def Frame (x : FsM α) : Prop := ∀ s, wp x (fun _ t => t.led = s.led) Low s

theorem Frame.step (hx : Frame x) {l : Led} {Q : α → Fs → Prop} (hs : s.led = l)
    (h : ∀ a t, t.led = l → Q a t) : wp x Q Low s :=
  wp_imp (hx s) fun a t ht => h a t (ht.trans hs)

theorem led_setCopy {d : Dinode} (ht : t.led = l) (hd : d.type = (t.icache ip).type) :
    (t.setCopy ip d).led = l := (setCopy_led t hd).trans ht

theorem frame_logWrite (b : ℕ) : Frame (logWrite b) := by
  intro s
  simp only [logWrite, panic, wp_run]
  split
  · exact low (by decide)
  · split
    · exact low (by decide)
    · rfl

theorem frame_modifyBlk (b : ℕ) (g : (ℕ → UInt8) → ℕ → UInt8) : Frame (modifyBlk b g) := by
  intro s
  simp only [modifyBlk, wp_run]
  exact frame_logWrite b _

theorem frame_balloc : Frame balloc := by
  intro s
  simp only [balloc, wp_run]
  rcases s.freeBlock with _ | b
  · exact low (s := s) (by decide)
  simp only [wp_run]
  refine (frame_modifyBlk _ _).step rfl fun _ t ht => ?_
  exact (frame_modifyBlk _ _).step ht fun _ _ hu => hu

theorem frame_bfree (b : ℕ) : Frame (bfree b) := by
  intro s
  simp only [bfree, readsb, panic, wp_run]
  split
  · exact low (by decide)
  · exact frame_modifyBlk _ _ _

theorem frame_putDinode (i : ℕ) (d : Dinode) : Frame (putDinode i d) := by
  intro s
  simp only [putDinode, wp_run]
  exact frame_modifyBlk _ _ _

theorem frame_iupdate (ip : Iptr) : Frame (iupdate ip) := by
  intro s
  simp only [iupdate, wp_run]
  exact frame_putDinode _ _ _

theorem frame_addrOf (ip : Iptr) (j : Fin 13) : Frame (addrOf ip j) := by
  intro s
  simp only [addrOf, wp_run]
  split
  · exact frame_balloc.step rfl fun _ t ht => led_setCopy ht rfl
  · trivial

theorem frame_entryOf (ind j : ℕ) : Frame (entryOf ind j) := by
  intro s
  simp only [entryOf, wp_run]
  split
  · refine frame_balloc.step rfl fun _ t ht => ?_
    exact (frame_modifyBlk _ _).step ht fun _ _ hu => hu
  · trivial

theorem frame_bmap (ip : Iptr) (bn : ℕ) : Frame (bmap ip bn) := by
  intro s
  simp only [bmap, panic, wp_run]
  split
  · exact frame_addrOf _ _ s
  split
  · refine (frame_addrOf _ _).step rfl fun _ t ht => ?_
    exact (frame_entryOf _ _).step ht fun _ _ hu => hu
  · exact low (by decide)

theorem frame_truncDirect (ip : Iptr) (js : List (Fin 13)) : Frame (truncDirect ip js) := by
  induction js with
  | nil => exact fun _ => rfl
  | cons j js ih =>
    intro s
    simp only [truncDirect, wp_bind, wp_get]
    split
    · simp only [wp_bind, wp_modify]
      refine (frame_bfree _).step rfl fun _ t ht => ?_
      exact ih.step (led_setCopy ht rfl) fun _ _ hu => hu
    · exact ih s

theorem frame_truncEntries (ind : ℕ) (js : List ℕ) : Frame (truncEntries ind js) := by
  induction js with
  | nil => exact fun _ => rfl
  | cons j js ih =>
    intro s
    simp only [truncEntries, wp_bind, wp_get]
    split
    · rw [wp_bind]
      exact (frame_bfree _).step rfl fun _ t ht => ih.step ht fun _ _ hu => hu
    · exact ih s

theorem frame_truncIndirect (ip : Iptr) : Frame (truncIndirect ip) := by
  intro s
  simp only [truncIndirect, wp_bind, wp_get]
  split
  · simp only [wp_bind, wp_modify]
    refine (frame_truncEntries _ _).step rfl fun _ t ht => ?_
    exact (frame_bfree _).step ht fun _ u hu => led_setCopy hu rfl
  · rfl

theorem frame_itrunc (ip : Iptr) : Frame (itrunc ip) := by
  intro s
  simp only [itrunc, wp_run]
  refine (frame_truncDirect _ _).step rfl fun _ t ht => ?_
  refine (frame_truncIndirect _).step ht fun _ u hu => ?_
  exact (frame_iupdate _).step (led_setCopy hu rfl) fun _ _ hw => hw

theorem frame_readLoop (ip : Iptr) (fuel off left : ℕ) : Frame (readLoop ip fuel off left) := by
  induction fuel generalizing off left with
  | zero => exact fun _ => rfl
  | succ fuel ih =>
    intro s
    simp only [readLoop, wp_run]
    split
    · trivial
    · refine (frame_bmap _ _).step rfl fun _ t ht => ?_
      exact (ih _ _).step ht fun _ _ hu => hu

theorem frame_writeLoop (ip : Iptr) (fuel off : ℕ) (src : List UInt8) :
    Frame (writeLoop ip fuel off src) := by
  induction fuel generalizing off src with
  | zero => exact fun _ => rfl
  | succ fuel ih =>
    intro s
    simp only [writeLoop, wp_run]
    split
    · trivial
    · refine (frame_bmap _ _).step rfl fun _ t ht => ?_
      refine (frame_modifyBlk _ _).step ht fun _ u hu => ?_
      exact (ih _ _).step hu fun _ _ hw => hw

/-! ## The entry of one inode -/

theorem setInode_led (s : Fs) (ip : Iptr) (x : Inode) : (s.setInode ip x).led = { s.led with
      icache := update s.led.icache ip x.toHandle
      type := update s.led.type ip x.type } := by
  have hupd : ∀ {β : Type} (g : Inode → β), (fun jp => g ((s.setInode ip x).icache jp)) =
      update (fun jp => g (s.icache jp)) ip (g x) := fun g => Function.comp_update g ..
  unfold Fs.led
  rw [hupd Inode.toHandle, hupd fun y => y.type]
  rfl

@[simp] theorem Fs.setInode_icache_self (s : Fs) (ip : Iptr) (x : Inode) :
    (s.setInode ip x).icache ip = x := update_self ..

theorem Fs.setInode_dinode (s : Fs) (ip : Iptr) (x : Inode) (i : ℕ) :
    (s.setInode ip x).dinode i = s.dinode i := rfl

theorem Fs.setInode_icache_of_ne (s : Fs) (x : Inode) (h : jp ≠ ip) :
    (s.setInode ip x).icache jp = s.icache jp := update_of_ne h ..

theorem Fs.setInode_setInode (s : Fs) (ip : Iptr) (x y : Inode) :
    (s.setInode ip x).setInode ip y = s.setInode ip y := by
  simp [Fs.setInode]

theorem Ledger.apart (h : Ledger c l) (hpos : 0 < (l.icache ip).ref) (jp : Iptr) (hj : jp ≠ ip)
    (hjp : 0 < (l.icache jp).ref) : (l.icache jp).inum ≠ (l.icache ip).inum :=
  fun heq => hj (h.uniq jp ip hjp hpos heq)

/-- From the locks `M` of a call to `L`, when the entry `ip` changes. -/
structure Relock (M L : List (Iptr × Int16)) (ip : Iptr) (locked : Bool) (ty : Int16) : Prop where
  self : ∀ y ∈ L, y.1 = ip → locked = true ∧ ty = y.2
  held : locked = true → (ip, ty) ∈ L
  other : ∀ y, y.1 ≠ ip → (y ∈ L ↔ y ∈ M)

theorem Relock.lock {M : List (Iptr × Int16)} (h : ∀ x ∈ M, x.1 ≠ ip) :
    Relock M ((ip, ty) :: M) ip true ty := by
  refine ⟨fun y hy hyi => ⟨rfl, ?_⟩, fun _ => List.mem_cons_self, fun y hy => ?_⟩
  · rcases List.mem_cons.1 hy with rfl | hy
    · rfl
    · exact absurd hyi (h y hy)
  · rw [List.mem_cons, or_iff_right fun heq => hy (by rw [heq])]

theorem Relock.unlock {M L : List (Iptr × Int16)} (h : ∀ x, x ∈ L ↔ x ∈ M ∧ x.1 ≠ ip) :
    Relock M L ip false ty :=
  ⟨fun y hy hyi => absurd hyi ((h y).1 hy).2, nofun, fun y hy => by rw [h y, and_iff_left hy]⟩

theorem Relock.same (h : Ledger c l) (ip : Iptr) :
    Relock c.locks c.locks ip (l.icache ip).locked (l.type ip) := by
  refine ⟨fun y hy hyi => hyi ▸ h.locked y hy, fun hlocked => ?_, fun _ _ => Iff.rfl⟩
  obtain ⟨ty, hty⟩ := h.held ip hlocked
  rw [(h.locked _ hty).2]
  exact hty

theorem Ledger.setEntry (h : Ledger c l) (x : Handle) (ty : Int16) {T : Multiset Iptr}
    {L : List (Iptr × Int16)}
    (hrefs : Balanced (fun jp => (update l.icache ip x jp).ref) (l.holds c.proc) T)
    (hL : Relock c.locks L ip x.locked ty) (hfits : x.Fits)
    (huniq : 0 < x.ref → ∀ jp, jp ≠ ip → 0 < (l.icache jp).ref → (l.icache jp).inum ≠ x.inum) :
    Ledger { c with refs := T, locks := L } { l with
        icache := update l.icache ip x
        type := update l.type ip ty } := by
  refine ⟨h.out, h.reading, hrefs, h.frefs, h.ends, fun y hy => ?_, fun jp hlocked => ?_, fun jp => ?_,
    fun jp kp => ?_, h.idle, h.dead, h.procs, h.pages, h.used⟩
  · by_cases hyi : y.1 = ip
    · simp only [hyi, update_self]
      exact hL.self y hy hyi
    · simp only [update_of_ne hyi]
      exact h.locked y ((hL.other y hyi).1 hy)
  · by_cases hj : jp = ip
    · subst hj
      simp only [update_self] at hlocked
      exact ⟨ty, hL.held hlocked⟩
    · simp only [update_of_ne hj] at hlocked
      obtain ⟨ty', hty'⟩ := h.held jp hlocked
      exact ⟨ty', (hL.other (jp, ty') hj).2 hty'⟩
  · by_cases hj : jp = ip
    · simp only [hj, update_self]
      exact hfits
    · simp only [update_of_ne hj]
      exact h.fits jp
  · by_cases hj : jp = ip
    · by_cases hk : kp = ip
      · exact fun _ _ _ => hj.trans hk.symm
      · simp only [hj, update_self, update_of_ne hk]
        exact fun hx hkp heq => absurd heq.symm (huniq hx kp hk hkp)
    · by_cases hk : kp = ip
      · simp only [hk, update_self, update_of_ne hj]
        exact fun hjp hx heq => absurd heq (huniq hx jp hj hjp)
      · simp only [update_of_ne hj, update_of_ne hk]
        exact h.uniq jp kp

theorem Rep.setInode (h : Rep sb v v.ino s) (x : Inode)
    (hcopy : ∀ i, x.Caches i → x.toDinode = v.ino i)
    (huniq : ∀ i, x.Caches i → ∀ jp, jp ≠ ip → ¬ (s.icache jp).Caches i) :
    Rep sb v v.ino (s.setInode ip x) := by
  refine ⟨h.sb_eq, h.super, h.used, h.ino, h.data, fun jp i hj => ?_, fun _ _ _ => rfl,
    fun jp kp i hj hk => ?_, h.hist⟩
  · by_cases hji : jp = ip
    · rw [hji, Fs.setInode_icache_self] at hj ⊢
      exact hcopy i hj
    · rw [s.setInode_icache_of_ne x hji] at hj ⊢
      exact h.copy jp i hj
  by_cases hji : jp = ip
  · by_cases hki : kp = ip
    · exact hji.trans hki.symm
    · rw [hji, Fs.setInode_icache_self] at hj
      rw [s.setInode_icache_of_ne x hki] at hk
      exact absurd hk (huniq i hj kp hki)
  · by_cases hki : kp = ip
    · rw [hki, Fs.setInode_icache_self] at hk
      rw [s.setInode_icache_of_ne x hji] at hj
      exact absurd hj (huniq i hk jp hji)
    · rw [s.setInode_icache_of_ne x hji] at hj
      rw [s.setInode_icache_of_ne x hki] at hk
      exact h.uniq jp kp i hj hk

theorem Ledger.pos_of_file (h : Ledger c l) {f : Fid} (hf : (l.ftable f).type = .inode ip) :
    0 < (l.icache ip).ref := by
  have hhold : l.holds c.proc (.inl f) = some ip := by
    rw [Led.holds, hf]
    rfl
  exact h.refs.pos_of_hold hhold

/-- The entry keeps its inode while it is in use. -/
def Stays (s : Fs) (ip : Iptr) (x : Inode) : Prop :=
  0 < (s.icache ip).ref → x.inum = (s.icache ip).inum

theorem Stays.inum {x : Inode} (h : Stays s ip x) (hj : 0 < (s.icache jp).ref) :
    ((s.setInode ip x).icache jp).inum = (s.icache jp).inum := by
  by_cases hji : jp = ip
  · subst hji
    rw [Fs.setInode_icache_self]
    exact h hj
  · rw [s.setInode_icache_of_ne x hji]

theorem Content.setInode (h : Content sb v s) (hl : Ledger c s.led) {x : Inode} (hstay : Stays s ip x)
    (hcopy : ∀ i, x.Caches i → x.toDinode = v.ino i ∧ (v.ino i).type ≠ 0)
    (hlt : 0 < x.ref → x.inum < sb.ninodes)
    (huniq : 0 < x.ref → ∀ jp, jp ≠ ip → 0 < (s.icache jp).ref → (s.icache jp).inum ≠ x.inum)
    (hlast : x.locked = false → (s.icache ip).locked = true →
      ∀ d, s.hist.last (s.icache ip).inum = some d → d = v.ino (s.icache ip).inum) :
    Content sb v (s.setInode ip x) := by
  have huniq' : ∀ i, x.Caches i → ∀ jp, jp ≠ ip → ¬ (s.icache jp).Caches i := fun i hx jp hj hjp =>
    huniq hx.1 jp hj hjp.1 (hjp.2.2.trans hx.2.2.symm)
  refine ⟨h.laid, h.rep.setInode x (fun i hi => (hcopy i hi).1) huniq', h.ok, fun jp hj => ?_,
    fun jp i hj => ?_, fun f jp hf hw => ?_, fun i d hd => ⟨(h.last i d hd).1, fun hun => ?_⟩⟩
  · by_cases hji : jp = ip
    · rw [hji, Fs.setInode_icache_self] at hj ⊢
      exact hlt hj
    · rw [s.setInode_icache_of_ne x hji] at hj ⊢
      exact h.lt jp hj
  · by_cases hji : jp = ip
    · rw [hji, Fs.setInode_icache_self] at hj
      exact (hcopy i hj).2
    · rw [s.setInode_icache_of_ne x hji] at hj
      exact h.valid jp i hj
  · rw [hstay.inum (hl.pos_of_file hf)]
    exact h.writable f jp hf hw
  · by_cases hold : (s.icache ip).locked = true ∧ (s.icache ip).inum = i
    · -- the entry of the inode was locked, and is not any more
      obtain ⟨hlocked, rfl⟩ := hold
      have hx : ¬ x.locked = true := fun hx => by
        have hne := hun ip
        rw [Fs.setInode_icache_self] at hne
        exact hne hx (hstay ((hl.fits ip).held hlocked))
      exact hlast (Bool.eq_false_iff.2 hx) hlocked d hd
    · refine (h.last i d hd).2 fun jp hj hji => ?_
      by_cases hjp : jp = ip
      · rw [hjp] at hj hji
        exact hold ⟨hj, hji⟩
      · have hne := hun jp
        rw [s.setInode_icache_of_ne x hjp] at hne
        exact hne hj hji

end Xv6.Blocks

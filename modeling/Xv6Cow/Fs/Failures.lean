import Xv6Cow.Fs.Ownership

/-!
# Calls that fail

A call on paths that returns `-1` leaves the volume, the descriptors and the current directories as they
were.  The one exception is `open` with `O_CREATE`: it makes the file before it looks for a free file and
a free descriptor, and does not take it back.
-/

namespace Xv6.Blocks

open Bytes Lts Prog Refs
open Names (oCreate)

variable {good : Prop} {sb : Superblock} {v v₀ : Volume} {l l' : Led} {s t : Fs} {ip : Iptr} {i : ℕ}

/-- An inode that has lost its links is open, or someone is there. -/
def Tidy (sb : Superblock) (v : Volume) (l : Led) : Prop :=
  ∀ i < sb.ninodes, (v.ino i).type ≠ 0 → (v.ino i).nlink ≤ 0 →
    ∃ a jp, l.holds none a = some jp ∧ (l.icache jp).inum = i

/-- The volume is `v₀`. -/
def Keep (sb : Superblock) (v₀ v : Volume) (l : Led) : Prop := v = v₀ ∧ Tidy sb v₀ l

theorem Led.Same.holds (h : l.Same l') (a : Fid ⊕ Pid) : l'.holds none a = l.holds none a := by
  cases a with
  | inl f => simp only [Led.holds, h.type f]
  | inr p => simp only [Led.holds, h.live, h.cwd]

theorem stable_keep : Stable none 0 (Keep sb v₀) := by
  rintro c c' v l l' hl hl' ⟨hp, -⟩ - hsame ⟨hv, htidy⟩
  refine ⟨hv, fun i hi ht hn => ?_⟩
  obtain ⟨a, jp, hhold, hinum⟩ := htidy i hi ht hn
  refine ⟨a, jp, (hsame.holds a).trans hhold, ?_⟩
  rw [hsame.inum jp (hl.refs.pos_of_hold (hp ▸ hhold)), hinum]

theorem At.not_tidy {K : Volume → Led → Prop} {c : Ctx} {T : Multiset Iptr}
    (h : At good K sb { c with refs := ip ::ₘ T } s) (hp : c.proc = none)
    (hc : (s.icache ip).Caches i) (hone : (s.icache ip).ref = 1) {a : Fid ⊕ Pid} {jp : Iptr}
    (hhold : s.led.holds none a = some jp) : (s.led.icache jp).inum ≠ i := by
  intro hinum
  rw [← hp] at hhold
  have hjp : 0 < (s.led.icache jp).ref := h.ledger.refs.pos_of_hold hhold
  have heq : jp = ip := h.ledger.uniq jp ip hjp hc.1 (hinum.trans hc.2.2.symm)
  rw [heq] at hhold
  exact (h.ledger.refs.alone hone).1 a hhold

theorem puts_keep : Puts good (Keep sb v₀) sb := by
  intro c T s ip hp h hg v i l' hk hc ht hn hone
  obtain ⟨v', hv', -⟩ := h.content hg
  obtain ⟨rfl, htidy⟩ := hk
  have hle : (v.ino i).nlink ≤ 0 := by
    rw [hn]
    decide
  obtain ⟨a, jp, hhold, hinum⟩ := htidy i (hc.2.2 ▸ hv'.lt ip hc.1) ht hle
  exact absurd hinum (h.not_tidy hp hc hone hhold)

theorem puts_linked (jp : Iptr) : Puts good (Linked (Keep sb v₀) jp) sb := by
  intro c T s ip hp h hg v i l' hk hc ht hn hone
  obtain ⟨v', hv', -⟩ := h.content hg
  obtain ⟨hv0, htidy⟩ := hk
  have hlt : i < sb.ninodes := hc.2.2 ▸ hv'.lt ip hc.1
  have hino : (v₀.ino i).type = (v.ino i).type ∧ (v₀.ino i).nlink ≤ 0 := by
    rw [← hv0]
    unfold Volume.addLink
    by_cases hi : i = (s.led.icache jp).inum
    · rw [← hi, Volume.setIno_ino_self, hn]
      exact ⟨rfl, (by decide : (0 : Int16) + -1 ≤ 0)⟩
    · rw [v.setIno_ino_of_ne hi, hn]
      exact ⟨rfl, by decide⟩
  obtain ⟨a, kp, hhold, hinum⟩ := htidy i hlt (hino.1 ▸ ht) hino.2
  exact absurd hinum (h.not_tidy hp hc hone hhold)

/-! ## What a failed call leaves -/

/-- The calls on paths. -/
def Call.onPath : Call → Bool
  | openFile _ _ _ | mkdir _ _ | mknod _ _ _ _ | link _ _ _ | unlink _ _ | chdir _ _ => true
  | _ => false

/-- The state in which the call returns `-1`, if it does. -/
def Call.fails (x : Call) (s : Fs) : Option Fs :=
  match x.run s with
  | .ok none t => some t
  | _ => none

theorem Call.fails_eq_some {x : Call} : x.fails s = some t ↔ x.run s = .ok none t := by
  unfold fails
  split
  · next u hu => simp [hu]
  · next hne =>
    simp only [reduceCtorEq, false_iff]
    exact fun heq => hne t heq

/-- The volume, the descriptors and the current directories are the same. -/
structure Unchanged (s t : Fs) : Prop where
  sb : t.sb = s.sb
  ino : ∀ i < s.sb.ninodes, t.dinode i = s.dinode i
  used : ∀ b < s.sb.size, t.used b = s.used b
  data : ∀ b, s.sb.Area b → t.blk b = s.blk b
  ofile : t.ofile = s.ofile
  cwd : t.cwd = s.cwd

/-- `open` with `O_CREATE` is to make a file, in a directory that has no entry of the name, and all
files or all descriptors of the process are in use. -/
def LeavesFile (x : Call) (s : Fs) : Prop :=
  ∃ p path omode, x = .openFile p path omode ∧ omode &&& oCreate ≠ 0 ∧
    s.volume.lacks (s.start p path) path = true ∧ s.Full p

/-- A state between calls of a consistent file system without inodes left over. -/
structure Sound (s : Fs) : Prop where
  idle : Idle True s.sb s
  tidy : Tidy s.sb s.volume s.led

/-- The blocks represent the volume that is read off them. -/
theorem Content.self {c : Ctx} (h : Content s.sb v s) (hl : Ledger c s.led) :
    Content s.sb s.volume s := by
  have hino : ∀ {i}, i < s.sb.ninodes → s.volume.ino i = v.ino i := fun hi => h.rep.ino _ hi
  have hlt : ∀ {ip i}, (s.icache ip).Caches i → i < s.sb.ninodes := fun hc => hc.2.2 ▸ h.lt _ hc.1
  have hrep : Rep s.sb s.volume s.volume.ino s :=
    ⟨rfl, h.rep.super, fun _ _ => rfl, fun _ _ => rfl, fun _ _ => rfl,
      fun ip i hc => (h.rep.copy ip i hc).trans (hino (hlt hc)).symm, fun _ _ _ => rfl,
        h.rep.uniq, h.rep.hist⟩
  refine ⟨h.laid, hrep, h.agree.ok h.ok, h.lt, fun ip i hc => ?_, fun f ip hf hw => ?_,
    fun i d hd => ?_⟩
  · rw [hino (hlt hc)]
    exact h.valid ip i hc
  · rw [hino (h.lt ip (hl.pos_of_file hf))]
    exact h.writable f ip hf hw
  · rw [hino (h.last i d hd).1.1]
    exact h.last i d hd

theorem Sound.content (h : Sound s) : Content s.sb s.volume s := by
  obtain ⟨v, hv⟩ := h.idle.content
  exact hv.self h.idle.ledger

theorem Sound.rests (h : Sound s) : Rests True (Keep s.sb s.volume) s.sb s :=
  ⟨h.idle.ledger, fun _ => ⟨s.volume, h.content, rfl, h.tidy⟩⟩

theorem run_sound {blk : ℕ → ℕ → UInt8} {cs : List Call} (h : Consistent blk)
    (hrun : Run (ofFun Fs.step) (boot blk) cs s) (htidy : Tidy s.sb s.volume s.led) : Sound s := by
  have hidle := run_consistent h hrun
  obtain ⟨v, hv⟩ := hidle.content
  refine ⟨?_, htidy⟩
  rw [hv.rep.sb_eq]
  exact hidle

theorem At.unchanged (hv : Content s.sb v s) (h : At True (Keep s.sb v) s.sb (Ctx.idle s) t) :
    Unchanged s t := by
  obtain ⟨v', hv', rfl, -⟩ := h.content trivial
  have hsb : t.sb = s.sb := hv'.rep.sb_eq
  exact ⟨hsb, fun i hi => (hv'.rep.ino i hi).trans (hv.rep.ino i hi).symm,
    fun b hb => (hv'.rep.used b hb).trans (hv.rep.used b hb).symm,
    fun b hb => (hv'.rep.data b hb).trans (hv.rep.data b hb).symm, h.ledger.procs.2.2,
      h.ledger.procs.2.1⟩

/-- A call on paths fails without a trace, or it is one that leaves a file. -/
theorem onPath_done (h : Rests True (Keep s.sb s.volume) s.sb s) {x : Call} (hx : x.enabled s = true)
    (hpath : x.onPath = true) :
    wp x.run (fun r t => r = none → At True (Keep s.sb s.volume) s.sb (Ctx.idle s) t ∧ ¬ LeavesFile x s ∨
      LeavesFile x s ∧ ∃ i, FreeInode True (Keep s.sb s.volume) s.sb i ∧
        At True (Made i tFile) s.sb (Ctx.idle s) t) (Stops True) s := by
  obtain ⟨hlive, -⟩ := Bool.and_eq_true_iff.1 hx
  have hfix : ∀ v' l, Keep s.sb s.volume v' l → v' = s.volume := fun _ _ hk => hk.1
  have hother : ∀ {r t}, (∀ p path omode, x ≠ .openFile p path omode) →
      Done True (Keep s.sb s.volume) s.sb s r t → r = none →
      At True (Keep s.sb s.volume) s.sb (Ctx.idle s) t ∧ ¬ LeavesFile x s ∨ LeavesFile x s ∧ ∃ i,
        FreeInode True (Keep s.sb s.volume) s.sb i ∧ At True (Made i tFile) s.sb (Ctx.idle s) t := by
    rintro _ t hne hdone rfl
    refine .inl ⟨hdone, ?_⟩
    rintro ⟨p, path, omode, heq, -⟩
    exact hne p path omode heq
  cases x with
  | openFile p path omode =>
    refine wp_imp (sysOpen_at h stable_keep puts_keep hlive path omode) ?_
    rintro r t (⟨ht, hhas⟩ | ⟨-, hmode, hfull, hlacks, hmade⟩) rfl
    · refine .inl ⟨ht, ?_⟩
      rintro ⟨_, _, _, ⟨⟩, hmode, hlacks, -⟩
      cases hlacks.symm.trans (hhas rfl hmode trivial s.volume hfix)
    · exact .inr ⟨⟨p, path, omode, rfl, hmode, hlacks trivial s.volume hfix, hfull⟩, hmade⟩
  | mkdir p path =>
    exact wp_imp (sysCreate_at h stable_keep puts_keep hlive path tDir 0 0) fun _ _ => hother nofun
  | mknod p path major minor =>
    exact wp_imp (sysCreate_at h stable_keep puts_keep hlive path tDev major minor) fun _ _ => hother nofun
  | link p old new =>
    exact wp_imp (sysLink_at h stable_keep puts_keep puts_linked hlive old new) fun _ _ => hother nofun
  | unlink p path => exact wp_imp (sysUnlink_at h stable_keep puts_keep hlive path) fun _ _ => hother nofun
  | chdir p path => exact wp_imp (sysChdir_at h stable_keep puts_keep hlive path) fun _ _ => hother nofun
  | _ => cases hpath

/-- A call on paths that fails changes nothing, except `open` with `O_CREATE` of a name that its
directory does not have when the file table or the descriptor table is full. -/
theorem failed_unchanged (h : Sound s) {x : Call} (hx : x.enabled s = true) (hpath : x.onPath = true)
    (hr : x.fails s = some t) : Unchanged s t ↔ ¬ LeavesFile x s := by
  rcases wp_ok (onPath_done h.rests hx hpath) (Call.fails_eq_some.1 hr) rfl with
    ⟨ht, hnot⟩ | ⟨hleaves, i, hfree, hmade⟩
  · exact iff_of_true (At.unchanged h.content ht) hnot
  refine iff_of_false (fun hsame => ?_) (not_not.2 hleaves)
  -- the inode made was free
  obtain ⟨hi, v', l', ⟨rfl, -⟩, hzero⟩ := hfree trivial
  obtain ⟨w, hw, hk⟩ := hmade.content trivial
  have hfile : (t.dinode i).type = tFile := by
    rw [hw.rep.ino i hi]
    exact (hk (by decide)).1
  rw [hsame.ino i hi] at hfile
  exact absurd (hzero.symm.trans hfile) (by decide)

/-- Every descriptor of the process is in use; the file `x` is there. -/
def busyCalls : List Call := .openFile 0 ['x'] oCreate :: List.replicate 15 (.openFile 0 ['/'] 0)

/-- With `O_CREATE`, but the file is there. -/
theorem failed_unchanged_exists : ∃ t, Sound (after rootDisk busyCalls) ∧
    (Call.openFile 0 ['x'] oCreate).fails (after rootDisk busyCalls) = some t ∧
    Unchanged (after rootDisk busyCalls) t := by
  have hlinked : ∀ i < (after rootDisk busyCalls).sb.ninodes,
      ((after rootDisk busyCalls).volume.ino i).type ≠ 0 →
      ¬ ((after rootDisk busyCalls).volume.ino i).nlink ≤ 0 := by decide +kernel
  have hsound : Sound (after rootDisk busyCalls) :=
    run_sound rootDisk_consistent (run_after (by decide +kernel))
      fun i hi ht hn => absurd hn (hlinked i hi ht)
  have hfails : ((Call.openFile 0 ['x'] oCreate).fails (after rootDisk busyCalls)).isSome = true := by
    decide +kernel
  obtain ⟨t, ht⟩ := Option.isSome_iff_exists.1 hfails
  refine ⟨t, hsound, ht, (failed_unchanged hsound (by decide +kernel) rfl ht).2 ?_⟩
  rintro ⟨p, path, omode, ⟨⟩, -, hlacks, -⟩
  exact absurd hlacks (by decide +kernel)

/-- Every descriptor of the process is in use. -/
def fullCalls : List Call := List.replicate 16 (.openFile 0 ['/'] 0)

theorem open_fails :
    ((Call.openFile 0 ['x'] oCreate).fails (after rootDisk fullCalls)).isSome = true := by
  decide +kernel

/-- The file is made, and the call returns `-1`. -/
theorem failed_open_creates : ∃ t, Run (ofFun Fs.step) (boot rootDisk) fullCalls
    (after rootDisk fullCalls) ∧
    (Call.openFile 0 ['x'] oCreate).fails (after rootDisk fullCalls) = some t ∧
    ((after rootDisk fullCalls).dinode 2).type = 0 ∧ (t.dinode 2).type = tFile := by
  refine ⟨_, run_after (by decide +kernel), (Option.some_get open_fails).symm, by decide +kernel, ?_⟩
  decide +kernel

end Xv6.Blocks

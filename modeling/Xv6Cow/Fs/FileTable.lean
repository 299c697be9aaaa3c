import Xv6Cow.Fs.Dir

/-!
# Rules for open files, descriptors and pipes

What the functions on open files do to the books of a call.  A reference that is in no descriptor is
a token of the call: it gets one from `filealloc` and `filedup`, stores one with `fdalloc`, and
gives one up with `fileclose`.
-/

namespace Xv6.Blocks

open Function Bytes Lts Prog Refs

variable {good : Prop} {K : Volume → Led → Prop} {sb : Superblock} {c c' : Ctx} {v : Volume} {s t : Fs}
  {l : Led} {ip : Iptr} {f : Fid} {p : Pid} {fd : Fd} {x : File} {page : ℕ} {w : Bool}
  {T : Multiset Iptr} {F : Multiset Fid} {E : Multiset (ℕ × Bool)}

theorem Ledger.setOut (h : Ledger c l) (n : ℕ) : Ledger { c with out := n }
    { l with outstanding := n } :=
  ⟨rfl, h.reading, h.refs, h.frefs, h.ends, h.locked, h.held, h.fits, h.uniq, h.idle, h.dead,
    h.procs, h.pages, h.used⟩

theorem Content.same (h : Content sb v s) (hblk : t.blk = s.blk) (hsb : t.sb = s.sb)
    (hic : t.icache = s.icache) (hft : t.ftable = s.ftable) (hh : HistOk sb t.hist)
    (hlast : t.hist.last = s.hist.last) : Content sb v t := by
  refine h.congr hblk hsb hic hh hlast fun f ip hf hw => ?_
  rw [hft] at hf hw
  exact h.writable f ip hf hw

theorem beginOp_at (h : At good K sb c s) (hK : Stable c.proc c.refs K) :
    wp beginOp (fun _ t => At good K sb { c with out := c.out + 1 } t ∧ t.ftable = s.ftable)
      (Stops good)
      s := by
  simp only [beginOp, wp_run]
  split
  · exact h.sleeps
  refine ⟨h.congr hK ?_ ⟨rfl, rfl⟩ ⟨fun _ => rfl, rfl, rfl, rfl, fun _ _ => rfl⟩ fun v hv =>
    hv.same rfl rfl rfl rfl hv.rep.hist rfl, trivial⟩
  rw [h.outstanding]
  exact h.ledger.setOut (c.out + 1)

theorem endOp_at (h : At good K sb c s) (hK : Stable c.proc c.refs K) :
    wp endOp (fun _ t => At good K sb { c with out := c.out - 1 } t ∧ t.ftable = s.ftable ∧
      t.icache = s.icache) (Stops good) s := by
  simp only [endOp, wp_modify]
  refine ⟨h.congr hK ?_ ⟨rfl, rfl⟩ ⟨fun _ => rfl, rfl, rfl, rfl, fun _ _ => rfl⟩ fun v hv =>
    hv.same rfl rfl rfl rfl hv.rep.hist rfl, trivial, trivial⟩
  rw [h.outstanding]
  exact h.ledger.setOut (c.out - 1)

/-! ## The file table -/

theorem At.change (h : Now good sb c s) (hl : Ledger c' t.led)
    (hcontent : ∀ v, Content sb v s → Content sb v t) : Now good sb c' t := by
  refine ⟨hl, fun hg => ?_⟩
  obtain ⟨v, hv, -⟩ := h.content hg
  exact ⟨v, hcontent v hv, trivial⟩

def Led.setFile (l : Led) (f : Fid) (x : File) : Led := { l with ftable := update l.ftable f x }

theorem Led.setFile_holds (l : Led) (f : Fid) (x : File) (proc : Option Pid) :
    (l.setFile f x).holds proc (.inl f) = x.type.ip ∧
      ∀ a, a ≠ .inl f → (l.setFile f x).holds proc a = l.holds proc a := by
  refine ⟨?_, fun a ha => ?_⟩
  · simp only [Led.holds, Led.setFile, update_self]
  cases a with
  | inl g =>
    have hg : g ≠ f := fun heq => ha (congrArg _ heq)
    simp only [Led.holds, Led.setFile, update_of_ne hg]
  | inr q => rfl

theorem Ledger.setFile (h : Ledger c l)
    (hrefs : Balanced (fun ip => (l.icache ip).ref) ((l.setFile f x).holds c.proc) T)
    (hfrefs : Balanced (fun g => (update l.ftable f x g).ref) (l.descs c.desc) F)
    (hends : Balanced l.openEnds (fun g => (update l.ftable f x g).pipeEnd) E)
    (hidle : x.ref = 0 → x.type = .none) :
    Ledger { c with refs := T, frefs := F, ends := E } (l.setFile f x) := by
  refine ⟨h.out, h.reading, hrefs, hfrefs, hends, h.locked, h.held, h.fits, h.uniq, fun g => ?_,
    h.dead, h.procs, h.pages, h.used⟩
  by_cases hg : g = f
  · subst hg
    simpa only [Led.setFile, update_self] using hidle
  · simpa only [Led.setFile, update_of_ne hg] using h.idle g

theorem Ledger.refs_setFile (h : Ledger c l) (htype : x.type.ip = (l.ftable f).type.ip) :
    Balanced (fun ip => (l.icache ip).ref) ((l.setFile f x).holds c.proc) c.refs := by
  refine h.refs.congr (fun _ => rfl) fun a => ?_
  by_cases ha : a = .inl f
  · rw [ha, (l.setFile_holds f x c.proc).1, htype]
    rfl
  · exact (l.setFile_holds f x c.proc).2 a ha

theorem Ledger.ends_setFile (h : Ledger c l) (hend : x.pipeEnd = (l.ftable f).pipeEnd) :
    Balanced l.openEnds (fun g => (update l.ftable f x g).pipeEnd) c.ends := by
  refine h.ends.congr (fun _ => rfl) fun g => ?_
  by_cases hg : g = f
  · rw [hg, update_self, hend]
  · rw [update_of_ne hg]

theorem pipeEnd_congr {y : File} (htype : x.type = y.type) (hw : x.writable = y.writable) :
    x.pipeEnd = y.pipeEnd := by
  unfold File.pipeEnd
  rw [htype, hw]

section

variable (h : At good K sb c s) (hK : Stable c.proc c.refs K)

include h hK

theorem At.setFile (x : File) (htype : x.type = (s.ftable f).type)
    (hw : x.writable = (s.ftable f).writable)
    (hF : Balanced (fun g => (update s.ftable f x g).ref) (s.led.descs c.desc) F)
    (hidle : x.ref = 0 → x.type = .none) :
    At good K sb { c with frefs := F } (s.setFile f x) := by
  have hold : ∀ g, ((s.setFile f x).ftable g).type = (s.ftable g).type ∧
      ((s.setFile f x).ftable g).writable = (s.ftable g).writable := by
    intro g
    by_cases hg : g = f
    · subst hg
      simp only [Fs.setFile, update_self]
      exact ⟨htype, hw⟩
    · simp only [Fs.setFile, update_of_ne hg, and_self]
  refine h.congr hK ?_ ⟨rfl, rfl⟩ ⟨fun g => (hold g).1, rfl, rfl, rfl, fun _ _ => rfl⟩ fun v hv => ?_
  · exact h.ledger.setFile (h.ledger.refs_setFile (congrArg _ htype)) hF
      (h.ledger.ends_setFile (pipeEnd_congr htype hw)) hidle
  refine hv.congr rfl rfl rfl hv.rep.hist rfl fun g ip hg hwr => ?_
  rw [(hold g).1] at hg
  rw [(hold g).2] at hwr
  exact hv.writable g ip hg hwr

theorem filealloc_at : wp filealloc (fun r t => match r with
      | none => At good K sb c t
      | some f => At good K sb { c with frefs := f ::ₘ c.frefs } t ∧ (s.ftable f).ref = 0 ∧
          ∃ x, x.type = .none ∧ t = s.setFile f x) (Stops good) s := by
  simp only [filealloc, wp_run]
  split
  · exact h
  next f hfind =>
  have hzero : (s.ftable f).ref = 0 := by simpa using List.find?_some hfind
  simp only [wp_run]
  refine ⟨h.setFile hK _ rfl rfl (h.ledger.frefs.inc (b := f) ?_ fun g hg => ?_) (by rintro ⟨⟩), hzero,
    { s.ftable f with ref := 1 }, h.ledger.idle f hzero, rfl⟩
  · rw [update_self]
    exact congrArg (· + 1) hzero.symm
  · rw [update_of_ne hg]
    rfl

theorem filedup_at (f : Fid) :
    wp (filedup f) (fun _ t => At good K sb { c with frefs := f ::ₘ c.frefs } t ∧
      t.live = s.live ∧ t.ofile = s.ofile) (Stops good) s := by
  simp only [filedup, Blocks.panic, wp_run]
  split
  · exact h.panic (by decide)
  refine ⟨h.setFile hK _ rfl rfl (h.ledger.frefs.inc (b := f) ?_ fun g hg => ?_)
    (by rintro ⟨⟩), rfl, rfl⟩
  · rw [update_self]
    rfl
  · rw [update_of_ne hg]
    rfl

theorem advance_at (f : Fid) (r : ℕ) :
    wp (advance f r) (fun _ t => At good K sb c t ∧ (t.ftable f).type = (s.ftable f).type ∧
      (t.ftable f).writable = (s.ftable f).writable) (Stops good) s := by
  refine ⟨h.setFile hK { s.ftable f with off := ((s.ftable f).off + r) % 2 ^ 32 } rfl rfl
    (h.ledger.frefs.congr (fun g => ?_) fun _ => rfl) (h.ledger.idle f), ?_, ?_⟩
  · by_cases hg : g = f
    · rw [hg, update_self]
      rfl
    · rw [update_of_ne hg]
      rfl
  · simp only [Fs.setFile, update_self]
  · simp only [Fs.setFile, update_self]

end

/-! ## Descriptors -/

theorem Ledger.setOfile (h : Ledger c l) {o : Pid → Fd → Option Fid} {d : Option (Pid × Fd)}
    (hF : Balanced (fun g => (l.ftable g).ref) (Led.descs { l with ofile := o } d) F)
    (hdead : ∀ p, l.live p = false → c.proc ≠ some p → ∀ fd, o p fd = none) :
    Ledger { c with frefs := F, desc := d, ofile := o } { l with ofile := o } :=
  ⟨h.out, h.reading, h.refs, hF, h.ends, h.locked, h.held, h.fits, h.uniq, h.idle, hdead,
    ⟨h.procs.1, h.procs.2.1, rfl⟩, h.pages, h.used⟩

/-- The tables of the processes with one descriptor changed. -/
def Led.setOfile (l : Led) (p : Pid) (fd : Fd) (g : Option Fid) : Pid → Fd → Option Fid :=
  update l.ofile p (update (l.ofile p) fd g)

theorem Led.setOfile_self (l : Led) (p : Pid) (fd : Fd) (g : Option Fid) :
    l.setOfile p fd g p fd = g := by
  simp [Led.setOfile]

theorem Led.setOfile_of_ne (l : Led) {p q : Pid} {fd fd' : Fd} (g : Option Fid)
    (h : (q, fd') ≠ (p, fd)) : l.setOfile p fd g q fd' = l.ofile q fd' := by
  unfold Led.setOfile
  by_cases hq : q = p
  · subst hq
    have hfd : fd' ≠ fd := fun heq => h (by rw [heq])
    rw [update_self, update_of_ne hfd]
  · rw [update_of_ne hq]

theorem Ledger.dead_setOfile (h : Ledger c l) (hlive : c.live p = true ∨ c.proc = some p)
    (g : Option Fid) :
    ∀ q, l.live q = false → c.proc ≠ some q → ∀ fd', l.setOfile p fd g q fd' = none := by
  intro q hq hproc fd'
  have hqp : q ≠ p := by
    rintro rfl
    rcases hlive with hlive | hlive
    · rw [h.procs.1, hlive] at hq
      cases hq
    · exact hproc hlive
  rw [l.setOfile_of_ne g fun heq => hqp (congrArg Prod.fst heq)]
  exact h.dead q hq hproc fd'

theorem Led.descs_none (l : Led) (a : Pid × Fd) : l.descs none a = l.ofile a.1 a.2 := if_neg nofun

theorem Led.descs_self (l : Led) (a : Pid × Fd) : l.descs (some a) a = none := if_pos rfl

theorem Led.descs_of_ne (l : Led) {a b : Pid × Fd} (h : a ≠ b) : l.descs (some b) a = l.ofile a.1 a.2 :=
  if_neg fun heq => h (Option.some.inj heq).symm

theorem Ledger.setDesc (h : Ledger c l) (hd : c.desc = none)
    (hlive : c.live p = true ∨ c.proc = some p) (hfree : l.ofile p fd = none) (g : Option Fid) :
    Ledger { c with desc := some (p, fd), ofile := l.setOfile p fd g }
      { l with ofile := l.setOfile p fd g } := by
  refine h.setOfile (h.frefs.congr (fun _ => rfl) fun a => ?_) (h.dead_setOfile hlive g)
  rw [hd, l.descs_none]
  by_cases ha : a = (p, fd)
  · rw [ha, Led.descs_self, hfree]
  · rw [Led.descs_of_ne _ ha]
    exact l.setOfile_of_ne g ha

theorem Ledger.giveDesc (h : Ledger { c with desc := some (p, fd), frefs := f ::ₘ F } l)
    (hf : l.ofile p fd = some f) : Ledger { c with desc := none, frefs := F } l := by
  have hF : Balanced (fun g => (l.ftable g).ref) (l.descs none) F := by
    refine h.frefs.give (l.descs_self (p, fd)) ((l.descs_none _).trans hf) fun a ha => ?_
    rw [l.descs_none, l.descs_of_ne ha]
  exact ⟨h.out, h.reading, h.refs, hF, h.ends, h.locked, h.held, h.fits, h.uniq, h.idle, h.dead,
    h.procs, h.pages, h.used⟩

theorem Ledger.takeDesc (h : Ledger c l) (hd : c.desc = none) (hf : l.ofile p fd = some f) :
    Ledger { c with desc := some (p, fd), frefs := f ::ₘ c.frefs } l := by
  have hF : Balanced (fun g => (l.ftable g).ref) (l.descs (some (p, fd))) (f ::ₘ c.frefs) := by
    refine h.frefs.take ?_ (l.descs_self (p, fd)) fun a ha => ?_
    · rw [hd, l.descs_none]
      exact hf
    · rw [hd, l.descs_none, l.descs_of_ne ha]
  exact ⟨h.out, h.reading, h.refs, hF, h.ends, h.locked, h.held, h.fits, h.uniq, h.idle, h.dead,
    h.procs, h.pages, h.used⟩

theorem Ledger.clearDesc (h : Ledger { c with desc := some (p, fd) } l)
    (hlive : c.live p = true ∨ c.proc = some p) :
    Ledger { c with desc := none, ofile := l.setOfile p fd none }
      { l with ofile := l.setOfile p fd none } := by
  refine h.setOfile (h.frefs.congr (fun _ => rfl) fun a => ?_) (h.dead_setOfile hlive none)
  rw [Led.descs_none]
  by_cases ha : a = (p, fd)
  · rw [ha, l.descs_self]
    exact l.setOfile_self p fd none
  · rw [l.descs_of_ne ha]
    exact l.setOfile_of_ne none ha

theorem At.tables (h : Now good sb c s) {o : Pid → Fd → Option Fid}
    (hl : Ledger c' { s.led with ofile := o }) : Now good sb c' { s with ofile := o } :=
  At.change h hl fun _ hv => hv.same rfl rfl rfl rfl hv.rep.hist rfl

theorem fdalloc_at (h : Now good sb { c with frefs := f ::ₘ F } s) (hd : c.desc = none)
    (hlive : c.live p = true) :
    wp (fdalloc p f) (fun r t => match r with
      | none => t = s
      | some fd => t = s.setOfile p fd (some f) ∧ s.ofile p fd = none ∧
          Now good sb { c with frefs := F, ofile := t.ofile } t) (Stops good) s := by
  simp only [fdalloc, wp_run]
  split
  · rfl
  next fd hfind =>
  have hnone : s.ofile p fd = none := by simpa using List.find?_some hfind
  have hset := h.ledger.setDesc hd (.inl hlive) hnone (some f)
  have hgive := Ledger.giveDesc (c := { c with ofile := s.led.setOfile p fd (some f) }) hset
    (s.led.setOfile_self p fd _)
  rw [← hd] at hgive
  exact ⟨rfl, hnone, At.tables h hgive⟩

/-! ## Processes -/

theorem Led.holds_self (l : Led) (p : Pid) : l.holds (some p) (.inr p) = none := by simp [Led.holds]

theorem Led.holds_of_ne (l : Led) {a : Fid ⊕ Pid} (h : a ≠ .inr p) :
    l.holds (some p) a = l.holds none a := by
  cases a with
  | inl g => rfl
  | inr q =>
    have hq : ¬ p = q := fun heq => h (congrArg _ heq.symm)
    simp [Led.holds, hq]

theorem Led.holds_live (h : l.live p = true) : l.holds none (.inr p) = some (l.cwd p) := by
  simp [Led.holds, h]

theorem Led.holds_dead (h : l.live p = false) (q : Option Pid) : l.holds q (.inr p) = none := by
  simp [Led.holds, h]

theorem Led.holds_update (l : Led) (b : Bool) (w : Pid → Iptr) (hw : ∀ q, q ≠ p → w q = l.cwd q)
    {a : Fid ⊕ Pid} (h : a ≠ .inr p) (o : Option Pid) :
    Led.holds { l with live := update l.live p b, cwd := w } o a = l.holds o a := by
  cases a with
  | inl g => rfl
  | inr q =>
    have hq : q ≠ p := fun heq => h (congrArg _ heq)
    simp only [Led.holds, update_of_ne hq, hw q hq]

theorem Ledger.takeProc (h : Ledger c l) (hp : c.proc = none) (hlive : l.live p = true) :
    Ledger { c with proc := some p, refs := l.cwd p ::ₘ c.refs } l := by
  have hT : Balanced (fun ip => (l.icache ip).ref) (l.holds (some p)) (l.cwd p ::ₘ c.refs) := by
    refine h.refs.take ?_ (l.holds_self p) fun a ha => ?_
    · rw [hp, Led.holds_live hlive]
    · rw [hp, l.holds_of_ne ha]
  exact ⟨h.out, h.reading, hT, h.frefs, h.ends, h.locked, h.held, h.fits, h.uniq, h.idle,
    fun q hq _ => h.dead q hq (by rw [hp]; nofun), h.procs, h.pages, h.used⟩

theorem Ledger.newProc (h : Ledger c l) (hp : c.proc = none) (hlive : l.live p = false) :
    Ledger { c with proc := some p } l := by
  have hT : Balanced (fun ip => (l.icache ip).ref) (l.holds (some p)) c.refs := by
    refine h.refs.congr (fun _ => rfl) fun a => ?_
    by_cases ha : a = .inr p
    · rw [ha, Led.holds_dead hlive, Led.holds_dead hlive]
    · rw [hp, l.holds_of_ne ha]
  exact ⟨h.out, h.reading, hT, h.frefs, h.ends, h.locked, h.held, h.fits, h.uniq, h.idle,
    fun q hq _ => h.dead q hq (by rw [hp]; nofun), h.procs, h.pages, h.used⟩

theorem Ledger.dead_update (h : Ledger { c with proc := some p } l) {b : Bool}
    (hb : b = false → ∀ fd, l.ofile p fd = none) :
    ∀ q, update l.live p b q = false → ∀ fd, l.ofile q fd = none := by
  intro q hq
  by_cases hqp : q = p
  · subst hqp
    rw [update_self] at hq
    exact hb hq
  · rw [update_of_ne hqp] at hq
    exact h.dead q hq fun heq => hqp (Option.some.inj heq).symm

theorem Ledger.giveProc (h : Ledger { c with proc := some p, refs := ip ::ₘ T } l) : Ledger { c with
        proc := none
        refs := T
        live := update l.live p true
        cwd := update l.cwd p ip }
      { l with
        live := update l.live p true
        cwd := update l.cwd p ip } := by
  refine ⟨h.out, h.reading, ?_, h.frefs, h.ends, h.locked, h.held, h.fits, h.uniq, h.idle,
    fun q hq _ => Ledger.dead_update (c := { c with refs := ip ::ₘ T }) (b := true) h nofun q hq,
    ⟨rfl, rfl, h.procs.2.2⟩, h.pages, h.used⟩
  refine h.refs.give (l.holds_self p) ?_ fun a ha => ?_
  · rw [Led.holds_live (update_self ..)]
    exact congrArg some (update_self ..)
  · rw [l.holds_update true _ (fun q hq => update_of_ne hq ..) ha, l.holds_of_ne ha]

theorem Ledger.dropProc (h : Ledger { c with proc := some p } l) (hnone : ∀ fd, l.ofile p fd = none) :
    Ledger { c with proc := none, live := update l.live p false }
      { l with live := update l.live p false } := by
  refine ⟨h.out, h.reading, h.refs.congr (fun _ => rfl) fun a => ?_, h.frefs, h.ends, h.locked,
    h.held, h.fits,
    h.uniq, h.idle, fun q hq _ => h.dead_update (fun _ => hnone) q hq, ⟨rfl, h.procs.2⟩,
      h.pages, h.used⟩
  by_cases ha : a = .inr p
  · rw [ha, Led.holds_dead (update_self ..), l.holds_self]
  · rw [l.holds_update false _ (fun _ _ => rfl) ha, l.holds_of_ne ha]

/-! ## Pipes -/

theorem Ledger.setPipe (h : Ledger c l) (y : Option Pipes.Pipe) {ka kf : ℕ → ℕ}
    (hends : Balanced (Led.openEnds { l with pipes := update l.pipes page y })
      (fun g => (l.ftable g).pipeEnd) E)
    (hpage : ka page = kf page + y.isSome.toNat) (hka : ∀ q, q ≠ page → ka q = l.kallocs q)
    (hkf : ∀ q, q ≠ page → kf q = l.kfrees q) (hused : ∀ pi, y = some pi → pi.freed = false) :
    Ledger { c with ends := E } { l with
        pipes := update l.pipes page y
        kallocs := ka
        kfrees := kf } := by
  refine ⟨h.out, h.reading, h.refs, h.frefs, hends, h.locked, h.held, h.fits, h.uniq, h.idle,
    h.dead, h.procs, fun q => ?_, fun q pi hq => ?_⟩
  · by_cases hqp : q = page
    · subst hqp
      simpa only [update_self] using hpage
    · simpa only [update_of_ne hqp, hka q hqp, hkf q hqp] using h.pages q
  by_cases hqp : q = page
  · subst hqp
    simp only [update_self] at hq
    exact hused pi hq
  · simp only [update_of_ne hqp] at hq
    exact h.used q pi hq

/-- The state with a pipe set and pages counted. -/
def Fs.withPipe (s : Fs) (page : ℕ) (y : Option Pipes.Pipe) (ka kf : ℕ → ℕ) : Fs :=
  { s.setPipe page y with
    hist.kallocs := ka
    hist.kfrees := kf }

theorem At.withPipe (h : Now good sb c s) {y : Option Pipes.Pipe} {ka kf : ℕ → ℕ}
    (hl : Ledger c' { s.led with pipes := update s.pipes page y, kallocs := ka, kfrees := kf }) :
    Now good sb c' (s.withPipe page y ka kf) :=
  At.change h hl fun _ hv => hv.same rfl rfl rfl rfl
    ⟨hv.rep.hist.given, hv.rep.hist.truncated, hv.rep.hist.released⟩ rfl

variable {pi : Pipes.Pipe}

theorem openEnds_of_some (h : l.pipes page = some pi) (w : Bool) :
    l.openEnds (page, w) = (pi.isOpen w).toNat := by
  simp only [Led.openEnds, h, Option.elim_some]

theorem openEnds_of_none (h : l.pipes page = none) (w : Bool) : l.openEnds (page, w) = 0 := by
  simp only [Led.openEnds, h, Option.elim_none, Bool.toNat_false]

theorem openEnds_update (y : Option Pipes.Pipe) {e : ℕ × Bool} (he : e.1 ≠ page) :
    Led.openEnds { l with pipes := update l.pipes page y } e = l.openEnds e := by
  simp only [Led.openEnds, update_of_ne he]

/-- An end of a pipe is closed; if it is the last, the pipe goes. -/
theorem Ledger.closeEnd (h : Ledger { c with ends := (page, w) ::ₘ E } l)
    (hpi : l.pipes page = some pi) {y : Option Pipes.Pipe}
    (hy : ∀ w', (y.elim false (·.isOpen w')) = (w' != w && pi.isOpen w')) :
    Balanced (Led.openEnds { l with pipes := update l.pipes page y })
      (fun g => (l.ftable g).pipeEnd) E := by
  have hnew : ∀ w', Led.openEnds { l with pipes := update l.pipes page y } (page, w') =
      (w' != w && pi.isOpen w').toNat := fun w' => by
    simp only [Led.openEnds, update_self, hy]
  refine h.ends.dec ?_ fun e he => ?_
  · have hone := h.ends.pos_of_mem (Multiset.mem_cons_self _ _)
    rw [hnew, openEnds_of_some hpi]
    cases pi.isOpen w <;> simp
  obtain ⟨page', w'⟩ := e
  by_cases hp : page' = page
  · subst hp
    have hw : w' ≠ w := fun heq => he (by rw [heq])
    rw [hnew, openEnds_of_some hpi, bne_iff_ne.2 hw, Bool.true_and]
  · exact openEnds_update y hp

theorem pipeclose_at (h : Now good sb { c with ends := (page, w) ::ₘ E } s) :
    wp (pipeclose page w) (fun _ t => Now good sb { c with ends := E } t) (Stops good) s := by
  simp only [pipeclose, wp_run]
  rcases hpi : s.pipes page with _ | pi
  · exact h.sleeps
  have hpages : s.hist.kallocs page = s.hist.kfrees page + 1 := by
    have := h.ledger.pages page
    rwa [show s.led.pipes page = some pi from hpi] at this
  simp only [wp_run]
  split
  · next hfreed =>
    have hends := h.ledger.closeEnd hpi (y := none) fun w' => by
      rw [← pi.isOpen_closeEnd, Pipes.Pipe.isOpen_of_freed hfreed]
      rfl
    have hkf : s.hist.kallocs page =
        update s.hist.kfrees page (s.hist.kfrees page + 1) page + 0 := by
      rw [update_self]
      exact hpages
    have hnew := At.withPipe h (h.ledger.setPipe none hends hkf (fun _ _ => rfl)
      (fun q hq => update_of_ne hq _ _) nofun)
    have hpipes : update (update s.pipes page (some (pi.closeEnd w))) page none =
        update s.pipes page none := update_idem ..
    simp only [kfree, wp_modify, Fs.setPipe, hpipes]
    exact hnew
  · next hopen =>
    have hends := h.ledger.closeEnd hpi (y := some (pi.closeEnd w)) (pi.isOpen_closeEnd w)
    refine At.withPipe h (h.ledger.setPipe _ hends hpages (fun _ _ => rfl) (fun _ _ => rfl)
      fun pi' hpi' => ?_)
    obtain rfl := Option.some.inj hpi'
    simpa using hopen

/-! ## `fileclose` -/

theorem Ledger.frefs_dec (h : Ledger { c with frefs := f ::ₘ F } l)
    (hx : x.ref = (l.ftable f).ref - 1) :
    Balanced (fun g => (update l.ftable f x g).ref) (l.descs c.desc) F := by
  refine h.frefs.dec ?_ fun g hg => ?_
  · rw [update_self]
    exact hx
  · rw [update_of_ne hg]

theorem At.closeFile (h : At good K sb { c with frefs := f ::ₘ F } s) (hK : Stable c.proc c.refs K)
    (x : File) (hx : x.ref = (s.ftable f).ref - 1) (htype : x.type = (s.ftable f).type)
    (hw : x.writable = (s.ftable f).writable) (hidle : x.ref = 0 → x.type = .none) :
    At good K sb { c with frefs := F } (s.setFile f x) :=
  h.setFile hK x htype hw (h.ledger.frefs_dec hx) hidle

theorem fileclose_none_at (h : At good K sb { c with frefs := f ::ₘ F } s) (hK : Stable c.proc c.refs K)
    (htype : (s.ftable f).type = .none) :
    wp (fileclose f) (fun _ t => At good K sb { c with frefs := F } t) (Stops good) s := by
  simp only [fileclose, Blocks.panic, wp_run, htype]
  split
  · exact h.panic (by decide)
  · split
    · exact h.closeFile hK _ rfl htype.symm rfl fun _ => rfl
    · exact h.closeFile hK _ (by simp only; omega) htype.symm rfl fun _ => rfl

theorem At.clearFile (h : Now good sb { c with frefs := f ::ₘ F } s) (hone : (s.ftable f).ref = 1)
    (x : File) (hx : x.ref = 0) (htype : x.type = .none)
    (hT : Balanced (fun ip => (s.led.icache ip).ref) ((s.led.setFile f x).holds c.proc) T)
    (hE : Balanced s.led.openEnds (fun g => (update s.ftable f x g).pipeEnd) E) :
    Now good sb { c with frefs := F, refs := T, ends := E } (s.setFile f x) := by
  refine At.change h (h.ledger.setFile hT (h.ledger.frefs_dec ?_) hE fun _ => htype) fun v hv => ?_
  · exact hx.trans (by rw [show (s.led.ftable f).ref = 1 from hone])
  refine hv.congr rfl rfl rfl hv.rep.hist rfl fun g ip hg hw => ?_
  have hgf : g ≠ f := by
    rintro rfl
    simp only [Fs.setFile, update_self, htype, reduceCtorEq] at hg
  simp only [Fs.setFile, update_of_ne hgf] at hg hw
  exact hv.writable g ip hg hw

theorem fileclose_at (h : Now good sb { c with frefs := f ::ₘ F } s) :
    wp (fileclose f) (fun _ t => Now good sb { c with frefs := F } t) (Stops good) s := by
  cases htype : (s.ftable f).type with
  | none => exact fileclose_none_at h stable_any htype
  | pipe page =>
    simp only [fileclose, Blocks.panic, wp_run, htype]
    split
    · exact h.panic (by decide)
    split
    · exact h.closeFile stable_any _ rfl htype.symm rfl fun hzero => by simp only at hzero; omega
    have hone : (s.ftable f).ref = 1 := by omega
    refine pipeclose_at (c := { c with frefs := F }) (E := c.ends) (At.clearFile h hone _ rfl rfl ?_ ?_)
    · refine h.ledger.refs_setFile ?_
      rw [show s.led.ftable f = s.ftable f from rfl, htype]
      rfl
    refine h.ledger.ends.take (a := f) ?_ ?_ fun g hg => ?_
    · simp only [File.pipeEnd, show s.led.ftable f = s.ftable f from rfl, htype]
    · rw [update_self]
      rfl
    · rw [update_of_ne hg]
      rfl
  | inode ip =>
    simp only [fileclose, Blocks.panic, wp_run, htype]
    split
    · exact h.panic (by decide)
    split
    · exact h.closeFile stable_any _ rfl htype.symm rfl fun hzero => by simp only at hzero; omega
    have hone : (s.ftable f).ref = 1 := by omega
    have hclear := At.clearFile (T := ip ::ₘ c.refs) (E := c.ends) h hone
      { s.ftable f with ref := 0, type := .none } rfl rfl ?_ ?_
    · refine wp_imp (beginOp_at hclear stable_any) ?_
      rintro _ t ⟨ht, -⟩
      refine wp_imp (iput_at (c := { c with frefs := F, out := c.out + 1 }) ht stable_any
        (Nat.le_add_left 1 c.out) frees_any) ?_
      rintro _ u hu
      refine wp_imp (endOp_at hu stable_any) ?_
      rintro _ w ⟨hw, -⟩
      exact hw
    · refine h.ledger.refs.take (a := .inl f) ?_ ((s.led.setFile_holds f _ c.proc).1) fun a ha =>
        (s.led.setFile_holds f _ c.proc).2 a ha
      simp only [Led.holds, show s.led.ftable f = s.ftable f from rfl, htype, FileType.ip]
    · refine h.ledger.ends_setFile ?_
      simp only [File.pipeEnd, show s.led.ftable f = s.ftable f from rfl, htype]

/-! ## `pipealloc` -/

theorem Ledger.newPipe (h : Ledger c l) (hnone : l.pipes page = none)
    (hopen : ∀ w, pi.isOpen w = true) :
    Balanced (Led.openEnds { l with pipes := update l.pipes page (some pi) })
      (fun g => (l.ftable g).pipeEnd) ((page, false) ::ₘ (page, true) ::ₘ c.ends) := by
  have hnew : ∀ w, Led.openEnds { l with pipes := update l.pipes page (some pi) } (page, w) = 1 :=
    fun w => by simp only [Led.openEnds, update_self, Option.elim_some, hopen, Bool.toNat_true]
  have hone : Balanced (update l.openEnds (page, true) 1) (fun g => (l.ftable g).pipeEnd)
      ((page, true) ::ₘ c.ends) := h.ends.inc ?_ ?_
  · refine hone.inc ?_ fun e he => ?_
    · rw [hnew, update_of_ne (by simp), openEnds_of_none hnone]
    obtain ⟨page', w⟩ := e
    by_cases hp : page' = page
    · subst hp
      have hw : w = true := by
        cases w
        · exact absurd rfl he
        · rfl
      rw [hw, hnew, update_self]
    · rw [openEnds_update _ hp, update_of_ne fun heq => hp (congrArg Prod.fst heq)]
  · rw [update_self, openEnds_of_none hnone]
  · exact fun e he => update_of_ne he ..

theorem At.assign (h : Now good sb c s) (hpos : 0 < (s.ftable f).ref) (href : x.ref = (s.ftable f).ref)
    (hT : Balanced (fun ip => (s.led.icache ip).ref) ((s.led.setFile f x).holds c.proc) T)
    (hE : Balanced s.led.openEnds (fun g => (update s.ftable f x g).pipeEnd) E)
    (hw : good → ∀ v ip, Content sb v s → x.type = .inode ip → x.writable = true →
      (v.ino (s.icache ip).inum).type ≠ 0 ∧ (v.ino (s.icache ip).inum).type ≠ tDir) :
    Now good sb { c with refs := T, ends := E } (s.setFile f x) := by
  have hF : Balanced (fun g => (update s.ftable f x g).ref) (s.led.descs c.desc) c.frefs := by
    refine h.ledger.frefs.congr (fun g => ?_) fun _ => rfl
    by_cases hg : g = f
    · rw [hg, update_self, href]
      rfl
    · rw [update_of_ne hg]
      rfl
  refine ⟨h.ledger.setFile hT hF hE fun hzero => by omega, fun hg => ?_⟩
  obtain ⟨v, hv, -⟩ := h.content hg
  refine ⟨v, hv.congr rfl rfl rfl hv.rep.hist rfl fun g ip hgt hgw => ?_, trivial⟩
  by_cases hgf : g = f
  · subst hgf
    simp only [Fs.setFile, update_self] at hgt hgw
    exact hw hg v ip hv hgt hgw
  · simp only [Fs.setFile, update_of_ne hgf] at hgt hgw
    exact hv.writable g ip hgt hgw

theorem At.openPipe (h : Now good sb { c with ends := (page, x.writable) ::ₘ E } s)
    (hnone : (s.ftable f).type = .none) (hpos : 0 < (s.ftable f).ref) (href : x.ref = (s.ftable f).ref)
    (htype : x.type = .pipe page) : Now good sb { c with ends := E } (s.setFile f x) := by
  refine At.assign (c := { c with ends := (page, x.writable) ::ₘ E }) h hpos href
    (h.ledger.refs_setFile ?_) ?_ fun _ v ip _ hx => ?_
  · rw [htype, show s.led.ftable f = s.ftable f from rfl, hnone]
    rfl
  · refine h.ledger.ends.give (a := f) ?_ ?_ fun g hg => ?_
    · simp only [File.pipeEnd, show s.led.ftable f = s.ftable f from rfl, hnone]
    · simp only [update_self, File.pipeEnd, htype]
    · rw [update_of_ne hg]
      rfl
  · rw [htype] at hx
    cases hx

theorem At.openInode (h : Now good sb { c with refs := ip ::ₘ T } s)
    (hnone : (s.ftable f).type = .none) (hpos : 0 < (s.ftable f).ref) (href : x.ref = (s.ftable f).ref)
    (htype : x.type = .inode ip) (hw : good → x.writable = true →
      (s.icache ip).valid = true ∧ (s.icache ip).type ≠ tDir) :
    Now good sb { c with refs := T } (s.setFile f x) := by
  refine At.assign (c := { c with refs := ip ::ₘ T }) h hpos href ?_
    (h.ledger.ends_setFile ?_) fun hg v jp hv hx hwr => ?_
  · refine h.ledger.refs.give ?_ ((s.led.setFile_holds f x c.proc).1.trans ?_) fun a ha =>
      (s.led.setFile_holds f x c.proc).2 a ha
    · simp only [Led.holds, show s.led.ftable f = s.ftable f from rfl, hnone, FileType.ip]
    · rw [htype]
      rfl
  · simp only [File.pipeEnd, show s.led.ftable f = s.ftable f from rfl, hnone, htype]
  · rw [htype] at hx
    obtain rfl := FileType.inode.inj hx
    have hc : (s.icache ip).Caches (s.icache ip).inum :=
      ⟨h.pos_of_ref (Multiset.mem_cons_self ..), (hw hg hwr).1, rfl⟩
    refine ⟨hv.valid ip _ hc, ?_⟩
    rw [← hv.rep.copy ip _ hc]
    exact (hw hg hwr).2

theorem At.newPipe (h : Now good sb c s) (hnone : s.pipes page = none) {f0 f1 : Fid} (hne : f1 ≠ f0)
    (h0 : (s.ftable f0).type = .none) (h1 : (s.ftable f1).type = .none) (hpos0 : 0 < (s.ftable f0).ref)
    (hpos1 : 0 < (s.ftable f1).ref) :
    let s1 := s.withPipe page (some ⟨fun _ => 1, 0, 0, true, true⟩)
      (update s.hist.kallocs page (s.hist.kallocs page + 1)) s.hist.kfrees
    let s2 := s1.setFile f0 { s1.ftable f0 with type := .pipe page, readable := true, writable := false }
    Now good sb c
      (s2.setFile f1 { s2.ftable f1 with type := .pipe page, readable := false, writable := true }) := by
  intro s1 s2
  have hpage : update s.hist.kallocs page (s.hist.kallocs page + 1) page = s.hist.kfrees page + 1 := by
    have hpages := h.ledger.pages page
    rw [show s.led.pipes page = none from hnone] at hpages
    rw [update_self]
    exact congrArg (· + 1) hpages
  have hends := h.ledger.newPipe hnone fun w => show Pipes.Pipe.isOpen ⟨fun _ => 1, 0, 0, true, true⟩ w = true
    by cases w <;> rfl
  have hs1 : Now good sb { c with ends := (page, false) ::ₘ (page, true) ::ₘ c.ends } s1 := by
    refine At.withPipe h (h.ledger.setPipe _ hends hpage (fun q hq => update_of_ne hq ..)
      (fun _ _ => rfl) fun pi hpi => ?_)
    obtain rfl := Option.some.inj hpi
    rfl
  have hs2 : Now good sb { c with ends := (page, true) ::ₘ c.ends } s2 :=
    At.openPipe hs1 h0 hpos0 rfl rfl
  have hf1 : s2.ftable f1 = s.ftable f1 := update_of_ne hne ..
  refine At.openPipe (c := c) hs2 ?_ ?_ rfl rfl
  · rw [hf1]
    exact h1
  · rw [hf1]
    exact hpos1

theorem pipealloc_at (h : Now good sb c s) {page : Option ℕ}
    (hpage : ∀ q, page = some q → s.pipes q = none) : wp (pipealloc page) (fun r t => match r with
      | none => Now good sb c t
      | some (f0, f1) => Now good sb { c with frefs := f0 ::ₘ f1 ::ₘ c.frefs } t) (Stops good) s := by
  simp only [pipealloc, wp_bind]
  refine wp_imp (filealloc_at h stable_any) ?_
  rintro (_ | f0) t ht
  · exact ht
  obtain ⟨ht, -, x0, hx0, rfl⟩ := ht
  simp only [wp_bind]
  refine wp_imp (filealloc_at ht stable_any) ?_
  rintro (_ | f1) u hu
  · simp only [wp_bind]
    refine wp_imp (fileclose_at hu) ?_
    rintro _ w hw
    exact hw
  obtain ⟨hu, hzero, x1, hx1, rfl⟩ := hu
  have hpos0 : 0 < ((s.setFile f0 x0).ftable f0).ref := ht.ledger.frefs.pos_of_mem
    (Multiset.mem_cons_self ..)
  have hne : f1 ≠ f0 := fun heq => by
    rw [heq] at hzero
    omega
  rcases page with _ | page
  · simp only [wp_bind]
    rw [Multiset.cons_swap] at hu
    refine wp_imp (fileclose_at hu) ?_
    rintro _ w hw
    refine wp_imp (fileclose_at hw) ?_
    rintro _ w' hw'
    exact hw'
  simp only [wp_run]
  rw [Multiset.cons_swap] at hu
  refine At.newPipe hu (hpage page rfl) hne ?_ ?_ ?_ ?_
  · simpa only [Fs.setFile, update_of_ne hne.symm, update_self] using hx0
  · simpa only [Fs.setFile, update_self] using hx1
  · exact hu.ledger.frefs.pos_of_mem (Multiset.mem_cons_self ..)
  · exact hu.ledger.frefs.pos_of_mem (Multiset.mem_cons_of_mem (Multiset.mem_cons_self ..))

end Xv6.Blocks

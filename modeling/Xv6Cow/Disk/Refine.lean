import Xv6Cow.Disk.Ide

/-!
# `ide.c` does what `memide.c` does

The calls are `old ++ q` in the order in which they were queued: those in `old` are complete, and `q` is
the queue.  The disk works on the first call of `q`, and nobody touches a buffer of `q` in the meantime,
because its lock is held by a process that waits in `iderw`.
-/

namespace Xv6.Disk

open Function Prog Lts Slist

variable {d₀ d d' : ℕ → Sector} {s t : Ide} {old q : List Call} {p : Pid} {b : Bptr} {k : ℕ}
  {x : Content} {E : String → Ide → Prop}

/-! ## One call of `memide.c` -/

/-- The buffer after the call. -/
def Content.after (x : Content) (d : ℕ → Sector) : Content :=
  { x with data := if x.dirty then x.data else d x.blockno, valid := true, dirty := false }

/-- The disk after the call. -/
def Content.write (x : Content) (d : ℕ → Sector) : ℕ → Sector :=
  if x.dirty then update d x.blockno x.data else d

theorem memIderw_ok (h : x.Request) (d : ℕ → Sector) :
    memIderw true x d = .ok (x.after d) (x.write d) := by
  obtain ⟨hdev, hblock, hflags⟩ := h
  have hrun : wp (memIderw true x) (fun r t => r = x.after d ∧ t = x.write d) (fun _ _ => False) d := by
    have hlt : ¬ fssize ≤ x.blockno := by omega
    simp only [memIderw, wp_run, Bool.not_true, hflags, hdev, ne_eq, not_true_eq_false, hlt,
      Content.after, Content.write]
    cases hd : x.dirty with
    | true => simp
    | false => simp [← hd]
  obtain ⟨_, _, hok, rfl, rfl⟩ := wp_returns hrun
  exact hok

theorem memRun_append {cs cs' : List Call} {rs : List Content} (h : memRun cs d = .ok rs d') :
    memRun (cs ++ cs') d = match memRun cs' d' with
      | .ok rs' d'' => .ok (rs ++ rs') d''
      | .error e d'' => .error e d'' := by
  induction cs generalizing d rs with
  | nil =>
    cases h
    rw [List.nil_append]
    cases memRun cs' d' <;> rfl
  | cons c cs ih =>
    simp only [List.cons_append, memRun, bind, EStateM.bind] at h ⊢
    cases hc : memIderw true c.arg d with
    | error e d1 =>
      rw [hc] at h
      cases h
    | ok r d1 =>
      simp only [hc] at h ⊢
      cases hcs : memRun cs d1 with
      | error e d2 =>
        rw [hcs] at h
        cases h
      | ok rs1 d2 =>
        simp only [hcs] at h
        cases h
        rw [ih hcs]
        cases memRun cs' d' <;> rfl

theorem memRun_concat {cs : List Call} {rs : List Content} {c : Call} (h : memRun cs d = .ok rs d')
    (hc : c.arg.Request) :
    memRun (cs ++ [c]) d = .ok (rs ++ [c.arg.after d']) (c.arg.write d') := by
  rw [memRun_append h]
  simp only [memRun, bind, EStateM.bind, memIderw_ok hc]
  rfl

theorem memRun_ok {cs : List Call} (h : ∀ c ∈ cs, c.arg.Request) (d : ℕ → Sector) :
    ∃ rs d', memRun cs d = .ok rs d' := by
  induction cs generalizing d with
  | nil => exact ⟨[], d, rfl⟩
  | cons c cs ih =>
    obtain ⟨rs, d', hrs⟩ := ih (fun c' hc' => h c' (List.mem_cons_of_mem _ hc')) (c.arg.write d)
    refine ⟨c.arg.after d :: rs, d', ?_⟩
    simp only [memRun, bind, EStateM.bind, memIderw_ok (h c List.mem_cons_self), hrs]
    rfl

/-! ## The invariant -/

/-- What the disk does for the first call of the queue, when the calls before it have left the disk
`d`. -/
def Works (q : List Call) (disk d : ℕ → Sector) : Device → Prop
  | .idle => q = [] ∧ disk = d
  | .busy r out => ∃ c q', q = c :: q' ∧ r.disk = 1 ∧ r.sector = c.arg.blockno ∧
      out = (if c.arg.dirty then some c.arg.data else none) ∧ disk = d
  | .done buf => ∃ c q', q = c :: q' ∧ disk = c.arg.write d ∧
      (c.arg.dirty = false → buf = d c.arg.blockno)

/-- The process of the `k`-th call waits, with the buffer as it was passed. -/
structure Waits (s : Ide) (k : ℕ) (c : Call) : Prop where
  pc : s.pc c.pid = .asleep c.buf k ∨ s.pc c.pid = .awake c.buf k
  lock : s.lock c.buf = some c.pid
  content : (s.buf c.buf).toContent = c.arg
  request : c.arg.Request

structure Inv (d₀ : ℕ → Sector) (s : Ide) (old q : List Call) : Prop where
  disk1 : s.havedisk1 = true
  queued : s.queued = old ++ q
  completed : s.completed.map Prod.fst = old.map Call.buf
  started : s.started = old.map Call.buf ++ (q.map Call.buf).take 1
  chain : Chain (fun b => (s.buf b).qnext) s.idequeue (q.map Call.buf)
  nodup : (q.map Call.buf).Nodup
  waits : ∀ j c, q[j]? = some c → Waits s (old.length + j) c
  called : ∀ p b, s.pc p = .called b → s.lock b = some p ∧ (s.buf b).toContent.Request
  asleep : ∀ p b k, s.pc p = .asleep b k → ∃ j x, k = old.length + j ∧ q[j]? = some ⟨p, b, x⟩
  awake : ∀ p b k, s.pc p = .awake b k → s.lock b = some p ∧
    (∃ x, s.queued[k]? = some ⟨p, b, x⟩) ∧
    (k < old.length → s.completed[k]? = some (b, (s.buf b).toContent))
  mem : ∃ d, memRun old d₀ = .ok (s.completed.map Prod.snd) d ∧ Works q (s.disk 1) d s.dev
  clean : ∀ r ∈ s.completed, r.2.valid = true ∧ r.2.dirty = false

namespace Inv

theorem owner (h : Inv d₀ s old q) (hb : b ∈ q.map Call.buf) :
    ∃ j c, q[j]? = some c ∧ c.buf = b ∧ Waits s (old.length + j) c := by
  obtain ⟨c, hc, rfl⟩ := List.mem_map.1 hb
  obtain ⟨j, hj⟩ := List.mem_iff_getElem?.1 hc
  exact ⟨j, c, hj, rfl, h.waits j c hj⟩

/-- What a process has locked that does not wait is not in the queue. -/
theorem not_mem (h : Inv d₀ s old q) (hl : s.lock b = some p)
    (hp : ∀ k, s.pc p ≠ .asleep b (old.length + k) ∧ s.pc p ≠ .awake b (old.length + k)) :
    b ∉ q.map Call.buf := by
  intro hb
  obtain ⟨j, c, -, rfl, hw⟩ := h.owner hb
  have heq : c.pid = p := Option.some.inj (hw.lock.symm.trans hl)
  rcases hw.pc with hpc | hpc
  · exact (hp j).1 (heq ▸ hpc)
  · exact (hp j).2 (heq ▸ hpc)

end Inv

theorem Start.inv (h : Start s) : Inv (s.disk 1) s [] [] where
  disk1 := h.disk1
  queued := h.queued
  completed := by rw [h.completed]; rfl
  started := by rw [h.started]; rfl
  chain := h.empty
  nodup := List.nodup_nil
  waits _ _ hj := by cases hj
  called p b hp := by rw [h.out] at hp; cases hp
  asleep p b k hp := by rw [h.out] at hp; cases hp
  awake p b k hp := by rw [h.out] at hp; cases hp
  mem := by
    refine ⟨s.disk 1, ?_, ?_⟩
    · rw [h.completed]
      rfl
    · rw [h.idle]
      exact ⟨rfl, rfl⟩
  clean r hr := by
    rw [h.completed] at hr
    cases hr

/-! ## Steps outside the driver -/

namespace Inv

theorem outer (h : Inv d₀ s old q) {f : Bptr → Buf} {l : Bptr → Option Pid}
    (hq : ∀ b, (f b).qnext = (s.buf b).qnext)
    (hkeep : ∀ b p, s.lock b = some p → s.pc p ≠ .out →
      l b = some p ∧ (f b).toContent = (s.buf b).toContent) :
    Inv d₀ { s with buf := f, lock := l } old q := by
  refine ⟨h.disk1, h.queued, h.completed, h.started, ?_, h.nodup, fun j c hj => ?_,
    fun p b hp => ?_, h.asleep, fun p b k hp => ?_, h.mem, h.clean⟩
  · exact h.chain.congr fun b _ => hq b
  · have hw := h.waits j c hj
    have hne : s.pc c.pid ≠ .out := by
      rcases hw.pc with hpc | hpc <;> rw [hpc] <;> nofun
    obtain ⟨hl, hf⟩ := hkeep _ _ hw.lock hne
    exact ⟨hw.pc, hl, hf.trans hw.content, hw.request⟩
  · obtain ⟨hlock, hreq⟩ := h.called p b hp
    obtain ⟨hl, hf⟩ := hkeep b p hlock (by rw [hp]; nofun)
    exact ⟨hl, hf ▸ hreq⟩
  · obtain ⟨hlock, hx, hdone⟩ := h.awake p b k hp
    obtain ⟨hl, hf⟩ := hkeep b p hlock (by rw [hp]; nofun)
    exact ⟨hl, hx, fun hk => by rw [hdone hk, ← hf]⟩

theorem setPc (h : Inv d₀ s old q) {c0 : Pc} (hw : ∀ j c, q[j]? = some c → c.pid = p →
      c0 = .asleep c.buf (old.length + j) ∨ c0 = .awake c.buf (old.length + j))
    (hcalled : ∀ b, c0 = .called b → s.lock b = some p ∧ (s.buf b).toContent.Request)
    (hasleep : ∀ b k, c0 = .asleep b k → ∃ j x, k = old.length + j ∧ q[j]? = some ⟨p, b, x⟩)
    (hawake : ∀ b k, c0 = .awake b k → s.lock b = some p ∧ (∃ x, s.queued[k]? = some ⟨p, b, x⟩) ∧
      (k < old.length → s.completed[k]? = some (b, (s.buf b).toContent))) :
    Inv d₀ (s.setPc p c0) old q := by
  have hself : (s.setPc p c0).pc p = c0 := update_self ..
  have hother : ∀ p', p' ≠ p → (s.setPc p c0).pc p' = s.pc p' := fun p' hne =>
    update_of_ne hne ..
  refine ⟨h.disk1, h.queued, h.completed, h.started, h.chain, h.nodup, fun j c hj => ?_,
    fun p' b hp => ?_, fun p' b k hp => ?_, fun p' b k hp => ?_, h.mem, h.clean⟩
  · have hwait := h.waits j c hj
    refine ⟨?_, hwait.lock, hwait.content, hwait.request⟩
    by_cases hc : c.pid = p
    · rw [hc, hself]
      exact hw j c hj hc
    · rw [hother _ hc]
      exact hwait.pc
  · by_cases hpp : p' = p
    · subst hpp
      exact hcalled b (hself ▸ hp)
    · exact h.called p' b (hother p' hpp ▸ hp)
  · by_cases hpp : p' = p
    · subst hpp
      exact hasleep b k (hself ▸ hp)
    · exact h.asleep p' b k (hother p' hpp ▸ hp)
  · by_cases hpp : p' = p
    · subst hpp
      exact hawake b k (hself ▸ hp)
    · exact h.awake p' b k (hother p' hpp ▸ hp)

theorem pid_ne (h : Inv d₀ s old q) (hp : ∀ b k, s.pc p ≠ .asleep b k ∧ s.pc p ≠ .awake b k) {j : ℕ}
    {c : Call} (hj : q[j]? = some c) : c.pid ≠ p := by
  rintro rfl
  rcases (h.waits j c hj).pc with hpc | hpc
  · exact (hp _ _).1 hpc
  · exact (hp _ _).2 hpc

theorem acquiresleep (h : Inv d₀ s old q) (hb : s.lock b = none) :
    Inv d₀ { s with lock := update s.lock b (some p) } old q := by
  refine h.outer (fun _ => rfl) fun b' p' hl _ => ⟨?_, rfl⟩
  have hne : b' ≠ b := by
    rintro rfl
    rw [hb] at hl
    cases hl
  rw [update_of_ne hne, hl]

theorem buf_ne (hp : s.pc p = .out) (hb : s.lock b = some p) {b' : Bptr} {p' : Pid}
    (hl : s.lock b' = some p') (hp' : s.pc p' ≠ .out) : b' ≠ b := by
  rintro rfl
  rw [hb] at hl
  exact hp' (Option.some.inj hl ▸ hp)

theorem releasesleep (h : Inv d₀ s old q) (hp : s.pc p = .out) (hb : s.lock b = some p) :
    Inv d₀ { s with lock := update s.lock b none } old q := by
  refine h.outer (fun _ => rfl) fun b' p' hl hp' => ⟨?_, rfl⟩
  rw [update_of_ne (buf_ne hp hb hl hp'), hl]

theorem store (h : Inv d₀ s old q) (hp : s.pc p = .out) (hb : s.lock b = some p) (x : Content) :
    Inv d₀ (s.setContent b x) old q := by
  refine h.outer (fun b' => ?_) fun b' p' hl hp' => ⟨hl, ?_⟩
  · by_cases hbb : b' = b
    · rw [hbb, update_self]
    · rw [update_of_ne hbb]
  · rw [update_of_ne (buf_ne hp hb hl hp')]

/-! ## Steps of the driver -/

section

variable (h : Inv d₀ s old q)

include h

theorem check (hp : s.pc p = .out) (hb : s.lock b = some p) (hreq : (s.buf b).toContent.Request) :
    wp (iderwCheck p b) (fun _ t => Inv d₀ t old q ∧ t = s.setPc p (.called b))
      (fun _ _ => False) s := by
  obtain ⟨hdev, hblock, hflags⟩ := hreq
  simp only [iderwCheck, wp_run, hb, ne_eq, not_true_eq_false, hflags, h.disk1, Bool.not_true,
    and_false]
  have hne : ∀ b k, s.pc p ≠ .asleep b k ∧ s.pc p ≠ .awake b k := by
    rw [hp]
    exact fun _ _ => ⟨nofun, nofun⟩
  refine ⟨h.setPc (fun j c hj hc => absurd hc (h.pid_ne hne hj)) (fun b' hc => ?_) nofun nofun, trivial⟩
  cases hc
  exact ⟨hb, hdev, hblock, hflags⟩

theorem rouse (hp : s.pc p = .asleep b k) : Inv d₀ (s.setPc p (.awake b k)) old q := by
  obtain ⟨j, x, hk, hj⟩ := h.asleep p b k hp
  refine h.setPc (fun j' c hj' hc => ?_) nofun nofun fun b' k' hc => ?_
  · rcases (h.waits j' c hj').pc with hpc | hpc
    · rw [hc, hp] at hpc
      obtain ⟨rfl, rfl⟩ := Pc.asleep.inj hpc
      exact .inr rfl
    · rw [hc, hp] at hpc
      cases hpc
  · cases hc
    refine ⟨(h.waits j _ hj).lock, ⟨x, ?_⟩, fun hlt => by omega⟩
    rw [h.queued, hk, List.getElem?_append_right (by omega), Nat.add_sub_cancel_left, hj]

/-- The test of the loop lets a process go exactly if its request is complete. -/
theorem test_iff (hp : s.pc p = .awake b k) :
    ((s.buf b).valid && !(s.buf b).dirty) = true ↔ k < old.length := by
  obtain ⟨hlock, ⟨x, hx⟩, hdone⟩ := h.awake p b k hp
  constructor
  · intro htest
    by_contra hk
    rw [h.queued, List.getElem?_append_right (by omega)] at hx
    have hw := h.waits _ _ hx
    have hflags := hw.request.2.2
    rw [← hw.content, htest] at hflags
    cases hflags
  · intro hk
    obtain ⟨hv, hd⟩ := h.clean _ (List.mem_of_getElem? (hdone hk))
    rw [show (s.buf b).valid = true from hv, show (s.buf b).dirty = false from hd]
    rfl

theorem resume (hp : s.pc p = .awake b k) : wp (iderwTest p b k) (fun _ t => Inv d₀ t old q ∧
      t = s.setPc p (if k < old.length then .out else .asleep b k)) (fun _ _ => False) s := by
  obtain ⟨hlock, ⟨x, hx⟩, hdone⟩ := h.awake p b k hp
  simp only [iderwTest, wp_modify]
  have hcall : ∀ j c, q[j]? = some c → c.pid = p → c.buf = b ∧ old.length + j = k := by
    intro j c hj hc
    rcases (h.waits j c hj).pc with hpc | hpc
    · rw [hc, hp] at hpc
      cases hpc
    · rw [hc, hp] at hpc
      cases hpc
      exact ⟨rfl, rfl⟩
  by_cases hk : k < old.length
  · rw [if_pos ((h.test_iff hp).2 hk), if_pos hk]
    refine ⟨h.setPc (fun j c hj hc => ?_) nofun nofun nofun, rfl⟩
    have := (hcall j c hj hc).2
    omega
  rw [if_neg fun htest => hk ((h.test_iff hp).1 htest), if_neg hk]
  refine ⟨h.setPc (fun j c hj hc => ?_) nofun (fun b' k' hc => ?_) nofun, rfl⟩
  · obtain ⟨rfl, rfl⟩ := hcall j c hj hc
    exact .inl rfl
  · cases hc
    rw [h.queued, List.getElem?_append_right (by omega)] at hx
    exact ⟨k - old.length, x, by omega, hx⟩

theorem device {r : Regs} {out : Option Sector} (hdev : s.dev = .busy r out) :
    Inv d₀ (transfer s r out) old q := by
  obtain ⟨d, hmem, hworks⟩ := h.mem
  rw [hdev] at hworks
  obtain ⟨c, q', rfl, hdisk, hsector, hout, hd⟩ := hworks
  have hgoal : ∀ D S, Works (c :: q') (D 1) d S →
      Inv d₀ { s with dev := S, disk := D } old (c :: q') := fun D S hw =>
    ⟨h.disk1, h.queued, h.completed, h.started, h.chain, h.nodup,
      fun j c hj => ⟨(h.waits j c hj).pc, (h.waits j c hj).lock, (h.waits j c hj).content,
        (h.waits j c hj).request⟩, h.called, h.asleep, h.awake, ⟨d, hmem, hw⟩, h.clean⟩
  cases hdirty : c.arg.dirty with
  | true =>
    rw [hdirty, if_pos rfl] at hout
    subst hout
    refine hgoal _ _ ⟨c, q', rfl, ?_, fun hc => ?_⟩
    · rw [hdisk, update_self, hsector, hd, Content.write, if_pos hdirty]
    · rw [hdirty] at hc
      cases hc
  | false =>
    rw [hdirty, if_neg nofun] at hout
    subst hout
    refine hgoal s.disk _ ⟨c, q', rfl, ?_, fun _ => ?_⟩
    · rw [hd, Content.write, if_neg (by rw [hdirty]; nofun)]
    · rw [hdisk, hsector, hd]

end

end Inv

/-! ## A request is queued -/

theorem regsFor_request (h : x.Request) : (regsFor x).disk = 1 ∧ (regsFor x).sector = x.blockno := by
  have hall : ∀ n : Fin fssize, (regsFor ⟨false, false, 1, n, fun _ => 0⟩).disk = 1 ∧
      (regsFor ⟨false, false, 1, n, fun _ => 0⟩).sector = n := by
    decide +kernel
  have hregs : regsFor x = regsFor ⟨false, false, 1, x.blockno, fun _ => 0⟩ := by
    unfold regsFor
    rw [h.1]
  rw [hregs]
  exact hall ⟨x.blockno, h.2.1⟩

theorem idestart_rule {Q : Unit → Ide → Prop} (hblock : (s.buf b).blockno < fssize)
    (hdev : ∀ r out, s.dev ≠ .busy r out)
    (hQ : Q () { s with
      dev := .busy (regsFor (s.buf b).toContent)
        (if (s.buf b).dirty then some (s.buf b).data else none)
      started := s.started ++ [b] }) :
    wp (idestart (some b)) Q E s := by
  have hlt : ¬ fssize ≤ (s.buf b).blockno := by omega
  have hcount : ¬ 7 < bsize / sectorSize := by decide
  simp only [idestart, wp_run, hlt, hcount]
  cases hd : s.dev with
  | idle => exact hQ
  | busy r out => exact absurd hd (hdev r out)
  | done buf => exact hQ

theorem setQnext_content (s : Ide) (b b' : Bptr) (n : Option Bptr) :
    ((s.setQnext b n).buf b').toContent = (s.buf b').toContent := by
  by_cases h : b' = b
  · rw [h, Ide.setQnext, Ide.setBuf]
    simp
  · rw [Ide.setQnext, Ide.setBuf]
    simp [h]

theorem setQnext_qnext_self (s : Ide) (b : Bptr) (n : Option Bptr) :
    ((s.setQnext b n).buf b).qnext = n := by
  simp [Ide.setQnext, Ide.setBuf]

theorem setQnext_qnext_of_ne (s : Ide) {b b' : Bptr} (h : b' ≠ b) (n : Option Bptr) :
    ((s.setQnext b n).buf b').qnext = (s.buf b').qnext := by
  simp [Ide.setQnext, Ide.setBuf, h]

/-- The loop ends, and the buffer is the last of the queue then. -/
theorem enqueue_rule {l : List Bptr} (hc : Chain (fun b => (s.buf b).qnext) s.idequeue l)
    (hnodup : (l ++ [b]).Nodup) :
    wp (enqueue b) (fun _ t => ∃ f, t = { s with buf := f, idequeue := (l ++ [b]).head? } ∧
      (∀ b', (f b').toContent = (s.buf b').toContent) ∧
      Chain (fun b' => (f b').qnext) (l ++ [b]).head? (l ++ [b])) E s := by
  have hb : b ∉ l := fun hmem => by
    have := (List.nodup_append'.1 hnodup).2.2
    exact this hmem (List.mem_singleton_self b)
  have hlen : l.length < nbuf + 1 := by
    have := (List.nodup_append'.1 hnodup).1.length_le_card
    rw [Fintype.card_fin] at this
    omega
  have hchain : Chain (fun c => ((s.setQnext b none).buf c).qnext) s.idequeue l :=
    hc.congr fun c hcl => setQnext_qnext_of_ne s (fun he : c = b => hb (he ▸ hcl)) none
  have hwalk := hchain.walk hlen none
  simp only [enqueue, wp_run]
  rw [show (s.setQnext b none).idequeue = s.idequeue from rfl, hwalk, Option.or_none]
  rcases hlast : l.getLast? with _ | c
  · obtain rfl := List.getLast?_eq_none_iff.1 hlast
    refine ⟨(s.setQnext b none).buf, rfl, fun b' => setQnext_content s b b' none, rfl, ?_⟩
    exact setQnext_qnext_self s b none
  have hcl := List.mem_of_getLast? hlast
  have hcb : b ≠ c := fun he => hb (he ▸ hcl)
  have hne : l ≠ [] := List.ne_nil_of_mem hcl
  have hhead : (l ++ [b]).head? = s.idequeue := by
    rw [hc.head?, List.head?_append_of_ne_nil _ hne]
  refine ⟨((s.setQnext b none).setQnext c (some b)).buf, ?_, fun b' => ?_, ?_⟩
  · rw [hhead]
    rfl
  · rw [setQnext_content, setQnext_content]
  rw [hhead]
  refine hchain.concat hne hnodup (fun y hy => ?_) (fun y _ hy => ?_) ?_
  · obtain rfl := Option.some.inj (hlast.symm.trans hy)
    exact setQnext_qnext_self ..
  · exact setQnext_qnext_of_ne _ (fun he : y = c => hy (he ▸ hlast)) _
  · exact (setQnext_qnext_of_ne _ hcb _).trans (setQnext_qnext_self ..)

theorem Works.append {disk : ℕ → Sector} {dev : Device} {c : Call} (h : Works q disk d dev)
    (hne : q ≠ []) : Works (q ++ [c]) disk d dev := by
  cases dev with
  | idle => exact absurd h.1 hne
  | busy r out =>
    obtain ⟨c0, q', rfl, hrest⟩ := h
    exact ⟨c0, q' ++ [c], rfl, hrest⟩
  | done buf =>
    obtain ⟨c0, q', rfl, hrest⟩ := h
    exact ⟨c0, q' ++ [c], rfl, hrest⟩

namespace Inv

theorem getElem?_append_of_some {α : Type} {l l' : List α} {a : α} (h : l[k]? = some a) :
    (l ++ l')[k]? = some a := by
  rw [List.getElem?_append_left (List.getElem?_eq_some_iff.1 h).1, h]

theorem push (h : Inv d₀ s old q) (hp : s.pc p = .called b) {f : Bptr → Buf}
    (hf : ∀ b', (f b').toContent = (s.buf b').toContent)
    (hchain : Chain (fun b' => (f b').qnext) (q.map Call.buf ++ [b]).head? (q.map Call.buf ++ [b]))
    (hnodup : (q.map Call.buf ++ [b]).Nodup) {dev : Device} {started : List Bptr}
    (hstarted : started = old.map Call.buf ++ (q.map Call.buf ++ [b]).take 1)
    (hdev : ∀ d, Works q (s.disk 1) d s.dev →
      Works (q ++ [⟨p, b, (s.buf b).toContent⟩]) (s.disk 1) d dev) :
    Inv d₀ { s with
      buf := f
      idequeue := (q.map Call.buf ++ [b]).head?
      dev := dev
      started := started
      queued := s.queued ++ [⟨p, b, (s.buf b).toContent⟩]
      pc := update s.pc p (.asleep b (old.length + q.length)) } old
      (q ++ [⟨p, b, (s.buf b).toContent⟩]) := by
  obtain ⟨hlock, hreq⟩ := h.called p b hp
  have hne : ∀ b k, s.pc p ≠ .asleep b k ∧ s.pc p ≠ .awake b k := by
    rw [hp]
    exact fun _ _ => ⟨nofun, nofun⟩
  have hmap : (q ++ [(⟨p, b, (s.buf b).toContent⟩ : Call)]).map Call.buf = q.map Call.buf ++ [b] := by
    rw [List.map_append]
    rfl
  have hother : ∀ p', p' ≠ p → update s.pc p (.asleep b (old.length + q.length)) p' =
      s.pc p' := fun p' hpp => update_of_ne hpp ..
  have hself : update s.pc p (.asleep b (old.length + q.length)) p =
      .asleep b (old.length + q.length) := update_self ..
  obtain ⟨d, hmem, hworks⟩ := h.mem
  refine ⟨h.disk1, ?_, h.completed, ?_, ?_, ?_, fun j c hj => ?_, fun p' b' hpc => ?_,
    fun p' b' k hpc => ?_, fun p' b' k hpc => ?_, ⟨d, hmem, hdev d hworks⟩, h.clean⟩
  · rw [h.queued, List.append_assoc]
  · rw [hmap]
    exact hstarted
  · rw [hmap]
    exact hchain
  · rw [hmap]
    exact hnodup
  · rcases Nat.lt_or_ge j q.length with hlt | hge
    · rw [List.getElem?_append_left hlt] at hj
      have hw := h.waits j c hj
      refine ⟨?_, hw.lock, (hf _).trans hw.content, hw.request⟩
      show update s.pc p _ c.pid = _ ∨ update s.pc p _ c.pid = _
      rw [hother _ (h.pid_ne hne hj)]
      exact hw.pc
    rw [List.getElem?_append_right hge] at hj
    obtain ⟨hlt, -⟩ := List.getElem?_eq_some_iff.1 hj
    obtain rfl : j = q.length := by
      rw [List.length_singleton] at hlt
      omega
    rw [Nat.sub_self] at hj
    cases hj
    exact ⟨.inl hself, hlock, hf b, hreq⟩
  · change update s.pc p _ p' = _ at hpc
    have hpp : p' ≠ p := by
      rintro rfl
      rw [hself] at hpc
      cases hpc
    rw [hother p' hpp] at hpc
    obtain ⟨hl, hr⟩ := h.called p' b' hpc
    exact ⟨hl, (hf b').symm ▸ hr⟩
  · change update s.pc p _ p' = _ at hpc
    by_cases hpp : p' = p
    · subst hpp
      rw [hself] at hpc
      cases hpc
      exact ⟨q.length, _, rfl, List.getElem?_concat_length⟩
    · rw [hother p' hpp] at hpc
      obtain ⟨j, x, hk, hj⟩ := h.asleep p' b' k hpc
      exact ⟨j, x, hk, getElem?_append_of_some hj⟩
  · change update s.pc p _ p' = _ at hpc
    have hpp : p' ≠ p := by
      rintro rfl
      rw [hself] at hpc
      cases hpc
    rw [hother p' hpp] at hpc
    obtain ⟨hl, ⟨x, hx⟩, hdone⟩ := h.awake p' b' k hpc
    exact ⟨hl, ⟨x, getElem?_append_of_some hx⟩, fun hk => by rw [hdone hk, ← hf]⟩

theorem queue (h : Inv d₀ s old q) (hp : s.pc p = .called b) :
    wp (iderwQueue p b) (fun _ t => Inv d₀ t old (q ++ [⟨p, b, (s.buf b).toContent⟩]) ∧
      t.pc = update s.pc p (.asleep b (old.length + q.length))) (fun _ _ => False) s := by
  obtain ⟨hlock, hreq⟩ := h.called p b hp
  have hb : b ∉ q.map Call.buf := h.not_mem hlock fun k => by
    rw [hp]
    exact ⟨nofun, nofun⟩
  have hnodup : (q.map Call.buf ++ [b]).Nodup :=
    List.nodup_append'.2 ⟨h.nodup, List.nodup_singleton b, by simpa using hb⟩
  have hlen : s.queued.length = old.length + q.length := by
    rw [h.queued, List.length_append]
  simp only [iderwQueue, wp_bind, wp_get, wp_set]
  refine wp_imp (enqueue_rule h.chain hnodup) ?_
  rintro _ t ⟨f, rfl, hf, hchain⟩
  have hflags : ((f b).valid && !(f b).dirty) = false := by
    have := hreq.2.2
    rwa [← hf b] at this
  have htest : ∀ {u : Ide}, u.buf = f →
      wp (iderwTest p b s.queued.length) (fun _ t => t = u.setPc p (.asleep b (old.length + q.length)))
        (fun _ _ => False) u := by
    rintro u rfl
    simp only [iderwTest, wp_modify, hflags, Bool.false_eq_true, if_false, hlen]
  by_cases hq : q = []
  · subst hq
    have hidle : s.dev = .idle := by
      obtain ⟨d, -, hworks⟩ := h.mem
      cases hd : s.dev with
      | idle => rfl
      | busy r out =>
        rw [hd] at hworks
        obtain ⟨c, q', hnil, -⟩ := hworks
        cases hnil
      | done buf =>
        rw [hd] at hworks
        obtain ⟨c, q', hnil, -⟩ := hworks
        cases hnil
    have hhead : (List.map Call.buf [] ++ [b]).head? = some b := rfl
    rw [if_pos hhead, wp_bind]
    refine idestart_rule ?_ ?_ ?_
    · show (f b).blockno < fssize
      rw [show (f b).blockno = (s.buf b).blockno from congrArg Content.blockno (hf b)]
      exact hreq.2.1
    · intro r out hd
      rw [show s.dev = .busy r out from hd] at hidle
      cases hidle
    refine wp_imp (htest rfl) ?_
    rintro _ _ rfl
    refine ⟨h.push hp hf hchain hnodup ?_ fun d hworks => ?_, rfl⟩
    · show s.started ++ [b] = _
      rw [h.started]
      simp
    rw [hidle] at hworks
    obtain ⟨hdisk, hsector⟩ := regsFor_request hreq
    show Works _ _ _ (.busy (regsFor (f b).toContent) (if (f b).toContent.dirty then
      some (f b).toContent.data else none))
    rw [hf b]
    exact ⟨_, [], rfl, hdisk, hsector, rfl, hworks.2⟩
  · have hhead : (q.map Call.buf ++ [b]).head? ≠ some b := by
      obtain ⟨c, q', rfl⟩ := List.exists_cons_of_ne_nil hq
      intro he
      exact hb (Option.some.inj he ▸ List.mem_cons_self)
    rw [if_neg hhead]
    refine wp_imp (htest rfl) ?_
    rintro _ _ rfl
    refine ⟨h.push hp hf hchain hnodup ?_ fun d hworks => hworks.append hq, rfl⟩
    obtain ⟨c, q', rfl⟩ := List.exists_cons_of_ne_nil hq
    exact h.started

/-! ## A request is complete -/

theorem of_pc_wakeup {p' : Pid} {pc : Pc} (hp : (wakeup b s).pc p' = pc) :
    (s.pc p' = pc ∧ ∀ k, pc ≠ .asleep b k) ∨ ∃ k, s.pc p' = .asleep b k ∧ pc = .awake b k := by
  simp only [wakeup] at hp
  cases hpc : s.pc p' with
  | asleep b' k =>
    simp only [hpc] at hp
    split_ifs at hp with hb
    · exact .inr ⟨k, by rw [hb], by rw [← hp, hb]⟩
    · exact .inl ⟨hp, fun k' he => hb (Pc.asleep.inj (hp.trans he)).1⟩
  | _ =>
    simp only [hpc] at hp
    exact .inl ⟨hp, by simp [← hp]⟩

/-- The request at the head is complete: it leaves the queue, as `memide.c` says. -/
theorem pop {c : Call} (h : Inv d₀ s old (c :: q)) {d : ℕ → Sector}
    (hmem : memRun old d₀ = .ok (s.completed.map Prod.snd) d) (hdisk : s.disk 1 = c.arg.write d)
    {dev : Device} {started : List Bptr}
    (hstarted : started = (old ++ [c]).map Call.buf ++ (q.map Call.buf).take 1)
    (hdev : Works q (s.disk 1) (s.disk 1) dev) :
    Inv d₀ { wakeup c.buf (s.setContent c.buf (c.arg.after d)) with
      idequeue := (s.buf c.buf).qnext
      dev := dev
      started := started
      completed := s.completed ++ [(c.buf, c.arg.after d)] } (old ++ [c]) q := by
  have hhead := h.waits 0 c rfl
  have hnodup := h.nodup
  rw [List.map_cons, List.nodup_cons] at hnodup
  have hlen : (old ++ [c]).length = old.length + 1 := List.length_append
  have hclen : s.completed.length = old.length := by
    have := congrArg List.length h.completed
    rwa [List.length_map, List.length_map] at this
  -- contents and pointers of the buffers
  have hself : ((s.setContent c.buf (c.arg.after d)).buf c.buf).toContent = c.arg.after d := by
    simp [Ide.setContent, Ide.setBuf]
  have hother : ∀ b, b ≠ c.buf → ((s.setContent c.buf (c.arg.after d)).buf b).toContent =
      (s.buf b).toContent := fun b hb => by
    simp [Ide.setContent, Ide.setBuf, hb]
  have hqnext : ∀ b, ((s.setContent c.buf (c.arg.after d)).buf b).qnext = (s.buf b).qnext := by
    intro b
    by_cases hb : b = c.buf
    · simp [Ide.setContent, Ide.setBuf, hb]
    · simp [Ide.setContent, Ide.setBuf, hb]
  have hbuf : ∀ (j : Nat) (c' : Call), q[j]? = some c' → c'.buf ≠ c.buf := by
    intro j c' hj he
    exact hnodup.1 (he ▸ List.mem_map_of_mem (List.mem_of_getElem? hj))
  refine ⟨h.disk1, ?_, ?_, hstarted, ?_, hnodup.2, fun j c' hj => ?_, fun p' b' hp => ?_,
    fun p' b' k' hp => ?_, fun p' b' k' hp => ?_, ⟨s.disk 1, ?_, hdev⟩, fun r hr => ?_⟩
  · show s.queued = _
    rw [h.queued, List.append_assoc]
    rfl
  · show (s.completed ++ [(c.buf, c.arg.after d)]).map Prod.fst = _
    rw [List.map_append, h.completed, List.map_append]
    rfl
  · exact h.chain.2.congr fun b _ => hqnext b
  · -- a call behind the first
    have hw := h.waits (j + 1) c' hj
    rw [hlen, Nat.add_assoc, Nat.add_comm 1 j]
    refine ⟨?_, hw.lock, (hother _ (hbuf j c' hj)).trans hw.content, hw.request⟩
    rcases of_pc_wakeup (b := c.buf) (s := s.setContent c.buf (c.arg.after d)) rfl with ⟨hold, -⟩ |
      ⟨_, hold, -⟩
    · exact hold ▸ hw.pc
    · rcases hw.pc with hpc | hpc
      · exact absurd (Pc.asleep.inj (hpc.symm.trans hold)).1 (hbuf j c' hj)
      · cases hpc.symm.trans hold
  · -- a process before `acquire(&idelock)`
    have hold : s.pc p' = .called b' := by
      rcases of_pc_wakeup hp with ⟨hold, -⟩ | ⟨_, -, he⟩
      · exact hold
      · cases he
    obtain ⟨hl, hreq⟩ := h.called p' b' hold
    have hb' : b' ≠ c.buf := by
      rintro rfl
      have heq : c.pid = p' := Option.some.inj (hhead.lock.symm.trans hl)
      rcases hhead.pc with hpc | hpc
      · rw [heq, hold] at hpc
        cases hpc
      · rw [heq, hold] at hpc
        cases hpc
    exact ⟨hl, (hother b' hb').symm ▸ hreq⟩
  · -- a process that sleeps on another buffer
    have hold : s.pc p' = .asleep b' k' ∧ b' ≠ c.buf := by
      rcases of_pc_wakeup hp with ⟨hold, hne⟩ | ⟨_, -, he⟩
      · exact ⟨hold, fun heq => hne k' (heq ▸ rfl)⟩
      · cases he
    obtain ⟨j, x, hk, hj⟩ := h.asleep p' b' k' hold.1
    cases j with
    | zero =>
      cases hj
      exact absurd rfl hold.2
    | succ j => exact ⟨j, x, by rw [hlen]; omega, hj⟩
  · -- a process that is awake, perhaps because of this
    have hold : s.pc p' = .awake b' k' ∨ s.pc p' = .asleep b' k' ∧ b' = c.buf := by
      rcases of_pc_wakeup hp with ⟨hold, -⟩ | ⟨_, hold, he⟩
      · exact .inl hold
      · cases he
        exact .inr ⟨hold, rfl⟩
    have hlast : (s.completed ++ [(c.buf, c.arg.after d)])[old.length]? =
        some (c.buf, c.arg.after d) := by
      rw [← hclen]
      exact List.getElem?_concat_length
    have hqueued : s.queued[old.length]? = some c := by
      rw [h.queued, List.getElem?_append_right le_rfl, Nat.sub_self]
      rfl
    rcases hold with hold | ⟨hold, rfl⟩
    · obtain ⟨hl, ⟨x, hx⟩, hdone⟩ := h.awake p' b' k' hold
      refine ⟨hl, ⟨x, hx⟩, fun hk => ?_⟩
      show (s.completed ++ [(c.buf, c.arg.after d)])[k']? = _
      by_cases hk' : k' = old.length
      · rw [hk', hqueued] at hx
        cases hx
        rw [hk', hlast]
        exact congrArg some (congrArg (Prod.mk b') hself.symm)
      have hlt : k' < old.length := by omega
      have hb' : b' ≠ c.buf := by
        rintro rfl
        have heq : c.pid = p' := Option.some.inj (hhead.lock.symm.trans hl)
        rcases hhead.pc with hpc | hpc
        · rw [heq, hold] at hpc
          cases hpc
        · rw [heq, hold] at hpc
          exact hk' (Pc.awake.inj hpc).2
      rw [getElem?_append_of_some (hdone hlt)]
      exact congrArg some (congrArg (Prod.mk b') (hother b' hb').symm)
    · obtain ⟨j, x, hk, hj⟩ := h.asleep p' c.buf k' hold
      cases j with
      | succ j => exact absurd rfl (hbuf j ⟨p', c.buf, x⟩ hj)
      | zero =>
        have hc : c = ⟨p', c.buf, x⟩ := Option.some.inj hj
        obtain rfl : k' = old.length := hk
        refine ⟨hhead.lock.trans (congrArg some (congrArg Call.pid hc)),
          ⟨x, hqueued.trans (congrArg some hc)⟩, fun _ => ?_⟩
        show (s.completed ++ [(c.buf, c.arg.after d)])[old.length]? = _
        rw [hlast]
        exact congrArg some (congrArg (Prod.mk c.buf) hself.symm)
  · show memRun (old ++ [c]) d₀ = .ok ((s.completed ++ [(c.buf, c.arg.after d)]).map Prod.snd) _
    rw [memRun_concat hmem hhead.request, hdisk, List.map_append]
    rfl
  · rcases List.mem_append.1 hr with hr | hr
    · exact h.clean r hr
    · obtain rfl := List.mem_singleton.1 hr
      exact ⟨rfl, rfl⟩

theorem intr (h : Inv d₀ s old q) {port : Sector} (hdev : s.dev = .done port) :
    ∃ c q', q = c :: q' ∧ wp (ideintr port) (fun _ t => Inv d₀ t (old ++ [c]) q' ∧
      t.pc = (wakeup c.buf s).pc) (fun _ _ => False) { s with dev := .idle } := by
  obtain ⟨d, hmem, hworks⟩ := h.mem
  rw [hdev] at hworks
  obtain ⟨c, q', rfl, hdisk, hport⟩ := hworks
  refine ⟨c, q', rfl, ?_⟩
  have hw := h.waits 0 c rfl
  have hqueue : s.idequeue = some c.buf := h.chain.1
  -- what the interrupt leaves in the buffer
  have hdata : { (s.buf c.buf).toContent with
      data := if (s.buf c.buf).dirty then (s.buf c.buf).data else port
      valid := true
      dirty := false } = c.arg.after d := by
    rw [hw.content, Content.after]
    cases hdirty : c.arg.dirty with
    | true => rfl
    | false => rw [hport hdirty]
  simp only [ideintr, wp_run, hqueue, hdata]
  cases q' with
  | nil =>
    have hnext : (s.buf c.buf).qnext = none := h.chain.2
    rw [if_neg (by rw [hnext]; exact fun hne => hne rfl)]
    refine ⟨h.pop hmem hdisk ?_ ⟨rfl, rfl⟩, rfl⟩
    show s.started = _
    rw [h.started]
    simp
  | cons c' q' =>
    have hnext : (s.buf c.buf).qnext = some c'.buf := h.chain.2.1
    have hw' := h.waits 1 c' rfl
    have hne : c'.buf ≠ c.buf := by
      have hnodup := h.nodup
      rw [List.map_cons, List.nodup_cons] at hnodup
      exact fun he => hnodup.1 (he ▸ List.mem_cons_self)
    have hcontent : ((s.setContent c.buf (c.arg.after d)).buf c'.buf).toContent = c'.arg := by
      rw [← hw'.content]
      simp [Ide.setContent, Ide.setBuf, hne]
    obtain ⟨hdisk1, hsector⟩ := regsFor_request hw'.request
    rw [if_pos (by rw [hnext]; nofun), hnext]
    refine idestart_rule ?_ nofun ?_
    · exact (congrArg Content.blockno hcontent).trans_lt hw'.request.2.1
    rw [← hnext]
    refine ⟨h.pop hmem hdisk ?_ ?_, rfl⟩
    · show s.started ++ [c'.buf] = _
      rw [h.started]
      simp
    show Works _ _ _ (.busy (regsFor ((s.setContent c.buf (c.arg.after d)).buf c'.buf).toContent)
      (if ((s.setContent c.buf (c.arg.after d)).buf c'.buf).toContent.dirty then
        some ((s.setContent c.buf (c.arg.after d)).buf c'.buf).toContent.data else none))
    rw [hcontent]
    exact ⟨c', q', rfl, hdisk1, hsector, rfl, rfl⟩

end Inv

end Xv6.Disk

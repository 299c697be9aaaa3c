import Xv6Cow.Disk.Refine

/-!
# Runs of the disk driver

In every state that the driver reaches from `ideinit` the calls are complete up to the first of the
queue, with the results of `memide.c`; a process leaves `iderw` only when its own call is complete;
and the disk and its interrupts alone complete what is queued.
-/

namespace Xv6.Disk

open Function Prog Lts

variable {d₀ : ℕ → Sector} {s t : Ide} {old q : List Call} {p : Pid} {b : Bptr} {k : ℕ} {a : Act}

theorem Inv.step (h : Inv d₀ s old q) (hs : Step s a t) : ∃ old' q', Inv d₀ t old' q' := by
  cases hs with
  | acquiresleep hp hb => exact ⟨old, q, h.acquiresleep hb⟩
  | releasesleep hp hb => exact ⟨old, q, h.releasesleep hp hb⟩
  | store hp hb => exact ⟨old, q, h.store hp hb _⟩
  | call hp hb hreq hrun => exact ⟨old, q, (wp_ok (h.check hp hb hreq) hrun).1⟩
  | queue hp hrun => exact ⟨old, _, (wp_ok (h.queue hp) hrun).1⟩
  | device hdev => exact ⟨old, q, h.device hdev⟩
  | intr hdev hrun =>
    obtain ⟨c, q', -, hintr⟩ := h.intr hdev
    exact ⟨_, q', (wp_ok hintr hrun).1⟩
  | rouse hp => exact ⟨old, q, h.rouse hp⟩
  | resume hp hrun => exact ⟨old, q, (wp_ok (h.resume hp) hrun).1⟩

theorem Start.run {as : List Act} (h : Start s) (hrun : Run Step s as t) :
    ∃ old q, Inv (s.disk 1) t old q :=
  hrun.invariant (I := fun t => ∃ old q, Inv (s.disk 1) t old q) ⟨[], [], h.inv⟩
    fun _ _ _ ⟨_, _, hinv⟩ hs => hinv.step hs

/-! ## What `memide.c` says about the calls -/

theorem Inv.length_completed (h : Inv d₀ s old q) : s.completed.length = old.length := by
  have := congrArg List.length h.completed
  rwa [List.length_map, List.length_map] at this

theorem Inv.memRun_queued (h : Inv d₀ s old q) :
    ∃ rs d, memRun s.queued d₀ = .ok rs d ∧ s.completed.map Prod.snd <+: rs := by
  obtain ⟨d, hmem, -⟩ := h.mem
  have hreq : ∀ c ∈ q, c.arg.Request := fun c hc => by
    obtain ⟨j, hj⟩ := List.mem_iff_getElem?.1 hc
    exact (h.waits j c hj).request
  obtain ⟨rs, d', hrs⟩ := memRun_ok hreq d
  refine ⟨s.completed.map Prod.snd ++ rs, d', ?_, List.prefix_append ..⟩
  rw [h.queued, memRun_append hmem, hrs]

/-- The disk is what the complete calls leave, or these and the one that the disk has carried out. -/
theorem Inv.memRun_disk (h : Inv d₀ s old q) :
    ∃ n rs, s.completed.length ≤ n ∧ n ≤ s.completed.length + 1 ∧ n ≤ s.queued.length ∧
      memRun (s.queued.take n) d₀ = .ok rs (s.disk 1) := by
  obtain ⟨d, hmem, hworks⟩ := h.mem
  have hlen : s.queued.length = old.length + q.length := by
    rw [h.queued, List.length_append]
  rw [h.length_completed]
  have hold : s.disk 1 = d → ∃ n rs, old.length ≤ n ∧ n ≤ old.length + 1 ∧ n ≤ s.queued.length ∧
      memRun (s.queued.take n) d₀ = .ok rs (s.disk 1) := fun hd => by
    refine ⟨old.length, s.completed.map Prod.snd, le_rfl, Nat.le_succ _, by omega, ?_⟩
    rw [h.queued, List.take_left, hmem, hd]
  cases hdev : s.dev with
  | idle =>
    rw [hdev] at hworks
    exact hold hworks.2
  | busy r out =>
    rw [hdev] at hworks
    obtain ⟨_, _, -, -, -, -, hd⟩ := hworks
    exact hold hd
  | done buf =>
    rw [hdev] at hworks
    obtain ⟨c, q', rfl, hd, -⟩ := hworks
    refine ⟨old.length + 1, s.completed.map Prod.snd ++ [c.arg.after d], Nat.le_succ _, le_rfl, ?_, ?_⟩
    · rw [hlen, List.length_cons]
      omega
    have htake : s.queued.take (old.length + 1) = old ++ [c] := by
      rw [h.queued, List.take_length_add_append]
      rfl
    rw [htake, memRun_concat hmem (h.waits 0 c rfl).request, hd]

/-! ## Returning from `iderw` -/

/-- A process returns by the test of the loop, after its call is complete. -/
theorem Inv.returns (h : Inv d₀ s old q) (hs : Step s a t) (hp : s.pc p ≠ .out) (ht : t.pc p = .out) :
    ∃ b k, s.pc p = .awake b k ∧ k < old.length ∧ t.buf b = s.buf b := by
  have hmoved : ∀ {p' : Pid} {c : Pc}, update s.pc p' c p = .out → p = p' ∧ c = .out := by
    intro p' c hc
    by_cases hpp : p = p'
    · rw [hpp, update_self] at hc
      exact ⟨hpp, hc⟩
    · rw [update_of_ne hpp] at hc
      exact absurd hc hp
  cases hs with
  | acquiresleep => exact absurd ht hp
  | releasesleep => exact absurd ht hp
  | store => exact absurd ht hp
  | call hp' hb hreq hrun =>
    rw [(wp_ok (h.check hp' hb hreq) hrun).2] at ht
    cases (hmoved ht).2
  | queue hp' hrun =>
    rw [(wp_ok (h.queue hp') hrun).2] at ht
    cases (hmoved ht).2
  | @device r out hdev =>
    cases out with
    | none => exact absurd ht hp
    | some d => exact absurd ht hp
  | intr hdev hrun =>
    obtain ⟨c, q', -, hintr⟩ := h.intr hdev
    rw [(wp_ok hintr hrun).2] at ht
    simp only [wakeup] at ht
    cases hpc : s.pc p with
    | out => exact absurd hpc hp
    | asleep b k =>
      simp only [hpc] at ht
      split at ht <;> cases ht
    | _ =>
      rw [hpc] at ht
      cases ht
  | rouse hp' => cases (hmoved ht).2
  | @resume _ p' b' k' hp' hrun =>
    obtain rfl := (wp_ok (h.resume hp') hrun).2
    obtain ⟨rfl, hout⟩ := hmoved ht
    split at hout
    · next hk => exact ⟨b', k', hp', hk, rfl⟩
    · cases hout

/-! ## The disk completes what is queued -/

theorem Inv.raise {c : Call} (h : Inv d₀ s old (c :: q)) :
    ∃ as t port, Run Step s as t ∧ (∀ a ∈ as, a = .device) ∧ Inv d₀ t old (c :: q) ∧
      t.dev = .done port ∧ t.pc = s.pc := by
  obtain ⟨d, -, hworks⟩ := h.mem
  cases hdev : s.dev with
  | idle =>
    rw [hdev] at hworks
    cases hworks.1
  | busy r out =>
    have hs := Step.device hdev
    refine ⟨[.device], transfer s r out, ?_⟩
    cases out with
    | none => exact ⟨_, .one hs, fun a ha => List.mem_singleton.1 ha, h.device hdev, rfl, rfl⟩
    | some d => exact ⟨_, .one hs, fun a ha => List.mem_singleton.1 ha, h.device hdev, rfl, rfl⟩
  | done port => exact ⟨[], s, port, .nil s, nofun, h, hdev, rfl⟩

/-- Who waits in `iderw` after the request is queued. -/
def Ide.InLoop (s : Ide) (p : Pid) (b : Bptr) (k : ℕ) : Prop :=
  s.pc p = .asleep b k ∨ s.pc p = .awake b k

theorem Ide.InLoop.wakeup {c : Bptr} (h : s.InLoop p b k) : (wakeup c s).InLoop p b k := by
  rcases h with hp | hp
  · simp only [Ide.InLoop, Disk.wakeup, hp]
    by_cases hb : b = c
    · exact .inr (if_pos hb)
    · exact .inl (if_neg hb)
  · exact .inr (by simp only [Disk.wakeup, hp])

theorem Inv.drain (h : Inv d₀ s old q) :
    ∃ as t, Run Step s as t ∧ (∀ a ∈ as, a = .device ∨ a = .intr) ∧ Inv d₀ t (old ++ q) [] ∧
      ∀ p b k, s.InLoop p b k → t.InLoop p b k := by
  induction q generalizing s old with
  | nil => exact ⟨[], s, .nil s, nofun, (List.append_nil old).symm ▸ h, fun _ _ _ hp => hp⟩
  | cons c q ih =>
    obtain ⟨as, t, port, hrun, has, ht, hdev, hpc⟩ := h.raise
    obtain ⟨c', q', hq, hintr⟩ := ht.intr hdev
    cases hq
    obtain ⟨_, u, hok, hu, hupc⟩ := wp_returns hintr
    obtain ⟨as', v, hrun', has', hv, hloop⟩ := ih hu
    refine ⟨as ++ .intr :: as', v, hrun.append (.cons (.intr hdev hok) hrun'), ?_, ?_, ?_⟩
    · intro a ha
      rcases List.mem_append.1 ha with ha | ha
      · exact .inl (has a ha)
      · rcases List.mem_cons.1 ha with rfl | ha
        · exact .inr rfl
        · exact has' a ha
    · rwa [List.append_assoc] at hv
    · intro p b k hp
      refine hloop p b k ?_
      have ht : t.InLoop p b k := by rwa [Ide.InLoop, hpc]
      have hw := ht.wakeup (c := c.buf)
      rwa [Ide.InLoop, ← hupc] at hw

/-- Once the queue is empty, the test of the loop lets everybody go. -/
theorem Inv.leave (h : Inv d₀ s old []) (hp : s.InLoop p b k) :
    ∃ t, Step s (.resume p) t ∧ t.pc p = .out := by
  rcases hp with hp | hp
  · obtain ⟨j, x, -, hj⟩ := h.asleep p b k hp
    cases hj
  obtain ⟨-, ⟨x, hx⟩, -⟩ := h.awake p b k hp
  rw [h.queued, List.append_nil] at hx
  have hk : k < old.length := (List.getElem?_eq_some_iff.1 hx).1
  obtain ⟨_, t, hok, -, rfl⟩ := wp_returns (h.resume hp)
  refine ⟨_, .resume hp hok, ?_⟩
  rw [if_pos hk]
  exact update_self ..

/-! ## The two drivers -/

/-- In every state that `ide.c` reaches, the requests started and completed are the first ones queued;
the results and the disk are those of `memide.c` for the calls in that order; nothing panics; a process
that returns has its own request complete; and the disk will complete all of them. -/
theorem ide_like_memide {s0 : Ide} {as : List Act} (h0 : Start s0) (hrun : Run Step s0 as s) :
    (∃ old q, s.queued = old ++ q ∧ s.completed.map Prod.fst = old.map Call.buf ∧
      s.started = old.map Call.buf ++ (q.map Call.buf).take 1) ∧
    (∃ rs d, memRun s.queued (s0.disk 1) = .ok rs d ∧ s.completed.map Prod.snd <+: rs) ∧
    (∃ n rs, s.completed.length ≤ n ∧ n ≤ s.completed.length + 1 ∧ n ≤ s.queued.length ∧
      memRun (s.queued.take n) (s0.disk 1) = .ok rs (s.disk 1)) ∧
    (∀ p b, s.pc p = .out → s.lock b = some p → (s.buf b).toContent.Request →
      ∃ t, iderwCheck p b s = .ok () t) ∧
    (∀ p b, s.pc p = .called b → ∃ t, iderwQueue p b s = .ok () t) ∧
    (∀ port, s.dev = .done port → ∃ t, ideintr port { s with dev := .idle } = .ok () t) ∧
    (∀ p a t, Step s a t → s.pc p ≠ .out → t.pc p = .out → ∃ b k x y, s.pc p = .awake b k ∧
      s.queued[k]? = some ⟨p, b, x⟩ ∧ s.completed[k]? = some (b, y) ∧ (t.buf b).toContent = y ∧
      y.valid = true ∧ y.dirty = false) ∧
    (∃ bs t, Run Step s bs t ∧ (∀ a ∈ bs, a = .device ∨ a = .intr) ∧ t.queued = s.queued ∧
      t.completed.length = s.queued.length ∧
      ∀ p b k, s.pc p = .asleep b k ∨ s.pc p = .awake b k →
        ∃ u, Step t (.resume p) u ∧ u.pc p = .out) := by
  obtain ⟨old, q, h⟩ := h0.run hrun
  refine ⟨⟨old, q, h.queued, h.completed, h.started⟩, h.memRun_queued, h.memRun_disk,
    fun p b hp hb hreq => ?_, fun p b hp => ?_, fun port hdev => ?_, fun p a t hs hp ht => ?_, ?_⟩
  · obtain ⟨_, t, hok, -⟩ := wp_returns (h.check hp hb hreq)
    exact ⟨t, hok⟩
  · obtain ⟨_, t, hok, -⟩ := wp_returns (h.queue hp)
    exact ⟨t, hok⟩
  · obtain ⟨_, _, -, hintr⟩ := h.intr hdev
    obtain ⟨_, t, hok, -⟩ := wp_returns hintr
    exact ⟨t, hok⟩
  · obtain ⟨b, k, hpc, hk, hbuf⟩ := h.returns hs hp ht
    obtain ⟨-, ⟨x, hx⟩, hdone⟩ := h.awake p b k hpc
    have hclean := h.clean _ (List.mem_of_getElem? (hdone hk))
    exact ⟨b, k, x, _, hpc, hx, hdone hk, congrArg Buf.toContent hbuf, hclean⟩
  · obtain ⟨bs, t, hrun', hbs, ht, hloop⟩ := h.drain
    have hq : t.queued = s.queued := by
      rw [ht.queued, h.queued, List.append_nil]
    refine ⟨bs, t, hrun', hbs, hq, ?_, fun p b k hp => ht.leave (hloop p b k hp)⟩
    rw [ht.length_completed, h.queued]

/-- A driver at rest, with all buffers invalid and a disk of zeroes. -/
def quiet : Ide where
  buf _ := { valid := false, dirty := false, dev := 1, blockno := 0, data := fun _ => 0, qnext := none }
  lock _ := none
  havedisk1 := true
  idequeue := none
  dev := .idle
  disk _ _ _ := 0
  pc _ := .out
  queued := []
  started := []
  completed := []

/-- A process reads block 0. -/
def quietRead : List Act :=
  [.acquiresleep 1 0, .call 1 0, .queue 1, .device, .intr]

theorem ide_like_memide_quiet : ∃ s, Run Step quiet quietRead s ∧ s.completed.length = 1 ∧
    ∃ rs d, memRun s.queued (quiet.disk 1) = .ok rs d ∧ s.completed.map Prod.snd <+: rs := by
  have hstart : Start quiet := ⟨rfl, rfl, rfl, fun _ => rfl, rfl, rfl, rfl⟩
  have hrun : ∃ s, Run Step quiet quietRead s ∧ s.completed.length = 1 := by
    refine ⟨_, .cons (.acquiresleep rfl rfl) (.cons (.call rfl rfl ?_ rfl)
      (.cons (.queue rfl rfl) (.cons (.device rfl) (.cons (.intr rfl rfl) (.nil _))))), ?_⟩
    · exact ⟨rfl, by decide, rfl⟩
    · rfl
  obtain ⟨s, hs, hlen⟩ := hrun
  exact ⟨s, hs, hlen, (ide_like_memide hstart hs).2.1⟩

end Xv6.Disk

import Xv6Cow.Proc.Select

/-!
# What one pass of `scheduler` dispatches

A runnable process of the lottery queue goes first, then the first one with the smallest burst time in
the queue `SJF`, then the first one with the smallest priority value in the queue `PRIORITY`.
-/

namespace Xv6.Ptable

namespace Procs

variable {n : ℕ} {t : Procs n} {ps : List (Fin n)} {p q : Fin n} {d : Draw n} {queue : BitVec 32}
  {key : Proc → BitVec 32} {best : Option (Fin n)}

/-! ## The lottery -/

/-- The flag is set exactly if a process is chosen, and that process is in the queue. -/
structure Draw.Ok (t : Procs n) (d : Draw n) : Prop where
  selected : d.isLotterySelected ≠ 0 ↔ d.highLotteryTicket ≠ none
  ready : ∀ p, d.highLotteryTicket = some p → t.ready qLottery p = true

theorem Draw.Ok.step (h : d.Ok t) (p : Fin n) :
    (t.drawStep d p).Ok t ∧ (t.ready qLottery p = true → (t.drawStep d p).isLotterySelected ≠ 0) ∧
      (d.isLotterySelected ≠ 0 → (t.drawStep d p).isLotterySelected ≠ 0) := by
  obtain ⟨hselected, hready⟩ := h
  by_cases hp : t.ready qLottery p = true
  · unfold drawStep
    rw [if_pos hp]
    by_cases hzero : d.isLotterySelected = 0
    · simp only [hzero, if_true]
      split_ifs
      · exact ⟨⟨by simp, fun q hq => by cases hq; exact hp⟩, by simp, by simp⟩
      · exact ⟨⟨by simp, fun q hq => by cases hq; exact hp⟩, by simp, by simp⟩
    · simp only [hzero, if_false]
      split_ifs
      · exact ⟨⟨by simp, fun q hq => by cases hq; exact hp⟩, by simp, by simp⟩
      · exact ⟨⟨hselected, hready⟩, fun _ => hzero, fun _ => hzero⟩
  · rw [drawStep, if_neg hp]
    exact ⟨⟨hselected, hready⟩, fun h => absurd h hp, id⟩

theorem Draw.Ok.foldl (h : d.Ok t) :
    (ps.foldl t.drawStep d).Ok t ∧ ((d.isLotterySelected ≠ 0 ∨ ∃ p ∈ ps, t.ready qLottery p = true) →
      (ps.foldl t.drawStep d).isLotterySelected ≠ 0) := by
  induction ps generalizing d with
  | nil => exact ⟨h, fun hs => hs.resolve_right (by simp)⟩
  | cons p ps ih =>
    obtain ⟨hok, hset, hkeep⟩ := h.step p
    obtain ⟨hok', hset'⟩ := ih hok
    refine ⟨hok', fun hs => hset' ?_⟩
    rcases hs with hs | ⟨q, hq, hready⟩
    · exact .inl (hkeep hs)
    · rcases List.mem_cons.1 hq with rfl | hq
      · exact .inl (hset hready)
      · exact .inr ⟨q, hq, hready⟩

theorem Draw.Ok.start (t : Procs n) (random : BitVec 32) : (⟨random, 0, none⟩ : Draw n).Ok t :=
  ⟨by simp, fun p hp => by cases hp⟩

theorem draw_ok (t : Procs n) (random : BitVec 32) : (t.draw random).Ok t :=
  (Draw.Ok.start t random).foldl.1

theorem drawn_eq (t : Procs n) (random : BitVec 32) :
    t.drawn random = (t.draw random).highLotteryTicket := by
  rw [drawn]
  split_ifs with h
  · rfl
  · rw [Decidable.not_not] at h
    exact (not_iff_not.1 (draw_ok t random).selected |>.1 h).symm

theorem drawn_some (random : BitVec 32) (h : ∃ p, t.ready qLottery p = true) :
    ∃ p, t.drawn random = some p ∧ t.ready qLottery p = true := by
  obtain ⟨q, hq⟩ := h
  have hflag : (t.draw random).isLotterySelected ≠ 0 :=
    (Draw.Ok.start t random).foldl.2 (.inr ⟨q, List.mem_finRange q, hq⟩)
  obtain ⟨p, hp⟩ := Option.ne_none_iff_exists'.1 ((draw_ok t random).selected.1 hflag)
  exact ⟨p, (drawn_eq t random).trans hp, (draw_ok t random).ready p hp⟩

theorem drawn_ready {random : BitVec 32} (h : t.drawn random = some p) : t.ready qLottery p = true :=
  (draw_ok t random).ready p (drawn_eq t random ▸ h)

theorem lotterySched_none (h : ∀ p, t.ready qLottery p = false) (ticks : BitVec 32) :
    t.lotterySched ticks = some none := by
  have hsum : t.sumLotteries = 1 := by
    have htickets : t.tickets (List.finRange n) = [] := by
      simp [tickets, h]
    rw [sumLotteries_eq, ticketSum, htickets]
    rfl
  have hdrawn : ∀ random, t.drawn random = none := fun random => by
    rcases hd : t.drawn random with _ | p
    · rfl
    have := drawn_ready hd
    rw [h p] at this
    cases this
  rw [lotterySched, hsum, Table.generateRandom, if_neg (by decide), Option.map_some, hdrawn]

/-! ## The first least process -/

/-- `p` is the first among the processes of the queue whose key is smallest. -/
structure FirstLeast (t : Procs n) (queue : BitVec 32) (key : Proc → BitVec 32) (p : Fin n) : Prop where
  ready : t.ready queue p = true
  least : ∀ q, t.ready queue q = true → (key (t p)).toInt ≤ (key (t q)).toInt
  first : ∀ q < p, t.ready queue q = true → (key (t p)).toInt < (key (t q)).toInt

/-- The loop has seen the slots of `ps`. -/
def Seen (t : Procs n) (queue : BitVec 32) (key : Proc → BitVec 32) (ps : List (Fin n)) :
    Option (Fin n) → Prop
  | none => ∀ q ∈ ps, t.ready queue q = false
  | some p => p ∈ ps ∧ t.ready queue p = true ∧
      (∀ q ∈ ps, t.ready queue q = true → (key (t p)).toInt ≤ (key (t q)).toInt) ∧
      ∀ q ∈ ps, q < p → t.ready queue q = true → (key (t p)).toInt < (key (t q)).toInt

theorem Seen.step (h : Seen t queue key ps best) (hlt : ∀ q ∈ ps, q < p) :
    Seen t queue key (ps ++ [p]) (t.leastStep queue key best p) := by
  have hmem : ∀ {q}, q ∈ ps ++ [p] → q ∈ ps ∨ q = p := fun hq => by simpa using hq
  by_cases hp : t.ready queue p = true
  · cases best with
    | none =>
      have hstep : t.leastStep queue key none p = some p := by
        simp [leastStep, hp]
      have hnone : ∀ q ∈ ps, ¬ t.ready queue q = true := fun q hq hready => by
        rw [h q hq] at hready
        cases hready
      rw [hstep]
      refine ⟨by simp, hp, fun q hq hready => ?_, fun q hq hqp hready => ?_⟩
      · rcases hmem hq with hq | rfl
        · exact absurd hready (hnone q hq)
        · exact le_rfl
      · rcases hmem hq with hq | rfl
        · exact absurd hready (hnone q hq)
        · exact absurd hqp (lt_irrefl _)
    | some b =>
      obtain ⟨hb, hbready, hleast, hfirst⟩ := h
      have hstep : t.leastStep queue key (some b) p =
          if (key (t p)).slt (key (t b)) then some p else some b := by
        simp [leastStep, hp]
      rw [hstep]
      by_cases hkey : (key (t p)).slt (key (t b)) = true
      · rw [if_pos hkey]
        rw [BitVec.slt_iff_toInt_lt] at hkey
        refine ⟨by simp, hp, fun q hq hready => ?_, fun q hq hqp hready => ?_⟩
        · rcases hmem hq with hq | rfl
          · exact hkey.le.trans (hleast q hq hready)
          · exact le_rfl
        · rcases hmem hq with hq | rfl
          · exact hkey.trans_le (hleast q hq hready)
          · exact absurd hqp (lt_irrefl _)
      · rw [if_neg hkey]
        rw [BitVec.slt_iff_toInt_lt, not_lt] at hkey
        refine ⟨by simp [hb], hbready, fun q hq hready => ?_, fun q hq hqb hready => ?_⟩
        · rcases hmem hq with hq | rfl
          · exact hleast q hq hready
          · exact hkey
        · rcases hmem hq with hq | rfl
          · exact hfirst q hq hqb hready
          · exact absurd (hqb.trans (hlt b hb)) (lt_irrefl _)
  · have hstep : t.leastStep queue key best p = best := by
      rw [leastStep, if_neg hp]
    rw [hstep]
    rcases best with _ | b
    · intro q hq
      rcases hmem hq with hq | rfl
      · exact h q hq
      · simpa using hp
    obtain ⟨hb, hbready, hleast, hfirst⟩ := h
    refine ⟨by simp [hb], hbready, fun q hq hready => ?_, fun q hq hqb hready => ?_⟩
    · rcases hmem hq with hq | rfl
      · exact hleast q hq hready
      · exact absurd hready hp
    · rcases hmem hq with hq | rfl
      · exact hfirst q hq hqb hready
      · exact absurd hready hp

theorem Seen.foldl {qs : List (Fin n)} (h : Seen t queue key ps best)
    (hsorted : (ps ++ qs).Pairwise (· < ·)) :
    Seen t queue key (ps ++ qs) (qs.foldl (t.leastStep queue key) best) := by
  induction qs generalizing ps best with
  | nil => rwa [List.append_nil]
  | cons p qs ih =>
    have hlt : ∀ q ∈ ps, q < p := fun q hq =>
      (List.pairwise_append.1 hsorted).2.2 q hq p List.mem_cons_self
    rw [List.append_cons] at hsorted ⊢
    exact ih (h.step hlt) hsorted

theorem seen_least (t : Procs n) (queue : BitVec 32) (key : Proc → BitVec 32) :
    Seen t queue key (List.finRange n) (t.least queue key) := by
  have hnone : Seen t queue key [] none := nofun
  exact hnone.foldl (List.pairwise_lt_finRange n)

theorem least_some (key : Proc → BitVec 32) (h : ∃ p, t.ready queue p = true) :
    ∃ p, t.least queue key = some p ∧ t.FirstLeast queue key p := by
  have hseen := seen_least t queue key
  rcases hl : t.least queue key with _ | p
  · rw [hl] at hseen
    obtain ⟨p, hp⟩ := h
    rw [hseen p (List.mem_finRange p)] at hp
    cases hp
  rw [hl] at hseen
  obtain ⟨-, hready, hleast, hfirst⟩ := hseen
  exact ⟨p, rfl, hready, fun q => hleast q (List.mem_finRange q), fun q =>
    hfirst q (List.mem_finRange q)⟩

theorem least_eq_none (h : ∀ p, t.ready queue p = false) : t.least queue key = none := by
  have hseen := seen_least t queue key
  rcases hl : t.least queue key with _ | p
  · rfl
  rw [hl] at hseen
  have hready := hseen.2.1
  rw [h p] at hready
  cases hready

theorem least_ready (h : t.least queue key = some p) : t.ready queue p = true := by
  have hseen := seen_least t queue key
  rw [h] at hseen
  exact hseen.2.1

/-! ## A pass -/

/-- For every table and every value of `ticks`: with a runnable process in the lottery queue, a pass
dispatches what `lotterySched` returns, which is such a process; otherwise the first process of the queue
`SJF` with the smallest burst time; otherwise the first of the queue `PRIORITY` with the smallest priority
value; otherwise none.  Nothing else is ever dispatched. -/
theorem pass_dispatches (t : Procs n) (ticks : BitVec 32) :
    ((∃ p, t.ready qLottery p = true) → t.pass ticks = t.lotterySched ticks ∧
      ∀ r, t.lotterySched ticks = some r → ∃ p, r = some p ∧ t.ready qLottery p = true) ∧
    ((∀ p, t.ready qLottery p = false) → (∃ p, t.ready qSjf p = true) →
      ∃ p, t.pass ticks = some (some p) ∧ t.FirstLeast qSjf Proc.burstTime p) ∧
    ((∀ p, t.ready qLottery p = false) → (∀ p, t.ready qSjf p = false) →
      (∃ p, t.ready qPriority p = true) →
      ∃ p, t.pass ticks = some (some p) ∧ t.FirstLeast qPriority Proc.priority p) ∧
    ((∀ p, t.ready qLottery p = false) → (∀ p, t.ready qSjf p = false) →
      (∀ p, t.ready qPriority p = false) → t.pass ticks = some none) ∧
    ∀ p, t.pass ticks = some (some p) → (t p).state = .runnable ∧
      ((t p).schedQueue = qLottery ∨ (t p).schedQueue = qSjf ∨ (t p).schedQueue = qPriority) := by
  refine ⟨fun h => ⟨?_, fun r hr => ?_⟩, fun h hs => ?_, fun h hs hp => ?_, fun h hs hp => ?_,
    fun p hp => ?_⟩
  · rw [pass]
    rcases hl : t.lotterySched ticks with _ | r
    · rfl
    obtain ⟨random, -, rfl⟩ := Option.map_eq_some_iff.1 hl
    obtain ⟨p, hp, -⟩ := drawn_some random h
    rw [hp]
    rfl
  · obtain ⟨random, -, rfl⟩ := Option.map_eq_some_iff.1 hr
    exact drawn_some random h
  · obtain ⟨p, hp, hfirst⟩ := least_some Proc.burstTime hs
    refine ⟨p, ?_, hfirst⟩
    rw [pass, lotterySched_none h, Option.map_some, sjfSched, hp]
    rfl
  · obtain ⟨p, hp, hfirst⟩ := least_some Proc.priority hp
    refine ⟨p, ?_, hfirst⟩
    rw [pass, lotterySched_none h, Option.map_some, sjfSched, least_eq_none hs, prioritySched, hp]
    rfl
  · rw [pass, lotterySched_none h, Option.map_some, sjfSched, least_eq_none hs, prioritySched,
      least_eq_none hp]
    rfl
  · obtain ⟨r, hr, hor⟩ := Option.map_eq_some_iff.1 hp
    obtain ⟨random, -, rfl⟩ := Option.map_eq_some_iff.1 hr
    rcases Option.or_eq_some_iff.1 hor with hdrawn | ⟨-, hrest⟩
    · obtain ⟨hstate, hqueue⟩ := ready_iff.1 (drawn_ready hdrawn)
      exact ⟨hstate, .inl hqueue⟩
    rcases Option.or_eq_some_iff.1 hrest with hleast | ⟨-, hleast⟩
    · obtain ⟨hstate, hqueue⟩ := ready_iff.1 (least_ready hleast)
      exact ⟨hstate, .inr (.inl hqueue)⟩
    · obtain ⟨hstate, hqueue⟩ := ready_iff.1 (least_ready hleast)
      exact ⟨hstate, .inr (.inr hqueue)⟩

end Procs

/-! ## The table of the kernel -/

namespace Table

variable {t : Table} {ps : List Slot} {best : Option Slot}

theorem sumLotteries_eq_tickets :
    t.sumLotteries ps = BitVec.ofNat 32 (Tickets.total (Procs.tickets t ps) + 1) := by
  induction ps with
  | nil => rfl
  | cons p ps ih =>
    rw [sumLotteries]
    by_cases hready : t.ready qLottery p = true
    · rw [if_pos hready, Procs.tickets_cons_ready hready, Tickets.total_cons, ih, Nat.add_assoc,
        BitVec.ofNat_add (t p).lotteryTicket.toNat, BitVec.ofNat_toNat, BitVec.setWidth_eq]
    · rw [if_neg hready, Procs.tickets_cons_other hready, ih]

/-- The flag of `lotterySched`. -/
def flag (best : Option Slot) (drawn : Bool) : ℕ :=
  if drawn then 2 else if best = none then 0 else 1

theorem draw_eq_foldl {random : BitVec 32} {drawn : Bool} (h : drawn = true → best ≠ none) :
    t.draw ps random best drawn =
      (ps.foldl (Procs.drawStep t) ⟨random, flag best drawn, best⟩).highLotteryTicket := by
  induction ps generalizing random best drawn with
  | nil => rfl
  | cons p ps ih =>
    rw [draw, List.foldl_cons, Procs.drawStep]
    by_cases hready : t.ready qLottery p = true
    · have hready' : Procs.ready t qLottery p = true := hready
      rw [if_pos hready, if_pos hready']
      cases drawn with
      | true =>
        obtain ⟨b, rfl⟩ := Option.ne_none_iff_exists'.1 (h rfl)
        simp only [reduceCtorEq, and_false, if_false, flag, if_true, OfNat.ofNat_ne_zero,
          OfNat.ofNat_ne_one, Option.some_or]
        exact ih fun _ => (by rintro ⟨⟩)
      | false =>
        rcases best with _ | b
        · simp only [and_true, flag, if_true, Bool.false_eq_true, if_false, Option.none_or]
          split_ifs
          · exact ih fun _ => (by rintro ⟨⟩)
          · exact ih (by rintro ⟨⟩)
        simp only [and_true, flag, Bool.false_eq_true, if_false, reduceCtorEq, Option.some_or,
          one_ne_zero]
        split_ifs
        · exact ih fun _ => (by rintro ⟨⟩)
        · exact ih (by rintro ⟨⟩)
    · have hready' : ¬ Procs.ready t qLottery p = true := hready
      rw [if_neg hready, if_neg hready']
      exact ih h

theorem least_eq_foldl (queue : BitVec 32) (key : Proc → BitVec 32) :
    t.least queue key ps best = ps.foldl (Procs.leastStep t queue key) best := by
  induction ps generalizing best with
  | nil => rfl
  | cons p ps ih =>
    rw [List.foldl_cons, Procs.leastStep]
    by_cases hready : t.ready queue p = true
    · have hready' : Procs.ready t queue p = true := hready
      rw [if_pos hready', ← ih]
      cases best with
      | none => simp [least, hready]
      | some b => simp [least, hready]
    · have hready' : ¬ Procs.ready t queue p = true := hready
      rw [if_neg hready', ← ih]
      cases best with
      | none => simp [least, hready]
      | some b => simp [least, hready]

/-- On 64 slots, a pass is that of `Proc.Table`. -/
theorem select_eq_pass (t : Table) (ticks : BitVec 32) : t.select ticks = Procs.pass t ticks := by
  have hlottery : t.lotterySched ticks = Procs.lotterySched t ticks := by
    rw [lotterySched, Procs.lotterySched, sumLotteries_eq_tickets, Procs.sumLotteries_eq]
    congr 1
    funext random
    rw [Procs.drawn_eq]
    exact draw_eq_foldl (by rintro ⟨⟩)
  rw [select, Procs.pass, hlottery, sjfSched, prioritySched, least_eq_foldl, least_eq_foldl]
  rfl

end Table

end Xv6.Ptable

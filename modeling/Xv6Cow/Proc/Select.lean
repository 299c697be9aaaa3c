import Xv6Cow.Lib.Tickets
import Xv6Cow.Proc.Sched

/-!
# The selectors on tables of any size

The scan loops of `lotterySched`, `SJFSched` and `prioritySched`, with their flags, over a table
with any number of slots; on 64 slots they are the selectors of `Proc.Table`.
-/

namespace Xv6.Ptable

open Tickets

/-- A table with `n` slots. -/
abbrev Procs (n : ℕ) := Fin n → Proc

namespace Procs

variable {n : ℕ} (t : Procs n)

def ready (queue : BitVec 32) (p : Fin n) : Bool :=
  (t p).state = .runnable ∧ (t p).schedQueue = queue

/-- The first loop of `lotterySched`. -/
def sumLotteries : BitVec 32 :=
  (List.finRange n).foldl (fun sum p => if t.ready qLottery p then sum + (t p).lotteryTicket else sum) 1

/-- The variables of the second loop of `lotterySched`. -/
structure Draw (n : ℕ) where
  randomTicket : BitVec 32
  isLotterySelected : ℕ
  highLotteryTicket : Option (Fin n)

/-- A round of the second loop. -/
def drawStep (d : Draw n) (p : Fin n) : Draw n :=
  if t.ready qLottery p then
    let random := d.randomTicket - (t p).lotteryTicket
    let (selected, high) :=
      if d.isLotterySelected = 0 then (1, some p) else (d.isLotterySelected, d.highLotteryTicket)
    if random.sle 0 ∧ selected = 1 then ⟨random, 2, some p⟩ else ⟨random, selected, high⟩
  else d

def draw (random : BitVec 32) : Draw n := (List.finRange n).foldl t.drawStep ⟨random, 0, none⟩

/-- What `lotterySched` returns for the random ticket. -/
def drawn (random : BitVec 32) : Option (Fin n) :=
  if (t.draw random).isLotterySelected ≠ 0 then (t.draw random).highLotteryTicket else none

/-- `none` is the trap of `generate_random`. -/
def lotterySched (ticks : BitVec 32) : Option (Option (Fin n)) :=
  (Table.generateRandom ticks t.sumLotteries).map t.drawn

/-- A round of the loop of `SJFSched` and `prioritySched`, with the process selected so far. -/
def leastStep (queue : BitVec 32) (key : Proc → BitVec 32) (best : Option (Fin n)) (p : Fin n) :
    Option (Fin n) :=
  if t.ready queue p then
    let b := best.getD p
    if (key (t p)).slt (key (t b)) then some p else some b
  else best

def least (queue : BitVec 32) (key : Proc → BitVec 32) : Option (Fin n) :=
  (List.finRange n).foldl (t.leastStep queue key) none

def sjfSched : Option (Fin n) := t.least qSjf Proc.burstTime

def prioritySched : Option (Fin n) := t.least qPriority Proc.priority

/-- The process that one pass of `scheduler` dispatches. -/
def pass (ticks : BitVec 32) : Option (Option (Fin n)) :=
  (t.lotterySched ticks).map fun p => p.or (t.sjfSched.or t.prioritySched)

/-! ## The loop of the lottery -/

/-- The processes of the queue with their tickets. -/
def tickets (ps : List (Fin n)) : List (Fin n × ℕ) :=
  (ps.filter (t.ready qLottery)).map fun p => (p, (t p).lotteryTicket.toNat)

variable {t} {ps : List (Fin n)} {p : Fin n} {d : Draw n} {r : ℕ} {queue : BitVec 32}

theorem ready_iff : t.ready queue p = true ↔ (t p).state = .runnable ∧ (t p).schedQueue = queue := by
  simp [ready]

theorem tickets_cons_ready (h : t.ready qLottery p = true) :
    t.tickets (p :: ps) = (p, (t p).lotteryTicket.toNat) :: t.tickets ps := by
  simp [tickets, h]

theorem tickets_cons_other (h : ¬ t.ready qLottery p = true) :
    t.tickets (p :: ps) = t.tickets ps := by
  simp [tickets, h]

theorem mem_tickets {w : ℕ} : (p, w) ∈ t.tickets ps ↔
    p ∈ ps ∧ t.ready qLottery p = true ∧ (t p).lotteryTicket.toNat = w := by
  simp only [tickets, List.mem_map, List.mem_filter, Prod.mk.injEq]
  constructor
  · rintro ⟨q, ⟨hq, hr⟩, rfl, hw⟩
    exact ⟨hq, hr, hw⟩
  · rintro ⟨hp, hr, hw⟩
    exact ⟨p, ⟨hp, hr⟩, rfl, hw⟩

theorem fst_tickets : (t.tickets ps).map Prod.fst = ps.filter (t.ready qLottery) := by
  simp [tickets, Function.comp_def]

/-- After the winner is found, the loop goes on without effect. -/
theorem foldl_drawn (h : d.isLotterySelected = 2) : (ps.foldl t.drawStep d).isLotterySelected = 2 ∧
      (ps.foldl t.drawStep d).highLotteryTicket = d.highLotteryTicket := by
  induction ps generalizing d with
  | nil => exact ⟨h, rfl⟩
  | cons p ps ih =>
    rw [List.foldl_cons]
    have hstep : (t.drawStep d p).isLotterySelected = 2 ∧
        (t.drawStep d p).highLotteryTicket = d.highLotteryTicket := by
      unfold drawStep
      split_ifs <;> simp_all
    obtain ⟨hs, hh⟩ := ih hstep.1
    exact ⟨hs, hh.trans hstep.2⟩

theorem sub_sle {x y : BitVec 32} (hx : x.toNat < 2 ^ 31) (hy : y.toNat < 2 ^ 31) :
    (x - y).sle 0 = true ↔ x.toNat ≤ y.toNat := by
  rw [BitVec.sle_iff_toInt_le, BitVec.toInt_eq_toNat_cond, BitVec.toNat_sub]
  have hzero : (0 : BitVec 32).toInt = 0 := rfl
  rw [hzero]
  split_ifs <;> omega

theorem toNat_sub {x y : BitVec 32} (h : y.toNat ≤ x.toNat) : (x - y).toNat = x.toNat - y.toNat := by
  have := x.isLt
  rw [BitVec.toNat_sub]
  omega

/-- Before the winner is found, the random ticket is what is left of it. -/
theorem foldl_draw (hd : d.isLotterySelected < 2) (hr : d.randomTicket.toNat < 2 ^ 31)
    (hsmall : ∀ p, t.ready qLottery p = true → (t p).lotteryTicket.toNat < 2 ^ 31)
    (hne : t.tickets ps ≠ []) (hle : d.randomTicket.toNat ≤ total (t.tickets ps)) :
    (ps.foldl t.drawStep d).isLotterySelected = 2 ∧
      (ps.foldl t.drawStep d).highLotteryTicket = winner (t.tickets ps) d.randomTicket.toNat := by
  induction ps generalizing d with
  | nil => exact absurd rfl hne
  | cons p ps ih =>
    rw [List.foldl_cons]
    by_cases hready : t.ready qLottery p = true
    · rw [tickets_cons_ready hready] at hle ⊢
      rw [total_cons] at hle
      have htest := sub_sle hr (hsmall p hready)
      have hselected : ∀ a : Option (Fin n), (if d.isLotterySelected = 0 then (1, some p)
          else (d.isLotterySelected, a)).1 = 1 := fun a => by
        split_ifs
        · rfl
        · show d.isLotterySelected = 1
          omega
      rw [winner]
      by_cases hwin : d.randomTicket.toNat ≤ (t p).lotteryTicket.toNat
      · have hstep : t.drawStep d p = ⟨d.randomTicket - (t p).lotteryTicket, 2, some p⟩ := by
          rw [drawStep, if_pos hready]
          exact if_pos ⟨htest.2 hwin, hselected _⟩
        rw [hstep, if_pos hwin]
        exact foldl_drawn rfl
      obtain ⟨high, hstep⟩ : ∃ high, t.drawStep d p =
          ⟨d.randomTicket - (t p).lotteryTicket, 1, high⟩ := by
        rw [drawStep, if_pos hready]
        refine ⟨(if d.isLotterySelected = 0 then (1, some p)
          else (d.isLotterySelected, d.highLotteryTicket)).2, ?_⟩
        refine (if_neg fun h => hwin (htest.1 h.1)).trans ?_
        exact congrArg (fun k => (⟨_, k, _⟩ : Draw n)) (hselected d.highLotteryTicket)
      have hsub : (d.randomTicket - (t p).lotteryTicket).toNat =
          d.randomTicket.toNat - (t p).lotteryTicket.toNat := toNat_sub (by omega)
      rw [hstep, if_neg hwin, ← hsub]
      refine ih Nat.one_lt_two ?_ ?_ ?_
      · show (d.randomTicket - (t p).lotteryTicket).toNat < _
        omega
      · intro hnil
        rw [hnil, total_nil] at hle
        omega
      · show (d.randomTicket - (t p).lotteryTicket).toNat ≤ _
        omega
    · have hstep : t.drawStep d p = d := by
        rw [drawStep, if_neg hready]
      rw [tickets_cons_other hready] at hne hle ⊢
      rw [hstep]
      exact ih hd hr hne hle

theorem foldl_sum (ps : List (Fin n)) (a : BitVec 32) :
    ps.foldl (fun sum p => if t.ready qLottery p then sum + (t p).lotteryTicket else sum) a =
      a + BitVec.ofNat 32 (total (t.tickets ps)) := by
  induction ps generalizing a with
  | nil => simp [tickets]
  | cons p ps ih =>
    rw [List.foldl_cons, ih]
    by_cases hready : t.ready qLottery p = true
    · rw [if_pos hready, tickets_cons_ready hready, total_cons, BitVec.ofNat_add, BitVec.ofNat_toNat,
        BitVec.setWidth_eq, BitVec.add_assoc]
    · rw [if_neg hready, tickets_cons_other hready]

/-! ## The shares of the lottery -/

variable (t)

/-- The tickets of the queue. -/
def ticketSum : ℕ := total (t.tickets (List.finRange n))

/-- The tickets of the queue in the slots before `p`. -/
def ticketsBefore (p : Fin n) : ℕ := total (t.tickets ((List.finRange n).filter (· < p)))

/-- Is `p` the first process in the queue? -/
def first (p : Fin n) : Prop := ∀ q < p, t.ready qLottery q = false

instance (p : Fin n) : Decidable (t.first p) := by
  unfold first
  infer_instance

/-- The numbers of the tickets of `p`. -/
def Share (p : Fin n) (r : ℕ) : Prop :=
  (t.first p ∨ t.ticketsBefore p < r) ∧ r ≤ t.ticketsBefore p + (t p).lotteryTicket.toNat

instance (p : Fin n) (r : ℕ) : Decidable (t.Share p r) := by
  unfold Share
  infer_instance

/-- No process in the queue has a negative number of tickets, and their sum is small. -/
structure Fair : Prop where
  nonneg : ∀ p, t.ready qLottery p = true → 0 ≤ (t p).lotteryTicket.toInt
  sum : t.ticketSum < 2 ^ 31 - 1

variable {t}

theorem sumLotteries_eq : t.sumLotteries = BitVec.ofNat 32 (t.ticketSum + 1) := by
  rw [sumLotteries, foldl_sum, BitVec.ofNat_add, BitVec.add_comm]
  rfl

theorem split (p : Fin n) : ∃ v, List.finRange n = (List.finRange n).filter (· < p) ++ p :: v := by
  obtain ⟨u, v, huv⟩ := List.append_of_mem (List.mem_finRange p)
  have hsorted := List.pairwise_lt_finRange n
  rw [huv] at hsorted
  obtain ⟨-, hv, hu⟩ := List.pairwise_append.1 hsorted
  refine ⟨v, ?_⟩
  have hleft : u.filter (· < p) = u :=
    List.filter_eq_self.2 fun q hq => decide_eq_true (hu q hq p List.mem_cons_self)
  have hright : v.filter (· < p) = [] := List.filter_eq_nil_iff.2 fun q hq h =>
      absurd (of_decide_eq_true h) ((List.pairwise_cons.1 hv).1 q hq).le.not_gt
  nth_rewrite 2 [huv]
  rw [List.filter_append, List.filter_cons_of_neg (by simp), hleft, hright, List.append_nil, huv]

theorem tickets_split (hp : t.ready qLottery p = true) :
    ∃ l, t.tickets (List.finRange n) = t.tickets ((List.finRange n).filter (· < p)) ++
      (p, (t p).lotteryTicket.toNat) :: l := by
  obtain ⟨v, hv⟩ := split p
  refine ⟨t.tickets v, ?_⟩
  nth_rewrite 1 [hv]
  rw [← tickets_cons_ready hp]
  simp [tickets]

theorem tickets_ne_nil (h : ∃ p, t.ready qLottery p = true) : t.tickets (List.finRange n) ≠ [] := by
  obtain ⟨p, hp⟩ := h
  obtain ⟨l, hl⟩ := tickets_split hp
  rw [hl]
  simp

theorem tickets_nodup : ((t.tickets (List.finRange n)).map Prod.fst).Nodup := by
  rw [fst_tickets]
  exact (List.nodup_finRange n).filter _

theorem first_iff : t.first p ↔ t.tickets ((List.finRange n).filter (· < p)) = [] := by
  rw [List.eq_nil_iff_forall_not_mem]
  constructor
  · rintro hfirst ⟨q, w⟩ hq
    obtain ⟨hlt, hready, -⟩ := mem_tickets.1 hq
    have hqp : q < p := by simpa using hlt
    rw [hfirst q hqp] at hready
    cases hready
  · intro hnil q hq
    by_contra hready
    refine hnil (q, (t q).lotteryTicket.toNat) (mem_tickets.2 ⟨?_, ?_, rfl⟩)
    · simpa using hq
    · simpa using hready

theorem winner_share (hp : t.ready qLottery p = true) :
    winner (t.tickets (List.finRange n)) r = some p ↔ t.Share p r := by
  obtain ⟨l, hl⟩ := tickets_split hp
  have hnodup := t.tickets_nodup
  rw [hl] at hnodup ⊢
  rw [winner_iff hnodup, Share, first_iff]
  rfl

theorem Fair.small (h : t.Fair) (hp : t.ready qLottery p = true) :
    (t p).lotteryTicket.toNat < 2 ^ 31 := by
  have := h.nonneg p hp
  rw [BitVec.toInt_eq_toNat_cond] at this
  have := (t p).lotteryTicket.isLt
  split_ifs at * <;> omega

theorem Fair.draw (h : t.Fair) (hsome : ∃ p, t.ready qLottery p = true) (hr : r ≤ t.ticketSum) :
    (t.draw (BitVec.ofNat 32 r)).isLotterySelected = 2 ∧
      t.drawn (BitVec.ofNat 32 r) = winner (t.tickets (List.finRange n)) r := by
  have hlt := h.sum
  have hnat : (BitVec.ofNat 32 r).toNat = r := by
    rw [BitVec.toNat_ofNat]
    omega
  obtain ⟨hs, hh⟩ := foldl_draw (d := ⟨BitVec.ofNat 32 r, 0, none⟩) Nat.zero_lt_two
    (by rw [hnat]; omega) (fun p hp => h.small hp) (tickets_ne_nil hsome) (by rw [hnat]; exact hr)
  rw [hnat] at hh
  refine ⟨hs, ?_⟩
  rw [drawn, if_pos]
  · exact hh
  · rw [Procs.draw, hs]
    decide

theorem Fair.generateRandom (h : t.Fair) (ticks : BitVec 32) :
    Table.generateRandom ticks t.sumLotteries = some (BitVec.ofNat 32
      ((12345678 + ticks * ticks * ticks * ticks).toNat % (t.ticketSum + 1))) := by
  have hlt := h.sum
  have hnat : t.sumLotteries.toNat = t.ticketSum + 1 := by
    rw [sumLotteries_eq, BitVec.toNat_ofNat]
    omega
  have hne : t.sumLotteries ≠ 0 := by
    intro hzero
    rw [hzero] at hnat
    cases hnat
  rw [Table.generateRandom, if_neg hne, ← hnat, ← BitVec.toNat_umod, BitVec.ofNat_toNat,
    BitVec.setWidth_eq]

end Procs

end Xv6.Ptable

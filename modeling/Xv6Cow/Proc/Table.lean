import Xv6Cow.Param

/-!
# The process table

The functions of `proc.c` on `ptable.proc`, each between an `acquire(&ptable.lock)` and the matching
`release`, and the three selectors of the scheduler.  The fields are those these functions read.

Kernel stacks and page directories are frames, given by their number.  The fields of type `int` that
`setQueue`, `setLottery` and the like store from user space are 32-bit words.  A process number is a
natural number: fewer than `2 ^ 31` are handed out.
-/

namespace Xv6.Ptable

/-- Index into `ptable.proc`. -/
abbrev Slot := Fin 64

/-- The order of the table. -/
abbrev slots : List Slot := List.finRange 64

inductive PState
  | unused
  | embryo
  | sleeping
  | runnable
  | running
  | zombie
deriving DecidableEq

/-- What a process sleeps on: the address of a process, or of anything else. -/
inductive Chan
  | proc (p : Slot)
  | other (n : ℕ)
deriving DecidableEq

structure Proc where
  state : PState
  pid : ℕ
  parent : Option Slot
  chan : Option Chan
  killed : Bool
  kstack : Option ℕ
  pgdir : Option ℕ
  lotteryTicket : BitVec 32
  schedQueue : BitVec 32
  priority : BitVec 32
  burstTime : BitVec 32
deriving DecidableEq

namespace Proc

variable (x : Proc)

def setState (st : PState) : Proc := { x with state := st }

section

variable (st : PState)

include st

@[simp] theorem setState_state : (x.setState st).state = st := rfl
@[simp] theorem setState_pid : (x.setState st).pid = x.pid := rfl
@[simp] theorem setState_parent : (x.setState st).parent = x.parent := rfl
@[simp] theorem setState_kstack : (x.setState st).kstack = x.kstack := rfl
@[simp] theorem setState_pgdir : (x.setState st).pgdir = x.pgdir := rfl
end

def setParent (p : Option Slot) : Proc := { x with parent := p }

/-- `kill` of this process. -/
def kill : Proc :=
  { x with killed := true, state := if x.state = .sleeping then .runnable else x.state }

/-- `wait` clears the slot; it leaves `pgdir` behind. -/
def reap : Proc :=
  { x with kstack := none, pid := 0, parent := none, killed := false, state := .unused }

end Proc

abbrev Table := Slot → Proc

/-- `enum schedAlgorithms` of `defs.h`; in `user.h` each number is larger by one. -/
def qPriority : BitVec 32 := 0
def qSjf : BitVec 32 := 1
def qLottery : BitVec 32 := 2

/-- The process made by `userinit`. -/
def initproc : Slot := 0

namespace Table

variable (t : Table)

def set (p : Slot) (x : Proc) : Table := Function.update t p x

def setState (p : Slot) (x : PState) : Table := t.set p ((t p).setState x)

def wakeup1 (ch : Option Chan) : Table := fun p =>
  if (t p).state = .sleeping ∧ (t p).chan = ch then (t p).setState .runnable else t p

/-- The first slot with the process number; that of an unused slot may be old. -/
def findPid (pid : ℤ) : Option Slot := slots.find? fun p => (t p).pid = pid

def kill (pid : ℤ) : Table :=
  match t.findPid pid with
  | none => t
  | some p => t.set p (t p).kill

/-- The loop of the functions `find_and_set_…`. -/
def findAndSet (pid : ℤ) (f : Proc → Proc) : Table :=
  match t.findPid pid with
  | none => t
  | some p => t.set p (f (t p))

def findAndSetPriority (x : BitVec 32) (pid : ℤ) : Table :=
  t.findAndSet pid fun p => { p with priority := x }

def findAndSetLotteryTicket (x : BitVec 32) (pid : ℤ) : Table :=
  t.findAndSet pid fun p => { p with lotteryTicket := x }

def findAndSetSchedQueue (x : BitVec 32) (pid : ℤ) : Table :=
  t.findAndSet pid fun p => { p with schedQueue := x }

def findAndSetBurstTime (x : BitVec 32) (pid : ℤ) : Table :=
  t.findAndSet pid fun p => { p with burstTime := x }

/-- The loop of `allocproc`. -/
def allocproc : Option Slot := slots.find? fun p => (t p).state = .unused

/-- `exit` passes a child of `p` to `initproc`. -/
def handOver (p q : Slot) : Table :=
  if (t q).parent = some p then
    let u := t.set q ((t q).setParent (some initproc))
    if (t q).state = .zombie then u.wakeup1 (some (.proc initproc)) else u
  else t

/-- The loop of `exit`. -/
def abandon (p : Slot) (qs : List Slot) : Table := qs.foldl (fun u q => u.handOver p q) t

/-- `exit`, after the files are closed. -/
def exit (p : Slot) : Table :=
  ((t.wakeup1 ((t p).parent.map .proc)).abandon p slots).setState p .zombie

/-- The child `wait` comes to first. -/
def zombieChild (p : Slot) : Option Slot :=
  slots.find? fun q => (t q).parent = some p ∧ (t q).state = .zombie

def havekids (p : Slot) : Bool := slots.any fun q => (t q).parent = some p

/-! ## The scheduler -/

/-- `12345678 + ticks ^ 4` modulo the number of tickets, in unsigned arithmetic; a division by zero
traps. -/
def generateRandom (ticks toMod : BitVec 32) : Option (BitVec 32) :=
  if toMod = 0 then none else some ((12345678 + ticks * ticks * ticks * ticks) % toMod)

/-- Is the process one the selector of the queue looks at? -/
def ready (queue : BitVec 32) (p : Slot) : Bool :=
  (t p).state = .runnable ∧ (t p).schedQueue = queue

/-- The tickets `lotterySched` adds up, from 1. -/
def sumLotteries (t : Table) : List Slot → BitVec 32
  | [] => 1
  | p :: ps => if t.ready qLottery p then (t p).lotteryTicket + sumLotteries t ps else sumLotteries t ps

/-- The second loop of `lotterySched`: the process chosen so far, and whether its ticket has been
drawn. -/
def draw (t : Table) : List Slot → BitVec 32 → Option Slot → Bool → Option Slot
  | [], _, best, _ => best
  | p :: ps, random, best, drawn =>
    if t.ready qLottery p then
      let random := random - (t p).lotteryTicket
      if random.sle 0 ∧ drawn = false then draw t ps random (some p) true
      else draw t ps random (best.or (some p)) drawn
    else draw t ps random best drawn

/-- `none` is the trap of `generate_random`. -/
def lotterySched (ticks : BitVec 32) : Option (Option Slot) :=
  (generateRandom ticks (t.sumLotteries slots)).map fun random => t.draw slots random none false

/-- The loop of `SJFSched` and `prioritySched`: the first process with the smallest key. -/
def least (t : Table) (queue : BitVec 32) (key : Proc → BitVec 32) :
    List Slot → Option Slot → Option Slot
  | [], best => best
  | p :: ps, best =>
    if t.ready queue p then
      match best with
      | none => least t queue key ps (some p)
      | some b => least t queue key ps (if (key (t p)).slt (key (t b)) then some p else some b)
    else least t queue key ps best

def sjfSched : Option Slot := t.least qSjf Proc.burstTime slots none

def prioritySched : Option Slot := t.least qPriority Proc.priority slots none

/-- One pass of `scheduler`. -/
def select (ticks : BitVec 32) : Option (Option Slot) :=
  (t.lotterySched ticks).map fun p => p.or (t.sjfSched.or t.prioritySched)

end Table

/-! ## What the functions keep -/

/-- The process keeps what it has, and is woken at most. -/
structure Kept (x y : Proc) : Prop where
  state : y.state = x.state ∨ x.state = .sleeping ∧ y.state = .runnable
  pid : y.pid = x.pid
  chan : y.chan = x.chan
  kstack : y.kstack = x.kstack
  pgdir : y.pgdir = x.pgdir

structure Woken (x y : Proc) : Prop extends Kept x y where
  parent : y.parent = x.parent

theorem Kept.refl (x : Proc) : Kept x x := ⟨.inl rfl, rfl, rfl, rfl, rfl⟩

theorem Kept.trans {x y z : Proc} (h : Kept x y) (h' : Kept y z) : Kept x z := by
  obtain ⟨hs, hpid, hch, hk, hd⟩ := h
  obtain ⟨hs', hpid', hch', hk', hd'⟩ := h'
  refine ⟨?_, hpid'.trans hpid, hch'.trans hch, hk'.trans hk, hd'.trans hd⟩
  rcases hs with hs | ⟨hs, hy⟩
  · rwa [hs] at hs'
  rcases hs' with hs' | ⟨hs', -⟩
  · exact .inr ⟨hs, hs'.trans hy⟩
  · rw [hy] at hs'
    cases hs'

theorem Woken.refl (x : Proc) : Woken x x := ⟨.refl x, rfl⟩

theorem Woken.trans {x y z : Proc} (h : Woken x y) (h' : Woken y z) : Woken x z :=
  ⟨h.toKept.trans h'.toKept, h'.parent.trans h.parent⟩

namespace Table

variable {t u : Table} {p q z : Slot} {ch : Option Chan}

theorem set_apply (t : Table) (p q : Slot) (x : Proc) : t.set p x q = if q = p then x else t q := by
  by_cases h : q = p
  · subst h
    simp [set]
  · simp [set, h]

/-! ### Fields that stay

`π` reads some of the fields of a process. -/

section

variable {α : Type} {π : Proc → α}

theorem set_same {x : Proc} (hx : π x = π (t p)) (q : Slot) : π (t.set p x q) = π (t q) := by
  rw [set_apply]
  split_ifs with hq
  · rw [hq, hx]
  · rfl

theorem findAndSet_field {f : Proc → Proc} {v : α} (hf : ∀ x, π (f x) = v) (t : Table) (pid : ℤ)
    (q : Slot) : π (t.findAndSet pid f q) = π (t q) ∨ π (t.findAndSet pid f q) = v := by
  unfold findAndSet
  rcases t.findPid pid with _ | p
  · exact .inl rfl
  show π (t.set p _ q) = _ ∨ π (t.set p _ q) = _
  rw [set_apply]
  split_ifs
  · exact .inr (hf _)
  · exact .inl rfl

theorem findAndSet_same {f : Proc → Proc} (hf : ∀ x, π (f x) = π x) (t : Table) (pid : ℤ)
    (q : Slot) : π (t.findAndSet pid f q) = π (t q) := by
  unfold findAndSet
  cases t.findPid pid with
  | none => rfl
  | some p => exact set_same (hf _) q

theorem kill_same (hkill : ∀ x, π (Proc.kill x) = π x) (t : Table) (pid : ℤ) (q : Slot) :
    π (t.kill pid q) = π (t q) := by
  unfold kill
  cases t.findPid pid with
  | none => rfl
  | some p => exact set_same (hkill _) q

theorem wakeup1_same (hstate : ∀ x st, π (Proc.setState x st) = π x) (t : Table) (ch : Option Chan)
    (q : Slot) : π (t.wakeup1 ch q) = π (t q) := by
  unfold wakeup1
  split_ifs
  · exact hstate _ _
  · rfl

theorem exit_same (hstate : ∀ x st, π (Proc.setState x st) = π x)
    (hparent : ∀ x r, π (Proc.setParent x r) = π x) (t : Table) (p q : Slot) :
    π (t.exit p q) = π (t q) := by
  have hover : ∀ (u : Table) (r : Slot), π (u.handOver p r q) = π (u q) := by
    intro u r
    have hset := set_same (t := u) (hparent (u r) (some initproc)) q
    unfold handOver
    split_ifs
    · exact (wakeup1_same hstate _ _ q).trans hset
    · exact hset
    · rfl
  have habandon : ∀ (qs : List Slot) (u : Table), π (u.abandon p qs q) = π (u q) := by
    intro qs
    induction qs with
    | nil => exact fun _ => rfl
    | cons r qs ih => exact fun u => (ih (u.handOver p r)).trans (hover u r)
  calc π (t.exit p q)
    _ = π ((t.wakeup1 ((t p).parent.map .proc)).abandon p slots q) := set_same (hstate _ _) q
    _ = π (t.wakeup1 ((t p).parent.map .proc) q) := habandon slots _
    _ = π (t q) := wakeup1_same hstate t _ q

end

theorem set_woken {x : Proc} (h : Woken (t p) x) (q : Slot) : Woken (t q) (t.set p x q) := by
  rw [set_apply]
  split_ifs with hq
  · rw [hq]
    exact h
  · exact .refl _

theorem wakeup1_woken (t : Table) (ch : Option Chan) (q : Slot) : Woken (t q) (t.wakeup1 ch q) := by
  unfold wakeup1
  split_ifs with h
  · exact ⟨⟨.inr ⟨h.1, rfl⟩, rfl, rfl, rfl, rfl⟩, rfl⟩
  · exact .refl _

theorem wakeup1_state (t : Table) (ch : Option Chan) (q : Slot) :
    ¬ ((t.wakeup1 ch q).state = .sleeping ∧ (t.wakeup1 ch q).chan = ch) := by
  unfold wakeup1
  split_ifs with h
  · simp [Proc.setState]
  · exact h

theorem kill_woken (t : Table) (pid : ℤ) (q : Slot) : Woken (t q) (t.kill pid q) := by
  unfold kill
  rcases t.findPid pid with _ | p
  · exact .refl _
  have hkill : Woken (t p) (t p).kill := by
    refine ⟨⟨?_, rfl, rfl, rfl, rfl⟩, rfl⟩
    by_cases h : (t p).state = .sleeping
    · exact .inr ⟨h, if_pos h⟩
    · exact .inl (if_neg h)
  exact set_woken hkill q

theorem findAndSet_woken {f : Proc → Proc} (hf : ∀ x, Woken x (f x)) (t : Table) (pid : ℤ)
    (q : Slot) : Woken (t q) (t.findAndSet pid f q) := by
  unfold findAndSet
  cases t.findPid pid with
  | none => exact .refl _
  | some p => exact set_woken (hf _) q

theorem allocproc_unused (h : t.allocproc = some p) : (t p).state = .unused := by
  simpa using List.find?_some h

theorem zombieChild_some (h : t.zombieChild p = some z) :
    (t z).parent = some p ∧ (t z).state = .zombie := by
  simpa using List.find?_some h

theorem zombieChild_none (h : t.zombieChild p = none) (hq : (t q).parent = some p) :
    (t q).state ≠ .zombie := by
  have := List.find?_eq_none.1 h q (List.mem_finRange q)
  simpa [hq] using this

/-! ## `exit` -/

section

variable (t : Table)

theorem handOver_kept (p r q : Slot) : Kept (t q) (t.handOver p r q) := by
  have hset : Kept (t q) (t.set r ((t r).setParent (some initproc)) q) := by
    rw [set_apply]
    split_ifs with hq
    · rw [hq]
      exact ⟨.inl rfl, rfl, rfl, rfl, rfl⟩
    · exact .refl _
  unfold handOver
  split_ifs
  · exact hset.trans (wakeup1_woken _ _ q).toKept
  · exact hset
  · exact .refl _

theorem handOver_parent (p r q : Slot) : (t.handOver p r q).parent =
      if q = r ∧ (t q).parent = some p then some initproc else (t q).parent := by
  have hset : (t.set r ((t r).setParent (some initproc)) q).parent =
      if q = r then some initproc else (t q).parent := by
    rw [set_apply]
    split_ifs <;> rfl
  unfold handOver
  by_cases hr : (t r).parent = some p
  · have hsame : (if q = r then some initproc else (t q).parent) =
        if q = r ∧ (t q).parent = some p then some initproc else (t q).parent := by
      by_cases hq : q = r
      · simp [hq, hr]
      · simp [hq]
    rw [if_pos hr, ← hsame, ← hset]
    split_ifs
    · exact (wakeup1_woken _ _ q).parent
    · rfl
  · have hne : ¬ (q = r ∧ (t q).parent = some p) := by
      rintro ⟨rfl, h⟩
      exact hr h
    rw [if_neg hr, if_neg hne]

theorem abandon_kept (p : Slot) (qs : List Slot) (q : Slot) : Kept (t q) (t.abandon p qs q) := by
  induction qs generalizing t with
  | nil => exact .refl _
  | cons r qs ih => exact (handOver_kept t p r q).trans (ih _)

theorem abandon_parent {p : Slot} (hp : p ≠ initproc) (qs : List Slot) (q : Slot) :
    (t.abandon p qs q).parent =
      if q ∈ qs ∧ (t q).parent = some p then some initproc else (t q).parent := by
  induction qs generalizing t with
  | nil => simp [abandon]
  | cons r qs ih =>
    have hnext := ih (t.handOver p r)
    rw [handOver_parent] at hnext
    rw [show t.abandon p (r :: qs) = (t.handOver p r).abandon p qs from rfl, hnext]
    by_cases hq : q = r
    · subst hq
      by_cases hpar : (t q).parent = some p
      · simp [hpar, hp.symm]
      · simp [hpar]
    · simp [hq]

theorem abandon_awake (p : Slot) (qs : List Slot) (q : Slot)
    (h : (t q).state ≠ .sleeping ∨ (t q).chan ≠ ch) :
    ¬ ((t.abandon p qs q).state = .sleeping ∧ (t.abandon p qs q).chan = ch) := by
  obtain ⟨hs, -, hch, -, -⟩ := abandon_kept t p qs q
  rintro ⟨hs', hch'⟩
  rcases hs with hs | ⟨-, hr⟩
  · rcases h with h | h
    · exact h (hs ▸ hs')
    · exact h (hch ▸ hch')
  · rw [hr] at hs'
    cases hs'

/-- `initproc` does not sleep through the handing over of a zombie. -/
theorem abandon_init {p : Slot} (qs : List Slot) (hz : z ∈ qs)
    (hpar : (t z).parent = some p) (hzombie : (t z).state = .zombie) :
    ¬ ((t.abandon p qs initproc).state = .sleeping ∧
      (t.abandon p qs initproc).chan = some (.proc initproc)) := by
  induction qs generalizing t with
  | nil => cases hz
  | cons r qs ih =>
    show ¬ (((t.handOver p r).abandon p qs initproc).state = _ ∧ _)
    by_cases hr : r = z
    · subst hr
      refine abandon_awake _ p qs initproc ?_
      have := wakeup1_state (t.set r ((t r).setParent (some initproc))) (some (.proc initproc)) initproc
      rw [not_and_or] at this
      simpa [handOver, hpar, hzombie] using this
    · refine ih (t.handOver p r) ((List.mem_cons.1 hz).resolve_left (Ne.symm hr)) ?_ ?_
      · rw [handOver_parent, if_neg (fun h => hr h.1.symm), hpar]
      rcases (handOver_kept t p r z).state with h | ⟨h, -⟩
      · rw [h, hzombie]
      · rw [hzombie] at h
        cases h

theorem exit_kept (p q : Slot) (hq : q ≠ p) : Kept (t q) (t.exit p q) := by
  rw [exit, setState, set_apply, if_neg hq]
  exact (wakeup1_woken t _ q).toKept.trans (abandon_kept _ p slots q)

theorem exit_parent {p : Slot} (hp : p ≠ initproc) (q : Slot) :
    (t.exit p q).parent = if (t q).parent = some p then some initproc else (t q).parent := by
  have hab := abandon_parent (t.wakeup1 ((t p).parent.map .proc)) hp slots q
  rw [(wakeup1_woken t _ q).parent] at hab
  have hset : (t.exit p q).parent =
      ((t.wakeup1 ((t p).parent.map .proc)).abandon p slots q).parent := by
    rw [exit, setState, set_apply]
    split_ifs with h
    · rw [h, Proc.setState_parent]
    · rfl
  rw [hset, hab]
  simp [slots]

theorem exit_self (p : Slot) : (t.exit p p).state = .zombie ∧ (t.exit p p).pid = (t p).pid ∧
      (t.exit p p).kstack = (t p).kstack ∧ (t.exit p p).pgdir = (t p).pgdir := by
  have h := (wakeup1_woken t ((t p).parent.map .proc) p).toKept.trans (abandon_kept _ p slots p)
  rw [exit, setState, set_apply, if_pos rfl, Proc.setState_state, Proc.setState_pid,
    Proc.setState_kstack, Proc.setState_pgdir]
  exact ⟨rfl, h.pid, h.kstack, h.pgdir⟩

theorem exit_wakes_parent {p q : Slot} (hq : q ≠ p) (hpar : (t p).parent = some q) :
    ¬ ((t.exit p q).state = .sleeping ∧ (t.exit p q).chan = some (.proc q)) := by
  rw [exit, setState, set_apply, if_neg hq]
  refine abandon_awake _ p slots q ?_
  have := wakeup1_state t ((t p).parent.map .proc) q
  rw [hpar, not_and_or] at this
  rw [hpar]
  exact this

theorem exit_wakes_init {p : Slot} (hp : p ≠ initproc) (hpar : (t z).parent = some p)
    (hz : (t z).state = .zombie) :
    ¬ ((t.exit p initproc).state = .sleeping ∧
      (t.exit p initproc).chan = some (.proc initproc)) := by
  have hw := wakeup1_woken t ((t p).parent.map .proc) z
  have := abandon_init (t.wakeup1 ((t p).parent.map .proc)) slots (List.mem_finRange z)
    (by rw [hw.parent, hpar]) (by
      rcases hw.state with h | ⟨h, -⟩
      · rw [h, hz]
      · rw [hz] at h
        cases h)
  rwa [exit, setState, set_apply, if_neg hp.symm]

end

end Table

end Xv6.Ptable

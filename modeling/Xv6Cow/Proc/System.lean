import Xv6Cow.Lib.Run
import Xv6Cow.Proc.Table

/-!
# Processes on several CPUs

Each CPU runs `scheduler`, or a process, or is on its way back from the one to the other; the lock of
the process table goes with it through `swtch`.  A step is a stretch of code of one CPU: all that a
CPU does while it holds `ptable.lock` and stays on one stack, or an update made without the lock.
Where a process stands in `fork` and `exec` is its `Point`; an interrupt or a `sleep` can take the CPU
from it at any point.

Frames are taken for kernel stacks and page directories only; `kalloc` returns one not in use, or
fails.
-/

namespace Xv6.Ptable

open Function Lts

/-- How far a process has come in `fork` or `exec`. -/
inductive Point
  /-- In neither. -/
  | user
  /-- `allocproc` has the slot and calls `kalloc`. -/
  | forkStack (np : Slot)
  /-- `allocproc` has returned. -/
  | forkDir (np : Slot)
  /-- `copyuvm` fills the directory. -/
  | forkCopy (np : Slot) (d : ℕ)
  /-- `copyuvm` has failed. -/
  | forkBad (np : Slot)
  /-- The kernel stack has been freed. -/
  | forkUndo (np : Slot)
  /-- The child is complete. -/
  | forkRun (np : Slot) (d : ℕ)
  /-- `exec` looks for the file. -/
  | execStart
  /-- `exec` fills the new directory. -/
  | execLoad (d : ℕ)
  /-- `curproc->pgdir` is new, and `switchuvm` comes next. -/
  | execSwitch (old : ℕ)
  /-- `freevm` of the old directory comes next. -/
  | execFree (old : ℕ)
deriving DecidableEq

/-- What the process is doing there. -/
inductive Mode
  /-- It runs, without the lock. -/
  | here
  /-- It has called `sched` from `yield`, or starts at `forkret`. -/
  | yielded
  /-- It has called `sched` from a `sleep` on something that is not a process. -/
  | slept
  /-- It has called `sched` from the `sleep` of `wait`. -/
  | inWait
  /-- It holds the lock and scans the table in `wait`. -/
  | scan
  /-- There is no process, or it will not run. -/
  | gone
deriving DecidableEq

structure Thread where
  point : Point
  mode : Mode

/-- Where a CPU is. -/
inductive Stage
  /-- In the loop of `scheduler`. -/
  | idle
  /-- On the stack of a process. -/
  | run
  /-- Back in `scheduler`, right after `swtch`. -/
  | back
deriving DecidableEq

structure Cpu where
  /-- `cpus[i].proc`. -/
  proc : Option Slot
  /-- The directory in the register `cr3`, or `none` for `kpgdir`. -/
  cr3 : Option ℕ
  /-- The kernel stack the CPU is on, or `none` for that of `scheduler`. -/
  stack : Option ℕ
  /-- The cell `%gs:4`, which `proc.h` calls `proc`. -/
  gs : Option Slot
  stage : Stage

namespace Cpu

variable (x : Cpu)

/-- `scheduler` up to `swtch`. -/
def enter (p : Slot) (k d : ℕ) : Cpu :=
  { x with proc := some p, cr3 := some d, stack := some k, stage := .run }

/-- `swtch` to `scheduler`. -/
def leave : Cpu := { x with stack := none, stage := .back }

/-- `scheduler` after `swtch`. -/
def settle : Cpu := { x with proc := none, cr3 := none, stage := .idle }

def lcr3 (d : Option ℕ) : Cpu := { x with cr3 := d }

end Cpu

namespace Proc

variable (x : Proc)

def sleepOn (ch : Chan) : Proc := { x with chan := some ch, state := .sleeping }

/-- The end of `sleep`. -/
def wake : Proc := { x with chan := none }

/-- The section of `allocproc`. -/
def embryo (pid : ℕ) : Proc := { x with state := .embryo, pid := pid }

/-- The rest of `allocproc`. -/
def withStack (f : ℕ) : Proc :=
  { x with kstack := some f, lotteryTicket := 50, burstTime := 0, schedQueue := qLottery }

def noStack : Proc := { x with kstack := none, state := .unused }

/-- What `fork` has got from `copyuvm`. -/
def withDir (d : ℕ) (p : Slot) : Proc := { x with pgdir := some d, parent := some p }

/-- `copyuvm` has failed, and `fork` frees the kernel stack. -/
def noDir : Proc := { x with pgdir := none, kstack := none }

/-- The section of `fork`. -/
def start : Proc := { x with priority := 1000, state := .runnable }

def setPgdir (d : ℕ) : Proc := { x with pgdir := some d }

def setKilled : Proc := { x with killed := true }

end Proc

/-- A call of `wait` that has returned a process number. -/
structure Wait where
  waiter : Slot
  /-- The parent of the child when it was found. -/
  parent : Option Slot
  pid : ℕ

structure Sys (C : Type) where
  table : Table
  nextpid : ℕ
  thread : Slot → Thread
  cpu : C → Cpu
  /-- The CPU that holds `ptable.lock`. -/
  lock : Option C
  /-- The frames in use as kernel stack or page directory. -/
  used : ℕ → Bool
  /-- The numbers `fork` has returned. -/
  forked : List ℕ
  /-- What `wait` has returned. -/
  waited : List Wait
  /-- The processes whose kernel stack has been freed, by number. -/
  kstacks : List ℕ
  /-- The processes whose page directory `wait` has freed, by number. -/
  pgdirs : List ℕ
  /-- The frames that have been freed, with the CPUs at that moment. -/
  freed : List (ℕ × (C → Cpu))

namespace Sys

variable {C : Type} [DecidableEq C] (s : Sys C)

def setTable (t : Table) : Sys C := { s with table := t }

def setProc (p : Slot) (x : Proc) : Sys C := s.setTable (s.table.set p x)

def setThread (p : Slot) (k : Point) (m : Mode) : Sys C :=
  { s with thread := update s.thread p ⟨k, m⟩ }

/-- The process goes on at a point of the code. -/
def goto (p : Slot) (k : Point) : Sys C := s.setThread p k .here

def setCpu (c : C) (x : Cpu) : Sys C := { s with cpu := update s.cpu c x }

def setLock (x : Option C) : Sys C := { s with lock := x }

def take (f : ℕ) : Sys C := { s with used := update s.used f true }

/-- `kfree` of a kernel stack, `freevm` of a directory. -/
def free (f : ℕ) : Sys C :=
  { s with used := update s.used f false, freed := (f, s.cpu) :: s.freed }

/-- `scheduler` up to `swtch`. -/
def dispatch (c : C) (p : Slot) (k d : ℕ) : Sys C :=
  ((s.setTable (s.table.setState p .running)).setCpu c ((s.cpu c).enter p k d)).setLock (some c)

/-- `sched`, up to `swtch`. -/
def sched (c : C) (p : Slot) (m : Mode) : Sys C :=
  ((s.setThread p (s.thread p).point m).setCpu c (s.cpu c).leave).setLock (some c)

/-- `scheduler` after `swtch`. -/
def settle (c : C) : Sys C := (s.setCpu c (s.cpu c).settle).setLock none

/-- `sched` returns to `yield` or `sleep`, or the child starts in `forkret`. -/
def resume (p : Slot) : Sys C := (s.goto p (s.thread p).point).setLock none

/-- The end of `sleep`. -/
def wake (p : Slot) : Sys C := s.setProc p (s.table p).wake

/-- `lcr3` of the directory of the process. -/
def switchuvm (c : C) (p : Slot) : Sys C := s.setCpu c ((s.cpu c).lcr3 (s.table p).pgdir)

/-! ## Processes begin and end -/

/-- The section of `allocproc`. -/
def allocproc (p np : Slot) : Sys C :=
  { s with
    table := s.table.set np ((s.table np).embryo s.nextpid)
    thread := update s.thread p ⟨.forkStack np, .here⟩
    nextpid := s.nextpid + 1 }

/-- The rest of `allocproc`. -/
def allocStack (p np : Slot) (f : ℕ) : Sys C :=
  ((s.setProc np ((s.table np).withStack f)).take f).goto p (.forkDir np)

def allocFails (p np : Slot) : Sys C := (s.setProc np (s.table np).noStack).goto p .user

/-- `copyuvm` has returned the directory. -/
def copied (p np : Slot) (d : ℕ) : Sys C :=
  (s.setProc np ((s.table np).withDir d p)).goto p (.forkRun np d)

/-- `fork` gives the kernel stack back. -/
def freeStack (p np : Slot) (f : ℕ) : Sys C :=
  { s with
    table := s.table.set np (s.table np).noDir
    thread := update s.thread p ⟨.forkUndo np, .here⟩
    used := update s.used f false
    freed := (f, s.cpu) :: s.freed
    kstacks := (s.table np).pid :: s.kstacks }

def undo (p np : Slot) : Sys C := (s.setTable (s.table.setState np .unused)).goto p .user

/-- The section of `fork`. -/
def forkRun (p np : Slot) : Sys C :=
  { s with
    table := s.table.set np (s.table np).start
    thread := update (update s.thread np ⟨.user, .yielded⟩) p ⟨.user, .here⟩
    forked := (s.table np).pid :: s.forked }

/-- `wait` has found the child `z`: it frees the stack `k` and the directory `d`. -/
def reap (p z : Slot) (k d : ℕ) : Sys C :=
  { s with
    table := s.table.set z (s.table z).reap
    thread := update s.thread p ⟨.user, .here⟩
    lock := none
    used := update (update s.used k false) d false
    freed := (d, s.cpu) :: (k, s.cpu) :: s.freed
    waited := ⟨p, (s.table z).parent, (s.table z).pid⟩ :: s.waited
    kstacks := (s.table z).pid :: s.kstacks
    pgdirs := (s.table z).pid :: s.pgdirs }

/-- `exec` resets what the scheduler goes by. -/
def execStart (p : Slot) : Sys C :=
  let pid := (s.table p).pid
  (s.setTable (((s.table.findAndSetSchedQueue qLottery pid).findAndSetLotteryTicket 500 pid
    ).findAndSetBurstTime 0 pid)).goto p .execStart

end Sys

/-! ## Steps -/

inductive Op
  | dispatch (ticks : BitVec 32)
  | settle
  | resume
  | yield
  | sleep (n : ℕ)
  | wakeup (n : ℕ)
  | fork
  | kalloc (f : ℕ)
  | noMemory
  | copied
  | kfree
  | undo
  | forkRun
  | exec
  | bad
  | commit
  | switchuvm
  | freevm
  | wait
  | scan
  | exit
  | kill (pid : ℤ)
  | trap
  | setPriority (x : BitVec 32) (pid : ℤ)
  | setLotteryTicket (x : BitVec 32) (pid : ℤ)
  | setSchedQueue (x : BitVec 32) (pid : ℤ)
  | setBurstTime (x : BitVec 32) (pid : ℤ)
deriving DecidableEq

variable {C : Type} [DecidableEq C]

/-- The process runs on the CPU, at a point of the code and without the lock. -/
structure Runs (s : Sys C) (c : C) (p : Slot) (k : Point) : Prop where
  stage : (s.cpu c).stage = .run
  proc : (s.cpu c).proc = some p
  thread : s.thread p = ⟨k, .here⟩

/-- The process runs on the CPU, which holds the lock. -/
structure Holds (s : Sys C) (c : C) (p : Slot) (mode : Mode) : Prop where
  stage : (s.cpu c).stage = .run
  proc : (s.cpu c).proc = some p
  mode : (s.thread p).mode = mode
  lock : s.lock = some c

inductive Step : Sys C → C × Op → Sys C → Prop
  | dispatch {s c ticks p k d} (hl : s.lock = none) (hc : (s.cpu c).stage = .idle)
      (hp : s.table.select ticks = some (some p)) (hk : (s.table p).kstack = some k)
      (hd : (s.table p).pgdir = some d) : Step s (c, .dispatch ticks) (s.dispatch c p k d)
  | settle {s c} (hl : s.lock = some c) (hc : (s.cpu c).stage = .back) :
      Step s (c, .settle) (s.settle c)
  | resume {s c p} (h : Holds s c p .yielded) : Step s (c, .resume) (s.resume p)
  | resumeSleep {s c p} (h : Holds s c p .slept) : Step s (c, .resume) ((s.wake p).resume p)
  /-- The `sleep` of `wait` returns with the lock. -/
  | resumeWait {s c p} (h : Holds s c p .inWait) :
      Step s (c, .resume) ((s.wake p).setThread p (s.thread p).point .scan)
  | yield {s c p k} (h : Runs s c p k) (hl : s.lock = none) :
      Step s (c, .yield) ((s.setTable (s.table.setState p .runnable)).sched c p .yielded)
  | sleep {s c p k n} (h : Runs s c p k) (hl : s.lock = none) :
      Step s (c, .sleep n)
        ((s.setProc p ((s.table p).sleepOn (.other n))).sched c p .slept)
  /-- Also from an interrupt, whatever the CPU is doing. -/
  | wakeup {s c n} (hl : s.lock = none) :
      Step s (c, .wakeup n) (s.setTable (s.table.wakeup1 (some (.other n))))
  | fork {s c p np} (h : Runs s c p .user) (hl : s.lock = none)
      (hnp : s.table.allocproc = some np) : Step s (c, .fork) (s.allocproc p np)
  | allocStack {s c p np f} (h : Runs s c p (.forkStack np)) (hf : s.used f = false) :
      Step s (c, .kalloc f) (s.allocStack p np f)
  | allocFails {s c p np} (h : Runs s c p (.forkStack np)) :
      Step s (c, .noMemory) (s.allocFails p np)
  /-- `setupkvm`, called by `copyuvm`. -/
  | copyuvm {s c p np d} (h : Runs s c p (.forkDir np)) (hd : s.used d = false) :
      Step s (c, .kalloc d) ((s.take d).goto p (.forkCopy np d))
  | copyFails {s c p np} (h : Runs s c p (.forkDir np)) :
      Step s (c, .noMemory) (s.goto p (.forkBad np))
  | copyBad {s c p np d} (h : Runs s c p (.forkCopy np d)) :
      Step s (c, .freevm) ((s.free d).goto p (.forkBad np))
  | copied {s c p np d} (h : Runs s c p (.forkCopy np d)) : Step s (c, .copied) (s.copied p np d)
  | freeStack {s c p np f} (h : Runs s c p (.forkBad np)) (hf : (s.table np).kstack = some f) :
      Step s (c, .kfree) (s.freeStack p np f)
  | undo {s c p np} (h : Runs s c p (.forkUndo np)) : Step s (c, .undo) (s.undo p np)
  | forkRun {s c p np d} (h : Runs s c p (.forkRun np d)) (hl : s.lock = none) :
      Step s (c, .forkRun) (s.forkRun p np)
  | exec {s c p} (h : Runs s c p .user) : Step s (c, .exec) (s.execStart p)
  | execLoad {s c p d} (h : Runs s c p .execStart) (hd : s.used d = false) :
      Step s (c, .kalloc d) ((s.take d).goto p (.execLoad d))
  | execFails {s c p} (h : Runs s c p .execStart) : Step s (c, .bad) (s.goto p .user)
  | execBad {s c p d} (h : Runs s c p (.execLoad d)) :
      Step s (c, .freevm) ((s.free d).goto p .user)
  | execCommit {s c p d old} (h : Runs s c p (.execLoad d)) (ho : (s.table p).pgdir = some old) :
      Step s (c, .commit) ((s.setProc p ((s.table p).setPgdir d)).goto p (.execSwitch old))
  | execSwitch {s c p old} (h : Runs s c p (.execSwitch old)) :
      Step s (c, .switchuvm) ((s.switchuvm c p).goto p (.execFree old))
  | execFree {s c p old} (h : Runs s c p (.execFree old)) :
      Step s (c, .freevm) ((s.free old).goto p .user)
  /-- `growproc` and `pagefault`. -/
  | reload {s c p k} (h : Runs s c p k) (hk : ∀ old, k ≠ .execSwitch old) :
      Step s (c, .switchuvm) (s.switchuvm c p)
  | wait {s c p} (h : Runs s c p .user) (hl : s.lock = none) :
      Step s (c, .wait) ((s.setThread p .user .scan).setLock (some c))
  | reap {s c p z k d} (h : Holds s c p .scan) (hz : s.table.zombieChild p = some z)
      (hk : (s.table z).kstack = some k) (hd : (s.table z).pgdir = some d) :
      Step s (c, .scan) (s.reap p z k d)
  | waitFails {s c p} (h : Holds s c p .scan) (hz : s.table.zombieChild p = none)
      (hk : s.table.havekids p = false ∨ (s.table p).killed = true) :
      Step s (c, .scan) ((s.goto p .user).setLock none)
  | waitSleep {s c p} (h : Holds s c p .scan) (hz : s.table.zombieChild p = none)
      (hk : s.table.havekids p = true) (hkilled : (s.table p).killed = false) :
      Step s (c, .scan)
        ((s.setProc p ((s.table p).sleepOn (.proc p))).sched c p .inWait)
  | exit {s c p} (h : Runs s c p .user) (hl : s.lock = none) (hp : p ≠ initproc) :
      Step s (c, .exit) ((s.setTable (s.table.exit p)).sched c p .gone)
  | kill {s c p pid} (h : Runs s c p .user) (hl : s.lock = none) :
      Step s (c, .kill pid) (s.setTable (s.table.kill pid))
  /-- `trap` and `pagefault` kill the process itself. -/
  | trap {s c p k} (h : Runs s c p k) :
      Step s (c, .trap) (s.setProc p (s.table p).setKilled)
  | setPriority {s c p x pid} (h : Runs s c p .user) :
      Step s (c, .setPriority x pid) (s.setTable (s.table.findAndSetPriority x pid))
  | setLotteryTicket {s c p x pid} (h : Runs s c p .user) :
      Step s (c, .setLotteryTicket x pid) (s.setTable (s.table.findAndSetLotteryTicket x pid))
  | setSchedQueue {s c p x pid} (h : Runs s c p .user) :
      Step s (c, .setSchedQueue x pid) (s.setTable (s.table.findAndSetSchedQueue x pid))
  | setBurstTime {s c p x pid} (h : Runs s c p .user) :
      Step s (c, .setBurstTime x pid) (s.setTable (s.table.findAndSetBurstTime x pid))

/-- After `userinit`, with every CPU in `scheduler`.  `seginit` has cleared the cell `%gs:4`, and
nothing else writes to it. -/
def boot (C : Type) : Sys C where
  table p :=
    if p = initproc then
      ⟨.runnable, 1, none, none, false, some 0, some 1, 50, qLottery, 0, 0⟩
    else ⟨.unused, 0, none, none, false, none, none, 0, 0, 0, 0⟩
  nextpid := 2
  thread p := if p = initproc then ⟨.user, .yielded⟩ else ⟨.user, .gone⟩
  cpu _ := ⟨none, none, none, none, .idle⟩
  lock := none
  used f := f = 0 ∨ f = 1
  forked := []
  waited := []
  kstacks := []
  pgdirs := []
  freed := []

end Xv6.Ptable

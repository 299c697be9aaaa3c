import Xv6Cow.Lib.Prog
import Xv6Cow.Lib.Run
import Xv6Cow.Lib.Slist
import Xv6Cow.Param

/-!
# The disk drivers (`ide.c`, `memide.c`)

`ide.c` spreads a request over `iderw`, which queues it and starts the disk if it is the only one, and
the interrupt, which takes it off the queue and starts the next.  The sections under `idelock` are the
steps of the machine; between them the disk works, and processes sleep, are woken, and use the buffers
they have locked.  The disk raises one interrupt for each command and makes no errors.

`memide.c` copies to or from memory in one go.  The last three fields of `Ide` record a run.
-/

namespace Xv6.Disk

open Function Prog Lts Slist

def bsize : ℕ := 512
def sectorSize : ℕ := 512
def fssize : ℕ := 1000

/-- A pointer to a buffer. -/
abbrev Bptr := Fin nbuf

abbrev Sector := Fin bsize → UInt8

/-- What the drivers look at in a buffer. -/
structure Content where
  /-- `B_VALID`. -/
  valid : Bool
  /-- `B_DIRTY`. -/
  dirty : Bool
  dev : ℕ
  blockno : ℕ
  data : Sector

structure Buf extends Content where
  qnext : Option Bptr

/-- `iderw` of `memide.c` over the blocks of `memdisk`, of which there are `FSSIZE`. -/
def memIderw (holding : Bool) (b : Content) : EStateM String (ℕ → Sector) Content := do
  if !holding then throw "iderw: buf not locked"
  if b.valid && !b.dirty then throw "iderw: nothing to do"
  if b.dev ≠ 1 then throw "iderw: request not for disk 1"
  if fssize ≤ b.blockno then throw "iderw: block out of range"
  if b.dirty then
    modify fun memdisk => update memdisk b.blockno b.data
    return { b with dirty := false, valid := true }
  else
    let memdisk ← get
    return { b with data := memdisk b.blockno, valid := true }

/-- What `idestart` puts into the registers of the controller. -/
structure Regs where
  count : ℕ
  lba0 : ℕ
  lba1 : ℕ
  lba2 : ℕ
  drive : ℕ

/-- The sector that the registers address. -/
def Regs.sector (r : Regs) : ℕ := r.lba0 + r.lba1 <<< 8 + r.lba2 <<< 16 + (r.drive &&& 0x0f) <<< 24

/-- The disk that the registers select. -/
def Regs.disk (r : Regs) : ℕ := (r.drive >>> 4) &&& 1

/-- The controller: at rest, at work on a command (with the data for a write), or done, with an
interrupt raised. -/
inductive Device
  | idle
  | busy (r : Regs) (out : Option Sector)
  | done (buf : Sector)

/-! ## `ide.c` -/

/-- A call of `iderw`, with the buffer as it was passed. -/
structure Call where
  pid : Pid
  buf : Bptr
  arg : Content

/-- Where a process stands in `iderw`; once its request is queued, `k` is the place of the call in the
order of the queue. -/
inductive Pc
  | out
  | called (b : Bptr)
  | asleep (b : Bptr) (k : ℕ)
  | awake (b : Bptr) (k : ℕ)

structure Ide where
  buf : Bptr → Buf
  /-- Who holds the lock of the buffer. -/
  lock : Bptr → Option Pid
  havedisk1 : Bool
  idequeue : Option Bptr
  dev : Device
  disk : ℕ → ℕ → Sector
  pc : Pid → Pc
  queued : List Call
  started : List Bptr
  completed : List (Bptr × Content)

abbrev M := EStateM String Ide

namespace Ide

def setBuf (s : Ide) (b : Bptr) (x : Buf) : Ide := { s with buf := update s.buf b x }

def setContent (s : Ide) (b : Bptr) (x : Content) : Ide := s.setBuf b { s.buf b with toContent := x }

def setQnext (s : Ide) (b : Bptr) (q : Option Bptr) : Ide := s.setBuf b { s.buf b with qnext := q }

def setPc (s : Ide) (p : Pid) (c : Pc) : Ide := { s with pc := update s.pc p c }

end Ide

/-- What `idestart` writes to the ports for the buffer. -/
def regsFor (b : Content) : Regs :=
  let sectorPerBlock := bsize / sectorSize
  let sector := b.blockno * sectorPerBlock
  { count := sectorPerBlock
    lba0 := sector &&& 0xff
    lba1 := (sector >>> 8) &&& 0xff
    lba2 := (sector >>> 16) &&& 0xff
    drive := 0xe0 ||| ((b.dev &&& 1) <<< 4) ||| ((sector >>> 24) &&& 0x0f) }

/-- `idestart`; a disk that is busy keeps `idewait` in its loop. -/
def idestart : Option Bptr → M Unit
  | none => throw "idestart"
  | some b => do
    let s ← get
    if fssize ≤ (s.buf b).blockno then throw "incorrect blockno"
    if 7 < bsize / sectorSize then throw "idestart"
    if let .busy .. := s.dev then throw "idewait"
    set { s with
      dev := .busy (regsFor (s.buf b).toContent) (if (s.buf b).dirty then some (s.buf b).data else none)
      started := s.started ++ [b] }

/-- `wakeup(b)`. -/
def wakeup (b : Bptr) (s : Ide) : Ide :=
  { s with
    pc := fun p => match s.pc p with
      | .asleep b' k => if b' = b then .awake b' k else .asleep b' k
      | c => c }

/-- `ideintr`, with what `insl` finds at the data port. -/
def ideintr (port : Sector) : M Unit := do
  let s ← get
  match s.idequeue with
  | none => return ()
  | some b =>
    let x := (s.buf b).toContent
    let y := { x with data := if x.dirty then x.data else port, valid := true, dirty := false }
    set (wakeup b { s.setContent b y with
      idequeue := (s.buf b).qnext
      completed := s.completed ++ [(b, y)] })
    if (s.buf b).qnext ≠ none then idestart (s.buf b).qnext

/-- `iderw` up to `acquire(&idelock)`. -/
def iderwCheck (p : Pid) (b : Bptr) : M Unit := do
  let s ← get
  if s.lock b ≠ some p then throw "iderw: buf not locked"
  if (s.buf b).valid && !(s.buf b).dirty then throw "iderw: nothing to do"
  if (s.buf b).dev ≠ 0 ∧ !s.havedisk1 then throw "iderw: ide disk 1 not present"
  set (s.setPc p (.called b))

/-- The loop of `iderw` that looks for the end of the queue, and the store `*pp = b`. -/
def enqueue (b : Bptr) : M Unit := do
  modify fun s => s.setQnext b none
  let s ← get
  match walk (fun b => (s.buf b).qnext) (nbuf + 1) none s.idequeue with
  | none => throw "loops"
  | some none => set { s with idequeue := some b }
  | some (some c) => set (s.setQnext c (some b))

/-- The test of the loop of `iderw`: return, or sleep. -/
def iderwTest (p : Pid) (b : Bptr) (k : ℕ) : M Unit :=
  modify fun s => s.setPc p (if (s.buf b).valid && !(s.buf b).dirty then .out else .asleep b k)

/-- `iderw` from `acquire(&idelock)` to the first test of the loop. -/
def iderwQueue (p : Pid) (b : Bptr) : M Unit := do
  let s ← get
  set { s with queued := s.queued ++ [{ pid := p, buf := b, arg := (s.buf b).toContent : Call }] }
  enqueue b
  if (← get).idequeue = some b then idestart (some b)
  iderwTest p b s.queued.length

/-! ## The machine -/

/-- A buffer that may be passed to `iderw`. -/
def Content.Request (x : Content) : Prop :=
  x.dev = 1 ∧ x.blockno < fssize ∧ (x.valid && !x.dirty) = false

inductive Act
  | acquiresleep (p : Pid) (b : Bptr)
  | releasesleep (p : Pid) (b : Bptr)
  | store (p : Pid) (b : Bptr) (x : Content)
  | call (p : Pid) (b : Bptr)
  | queue (p : Pid)
  | device
  | intr
  /-- The sleep of the process ends although nobody has woken it up. -/
  | rouse (p : Pid)
  | resume (p : Pid)

/-- The disk carries the command out. -/
def transfer (s : Ide) (r : Regs) : Option Sector → Ide
  | none => { s with dev := .done (s.disk r.disk r.sector) }
  | some d => { s with
      dev := .done d
      disk := update s.disk r.disk (update (s.disk r.disk) r.sector d) }

inductive Step : Ide → Act → Ide → Prop
  | acquiresleep {s p b} (hp : s.pc p = .out) (hb : s.lock b = none) :
      Step s (.acquiresleep p b) { s with lock := update s.lock b (some p) }
  | releasesleep {s p b} (hp : s.pc p = .out) (hb : s.lock b = some p) :
      Step s (.releasesleep p b) { s with lock := update s.lock b none }
  | store {s p b x} (hp : s.pc p = .out) (hb : s.lock b = some p) :
      Step s (.store p b x) (s.setContent b x)
  | call {s t p b} (hp : s.pc p = .out) (hb : s.lock b = some p)
      (hreq : (s.buf b).toContent.Request) (hrun : iderwCheck p b s = .ok () t) :
      Step s (.call p b) t
  | queue {s t p b} (hp : s.pc p = .called b) (hrun : iderwQueue p b s = .ok () t) :
      Step s (.queue p) t
  | device {s r out} (hdev : s.dev = .busy r out) : Step s .device (transfer s r out)
  | intr {s t d} (hdev : s.dev = .done d) (hrun : ideintr d { s with dev := .idle } = .ok () t) :
      Step s .intr t
  | rouse {s p b k} (hp : s.pc p = .asleep b k) : Step s (.rouse p) (s.setPc p (.awake b k))
  | resume {s t p b k} (hp : s.pc p = .awake b k) (hrun : iderwTest p b k s = .ok () t) :
      Step s (.resume p) t

/-- The driver after `ideinit`, with disk 1 present. -/
structure Start (s : Ide) : Prop where
  disk1 : s.havedisk1 = true
  empty : s.idequeue = none
  idle : s.dev = .idle
  out : ∀ p, s.pc p = .out
  queued : s.queued = []
  started : s.started = []
  completed : s.completed = []

/-- The calls executed one after another by `memide.c`. -/
def memRun : List Call → EStateM String (ℕ → Sector) (List Content)
  | [] => return []
  | c :: cs => do
    let r ← memIderw true c.arg
    let rs ← memRun cs
    return r :: rs

end Xv6.Disk

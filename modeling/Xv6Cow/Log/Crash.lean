import Xv6Cow.Lib.Redo
import Xv6Cow.Log.Log

/-!
# The log on disk

The log protocol with the buffer cache (`bio.c`) and the disk under it.  Every write of a block to
disk is one step, and the machine can crash between any two steps: memory is lost, the disk stays,
and the next boot runs `recover_from_log`.  A caller of `log_write` has changed the data of the
buffer it holds; the change is taken together with the section of `log_write`.  The fields after `mode` record a run.
-/

namespace Xv6

open Function Lts

/-- A block, as its 32-bit words. -/
abbrev Block := ℕ → ℕ

/-- `read_head`: the header as it is kept in memory. -/
def readHead (d : Block) : List ℕ := (List.range (d 0)).map fun i => d (i + 1)

/-- `write_head`: the words that hold no entry stay as they were. -/
def writeHead (lh : List ℕ) (d : Block) : Block := fun i =>
  if i = 0 then lh.length else if i ≤ lh.length then lh.getD (i - 1) 0 else d i

/-- The home location of log block `tail`. -/
def logBlock (tail : ℕ) : ℕ := logstart + tail + 1

/-- A block outside the log. -/
def Home (b : ℕ) : Prop := ¬ (logstart ≤ b ∧ b < logstart + nlog)

instance (b : ℕ) : Decidable (Home b) := inferInstanceAs (Decidable (¬ _))

/-- A buffer that has been read (`B_VALID`). -/
structure Buf where
  block : ℕ
  data : Block
  /-- `B_DIRTY`. -/
  dirty : Bool
  refcnt : ℕ

/-- The buffers; `none` has never been used. -/
abbrev Cache := Fin nbuf → Option Buf

namespace Cache

/-- `bread(b)`: the buffer found or recycled.  The order in which unused buffers are tried is left
open. -/
inductive Bread (disk : ℕ → Block) (b : ℕ) : Cache → Fin nbuf → Cache → Prop
  | hit {c : Cache} {i : Fin nbuf} {x : Buf} (hi : c i = some x) (hb : x.block = b) :
      Bread disk b c i (update c i (some { x with refcnt := x.refcnt + 1 }))
  | recycle {c : Cache} {i : Fin nbuf} (hb : ∀ j x, c j = some x → x.block ≠ b)
      (hi : ∀ x, c i = some x → x.refcnt = 0 ∧ x.dirty = false) :
      Bread disk b c i (update c i (some ⟨b, disk b, false, 1⟩))

def brelse (c : Cache) (i : Fin nbuf) : Cache :=
  update c i ((c i).map fun x => { x with refcnt := x.refcnt - 1 })

/-- `bwrite` of new data, as far as the buffer is concerned. -/
def bwrite (c : Cache) (i : Fin nbuf) (d : Block) : Cache :=
  update c i ((c i).map fun x => { x with data := d, dirty := false })

/-- New data that only `log_write` has recorded. -/
def modify (c : Cache) (i : Fin nbuf) (d : Block) : Cache :=
  update c i ((c i).map fun x => { x with data := d, dirty := true })

end Cache

/-! ## The machine -/

/-- Where `commit` or the boot stands. -/
inductive Mode
  | running
  /-- `write_log`, at `tail`. -/
  | writeLog (tail : ℕ)
  /-- `install_trans`, at `tail`; in `commit`, or in `recover_from_log` at boot. -/
  | install (tail : ℕ) (boot : Bool)
  /-- `commit` has returned. -/
  | finish
  /-- `recover_from_log` is before `read_head`. -/
  | boot

/-- The file system is in use. -/
def Mode.up : Mode → Bool
  | .running | .writeLog _ | .install _ false | .finish => true
  | _ => false

/-- A call of `log_write`: by which operation, for which block, with which data. -/
structure Write where
  op : ℕ
  block : ℕ
  data : Block

structure Machine where
  sys : LogSys
  cache : Cache
  disk : ℕ → Block
  mode : Mode
  /-- The calls of `log_write` since the last commit. -/
  cur : List Write
  /-- The calls of `log_write` of each committed transaction. -/
  committed : List (List Write)
  /-- All calls of `log_write`. -/
  issued : List Write
  /-- The operations that have ended since the last commit. -/
  ended : List ℕ
  /-- The operations that had ended when a commit was finished. -/
  acked : List ℕ

namespace Machine

def setLh (s : Machine) (lh : List ℕ) : Machine :=
  { s with sys := { s.sys with log := { s.sys.log with lh } } }

/-- Write block `b` to disk. -/
def setDisk (s : Machine) (b : ℕ) (d : Block) : Machine :=
  { s with disk := update s.disk b d }

/-- Memory after a reset. -/
def reset (s : Machine) : Machine :=
  { s with sys := { LogSys.start with ops := s.sys.ops }
           cache := fun _ => none
           mode := .boot
           cur := []
           ended := [] }

/-- The first boot from the disk `d`. -/
def start (d : ℕ → Block) : Machine where
  sys := .start
  cache := fun _ => none
  disk := d
  mode := .boot
  cur := []
  committed := []
  issued := []
  ended := []
  acked := []

end Machine

/-- The steps of the machine. -/
inductive MachOp
  | beginOp (p : Pid)
  | check (p : Pid) (b : ℕ)
  | bread (b : ℕ)
  | brelse (i : Fin nbuf)
  | append (p : Pid) (b : ℕ) (d : Block)
  | endOp (p : Pid)
  | writeLog
  | writeHead
  | install
  | clear
  | finish
  | crash
  | readHead

inductive MachStep : Machine → MachOp → Machine → Prop
  | beginOp {s p t} (hup : s.mode.up = true) (h : s.sys.step (.beginOp p) = some t) :
      MachStep s (.beginOp p) { s with sys := t }
  | check {s p b t} (hup : s.mode.up = true) (h : s.sys.step (.check p b) = some t) :
      MachStep s (.check p b) { s with sys := t }
  /-- Any process reads a block, inside or outside an operation. -/
  | bread {s b i c} (hup : s.mode.up = true) (h : Cache.Bread s.disk b s.cache i c) :
      MachStep s (.bread b) { s with cache := c }
  | brelse {s i} (hup : s.mode.up = true) :
      MachStep s (.brelse i) { s with cache := s.cache.brelse i }
  /-- The section of `log_write`, by the holder of the buffer. -/
  | append {s p b d t o i x} (hup : s.mode.up = true) (hpc : s.sys.pc p = .checked o b)
      (h : s.sys.step (.append p b) = some t) (hb : Home b) (hi : s.cache i = some x)
      (hx : x.block = b) (hr : 0 < x.refcnt) :
      MachStep s (.append p b d) { s with
        sys := t
        cache := s.cache.modify i d
        cur := s.cur ++ [⟨o, b, d⟩]
        issued := s.issued ++ [⟨o, b, d⟩] }
  /-- `end_op`; the last operation goes on to `commit`, which does nothing if the log is empty. -/
  | endOp {s p t o} (hup : s.mode.up = true) (hpc : s.sys.pc p = .op o)
      (h : s.sys.step (.endOp p) = some t) :
      MachStep s (.endOp p) { s with
        sys := t
        mode := if t.log.committing then (if t.log.lh = [] then .finish else .writeLog 0)
          else s.mode
        ended := s.ended ++ [o] }
  /-- One block of `write_log`. -/
  | writeLog {s tail b i j c c' y} (hm : s.mode = .writeLog tail) (ht : s.sys.log.lh[tail]? = some b)
      (hto : Cache.Bread s.disk (logBlock tail) s.cache i c) (hfrom : Cache.Bread s.disk b c j c')
      (hy : c' j = some y) :
      MachStep s .writeLog { s.setDisk (logBlock tail) y.data with
        cache := ((c'.bwrite i y.data).brelse j).brelse i
        mode := .writeLog (tail + 1) }
  /-- `write_head` with the blocks of the transaction: the commit point. -/
  | writeHead {s i c x} (hm : s.mode = .writeLog s.sys.log.lh.length)
      (hbuf : Cache.Bread s.disk logstart s.cache i c) (hx : c i = some x) :
      MachStep s .writeHead { s.setDisk logstart (Xv6.writeHead s.sys.log.lh x.data) with
        cache := (c.bwrite i (Xv6.writeHead s.sys.log.lh x.data)).brelse i
        mode := .install 0 false
        committed := s.committed ++ [s.cur]
        cur := [] }
  /-- One block of `install_trans`. -/
  | install {s tail boot b i j c c' x} (hm : s.mode = .install tail boot)
      (ht : s.sys.log.lh[tail]? = some b) (hl : Cache.Bread s.disk (logBlock tail) s.cache i c)
      (hd : Cache.Bread s.disk b c j c') (hx : c' i = some x) :
      MachStep s .install { s.setDisk b x.data with
        cache := ((c'.bwrite j x.data).brelse i).brelse j
        mode := .install (tail + 1) boot }
  /-- `log.lh.n = 0` and `write_head`. -/
  | clear {s boot i c x} (hm : s.mode = .install s.sys.log.lh.length boot)
      (hbuf : Cache.Bread s.disk logstart s.cache i c) (hx : c i = some x) :
      MachStep s .clear { (s.setLh []).setDisk logstart (Xv6.writeHead [] x.data) with
        cache := (c.bwrite i (Xv6.writeHead [] x.data)).brelse i
        mode := if boot then .running else .finish }
  /-- The second section of `end_op`. -/
  | finish {s t} (hm : s.mode = .finish) (h : s.sys.step .finish = some t) :
      MachStep s .finish { s with
        sys := t
        mode := .running
        acked := s.acked ++ s.ended
        ended := [] }
  | crash {s} : MachStep s .crash s.reset
  | readHead {s i c x} (hm : s.mode = .boot) (hbuf : Cache.Bread s.disk logstart s.cache i c)
      (hx : c i = some x) :
      MachStep s .readHead { s.setLh (Xv6.readHead x.data) with
        cache := c.brelse i
        mode := .install 0 true }

/-- The contents after some calls of `log_write`. -/
def applyWrites (m : ℕ → Block) (ws : List Write) : ℕ → Block :=
  Redo.applyAll m (ws.map fun w => (w.block, w.data))

/-- The calls of `log_write` by operation `o`. -/
def opWrites (o : ℕ) (ws : List Write) : List Write := ws.filter (·.op = o)

/-- All that operation `o` has written is in one committed transaction. -/
def Machine.Present (s : Machine) (o : ℕ) : Prop :=
  opWrites o s.issued = [] ∨ ∃ ws ∈ s.committed, opWrites o ws = opWrites o s.issued

/-- Nothing that operation `o` has written is in a committed transaction. -/
def Machine.Absent (s : Machine) (o : ℕ) : Prop := ∀ ws ∈ s.committed, opWrites o ws = []

/-- The home blocks hold the committed transactions, each operation is wholly present or wholly
absent, and what a commit had finished is present. -/
structure Atomic (base : ℕ → Block) (s : Machine) : Prop where
  home : ∀ b, Home b → s.disk b = applyWrites base s.committed.flatten b
  whole : ∀ o, s.Present o ∨ s.Absent o
  acked : ∀ o ∈ s.acked, s.Present o

end Xv6

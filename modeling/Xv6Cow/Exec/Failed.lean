import Xv6Cow.Exec.Kernel
import Xv6Cow.Fs.Ownership
import Xv6Cow.Proc.Kill

/-!
# A failed `exec`

Up to the commit `exec` writes nothing of its process but the numbers the scheduler goes by, and these it
writes before it looks at anything and never restores.  The reference to the inode, its lock and the
transaction are given back on every way to `-1`.
-/

namespace Xv6.Kernel

open Prog
open Blocks (Iptr Fs FsM Ctx Now Ledger)
open Ptable (Table)

variable {α : Type} {p : Pid} {k t : Kern} {ip : Iptr} {ty : Int16} {d : ℕ}

/-- A panic says nothing here. -/
def Any (_ : Stop) (_ : Kern) : Prop := True

variable {Q : α → Kern → Prop}

theorem wp_onFs {x : FsM α}
    (h : wp x (fun a s => Q a { k with fs := s }) (Blocks.Stops False) k.fs) : wp (onFs x) Q Any k := by
  rw [onFs, wp_zoom]
  exact wp_lax h (fun _ _ => id)

theorem wp_any {x : KernM α} (h : ∀ a u, Q a u) : wp x Q Any k := by
  unfold wp
  cases x k with
  | ok a u => exact h a u
  | error e u => trivial

theorem wp_onVm_of {x : M α} (h : ∀ a v, Q a { k with vm := v }) : wp (onVm x) Q Any k := by
  rw [onVm, wp_zoom]
  unfold wp
  cases x k.vm with
  | ok a v => exact h a v
  | error e v => trivial

theorem wp_loader_onVm {x : M α} (h : ∀ a v, Q a { k with vm := v }) :
    wp ((loader ip).onVm x) Q Any k := wp_onVm_of h

/-! ## While the file is open -/

/-- Apart from the numbers of the scheduler the process is as it was. -/
structure Kept (p : Pid) (k t : Kern) : Prop where
  table : t.table = resetSched p k.table
  task : t.task = k.task
  cr3 : t.cr3 = k.cr3

/-- `exec` has the inode in hand, locked, and is in a transaction. -/
structure Loading (p : Pid) (k : Kern) (ip : Iptr) (ty : Int16) (t : Kern) :
    Prop extends Kept p k t where
  fs : Now False k.fs.sb ((Ctx.idle k.fs).hand 1 (ip ::ₘ 0) [(ip, ty)]) t.fs

/-- `exec` has nothing in hand. -/
structure Returned (p : Pid) (k t : Kern) : Prop extends Kept p k t where
  fs : Now False k.fs.sb ((Ctx.idle k.fs).hand 0 0 []) t.fs

theorem Loading.vm (h : Loading p k ip ty t) (v : Vm) : Loading p k ip ty { t with vm := v } :=
  ⟨⟨h.table, h.task, h.cr3⟩, h.fs⟩

theorem Loading.readi (h : Loading p k ip ty t) (off n : ℕ) :
    wp (onFs (Blocks.readi ip off n)) (fun _ u => Loading p k ip ty u) Any t := by
  apply wp_onFs
  refine wp_imp (Blocks.readi_at h.fs Blocks.stable_any List.mem_cons_self off n) ?_
  rintro _ s ⟨hs, -⟩
  exact ⟨⟨h.table, h.task, h.cr3⟩, hs⟩

theorem Loading.readAll (h : Loading p k ip ty t) (off n : ℕ) :
    wp ((loader ip).readAll off n) (fun _ u => Loading p k ip ty u) Any t := by
  rw [Loader.readAll, wp_bind]
  refine wp_imp (h.readi off n) ?_
  rintro (_ | bs) u hu
  · exact hu
  · rw [wp_ite]
    split_ifs <;> exact hu

theorem Loading.loaduvmLoop {addr offset sz i : ℕ} {t : Kern} (h : Loading p k ip ty t) :
    wp ((loader ip).loaduvmLoop d addr offset sz i) (fun _ u => Loading p k ip ty u) Any t := by
  rw [Loader.loaduvmLoop, wp_ite]
  by_cases hi : i < sz
  · rw [if_pos hi, wp_bind]
    generalize (if sz - i < pgsize then sz - i else pgsize) = n
    refine wp_loader_onVm fun found v => ?_
    rw [wp_ite]
    split
    · rw [wp_bind]
      refine wp_loader_onVm fun s v' => ?_
      rw [wp_bind]
      refine wp_imp ((h.vm v').readi _ _) ?_
      rintro (_ | bs) u hu
      · exact hu
      rw [wp_bind]
      refine wp_loader_onVm fun _ w => ?_
      rw [wp_ite]
      split
      · exact hu.vm w
      · exact (hu.vm w).loaduvmLoop
    · exact wp_loader_onVm fun _ w => h.vm w
  · rw [if_neg hi]
    exact h
termination_by sz - i
decreasing_by
  simp only [pgsize] at *
  omega

theorem Loading.loaduvm {addr offset sz : ℕ} (h : Loading p k ip ty t) :
    wp ((loader ip).loaduvm d addr offset sz) (fun _ u => Loading p k ip ty u) Any t := by
  rw [Loader.loaduvm, wp_ite]
  split_ifs
  · exact wp_loader_onVm fun _ w => h.vm w
  · exact h.loaduvmLoop

theorem Loading.close (h : Loading p k ip ty t) {Q : Unit → Kern → Prop}
    (hQ : ∀ u, Returned p k u → Q () u) :
    wp (onFs (Blocks.iunlockput ip)) (fun _ u => wp (onFs Blocks.endOp) Q Any u) Any t := by
  apply wp_onFs
  refine wp_imp (Blocks.putEnd_at h.fs Blocks.stable_any Blocks.puts_any) fun _ s hs => ?_
  apply wp_onFs
  exact wp_imp hs fun _ s' hs' => hQ _ ⟨⟨h.table, h.task, h.cr3⟩, hs'⟩

theorem Returned.vm (h : Returned p k t) (v : Vm) : Returned p k { t with vm := v } :=
  ⟨⟨h.table, h.task, h.cr3⟩, h.fs⟩

section Link

variable [Link]

theorem Loading.loadSegments {n : ℕ} : ∀ {t : Kern} {off sz : ℕ}, Loading p k ip ty t →
    wp ((loader ip).loadSegments d n off sz) (fun _ u => Loading p k ip ty u) Any t := by
  induction n with
  | zero => exact fun h => h
  | succ n ih =>
    intro t off sz h
    rw [Loader.loadSegments, wp_bind]
    refine wp_imp (h.readAll off _) ?_
    rintro (_ | bs) u hu
    · exact hu
    simp only [wp_ite, wp_pure]
    split
    · exact ih hu
    split
    · exact hu
    split
    · exact hu
    rw [wp_bind]
    refine wp_loader_onVm fun sz' v => ?_
    have hv := hu.vm v
    simp only [wp_ite, wp_pure, wp_bind]
    split
    · exact hv
    split
    · exact hv
    refine wp_imp hv.loaduvm ?_
    rintro (_ | _) w hw
    · exact hw
    · exact ih hw

/-! ## Ways to `-1` -/

theorem Loading.bad (h : Loading p k ip ty t) (pgdir : Option ℕ) :
    wp (bad pgdir (some ip)) (fun _ u => Returned p k u) Any t := by
  rcases pgdir with _ | d
  · simp only [Kernel.bad, wp_run]
    exact h.close fun _ hu => hu
  simp only [Kernel.bad, wp_run]
  exact wp_onVm_of fun _ v => (h.vm v).close fun _ hu => hu

theorem Returned.bad (h : Returned p k t) (d : ℕ) :
    wp (bad (some d) none) (fun _ u => Returned p k u) Any t := by
  simp only [Kernel.bad, wp_run]
  exact wp_onVm_of fun _ v => h.vm v

theorem commit_returns (path : List Char) (d sz eip esp : ℕ) :
    wp (commit p path d sz eip esp) (fun r _ => r = 0) Any t := by
  simp only [commit, wp_run]
  refine wp_any fun _ u => ?_
  rcases (t.table p).pgdir with _ | old
  · trivial
  rw [wp_bind]
  exact wp_onVm_of fun _ _ => rfl

theorem Returned.finishImage (h : Returned p k t) (path : List Char) (d sz eip : ℕ)
    (argv : List (List UInt8)) :
    wp (finishImage p path d sz eip argv) (fun r u => r = -1 → Returned p k u) Any t := by
  rw [Kernel.finishImage, wp_bind]
  refine wp_onVm_of fun r v => ?_
  rcases r with _ | x
  · exact wp_imp ((h.vm v).bad d) fun _ _ hu _ => hu
  refine wp_imp (commit_returns path d x.1 eip x.2) fun r u hr hneg => ?_
  rw [hr] at hneg
  cases hneg

theorem exec_fails (hidle : Now False k.fs.sb (Ctx.idle k.fs) k.fs) (hlive : k.fs.live p = true)
    (path : List Char) (argv : List (List UInt8)) :
    wp (exec p path argv) (fun r u => r = -1 → Returned p k u) Any k := by
  rw [exec, wp_bind]
  apply wp_onFs
  refine wp_imp (Blocks.begin_at hidle Blocks.stable_any) fun _ s hs => ?_
  rw [wp_bind, wp_modify, wp_bind]
  apply wp_onFs
  refine wp_imp (Blocks.name_at hs Blocks.stable_any Blocks.puts_any hlive path) ?_
  rintro (_ | ip) s hs
  · simp only [wp_run]
    apply wp_onFs
    exact wp_imp (Blocks.end_at hs Blocks.stable_any) fun _ s' hs' _ => ⟨⟨rfl, rfl, rfl⟩, hs'⟩
  rw [wp_bind]
  apply wp_onFs
  refine wp_imp (Blocks.lock_at hs Blocks.stable_any ip) ?_
  rintro _ s' ⟨ty, hs', -⟩
  have hload : Loading p k ip ty { k with table := resetSched p k.table, fs := s' } :=
    ⟨⟨rfl, rfl, rfl⟩, hs'⟩
  have hbad : ∀ {u : Kern} (pgdir : Option ℕ), Loading p k ip ty u →
      wp (bad pgdir (some ip)) (fun r w => r = -1 → Returned p k w) Any u :=
    fun pgdir hu => wp_imp (hu.bad pgdir) fun _ _ hw _ => hw
  rw [execFile, wp_bind]
  refine wp_imp (hload.readAll 0 _) ?_
  rintro (_ | bs) u hu
  · exact hbad none hu
  rw [wp_ite]
  split
  · exact hbad none hu
  rw [wp_bind]
  refine wp_onVm_of ?_
  rintro (_ | d) v
  · exact hbad none (hu.vm v)
  rw [wp_bind]
  refine wp_imp (hu.vm v).loadSegments ?_
  rintro (_ | sz) w hw
  · exact hbad (some d) hw
  rw [wp_bind]
  refine wp_imp (hw.close (Q := fun _ => Returned p k) fun _ hx => hx) fun _ x hx => ?_
  rw [wp_bind]
  refine wp_imp hx fun _ y hy => ?_
  exact hy.finishImage path d sz (elfEntry bs) argv

end Link

/-! ## The numbers of the scheduler -/

/-- No other slot has the number of the process. -/
def OwnPid (t : Table) (p : Pid) : Prop := ∀ q, (t q).pid = (t p).pid → q = p

theorem OwnPid.findAndSet {t : Table} (h : OwnPid t p) {f : Ptable.Proc → Ptable.Proc} :
    t.findAndSet (t p).pid f = t.set p (f (t p)) := by
  have hfind : t.findPid (t p).pid = some p := by
    rcases hfind : t.findPid (t p).pid with _ | q
    · exact absurd rfl (Table.findPid_none hfind p)
    have hq := Table.findPid_some hfind
    rw [h q (by omega)]
  rw [Table.findAndSet, hfind]

theorem OwnPid.set {t : Table} (h : OwnPid t p) {x : Ptable.Proc} (hx : x.pid = (t p).pid) :
    OwnPid (t.set p x) p := by
  intro q hq
  by_contra hne
  rw [Table.set_apply, if_neg hne, Table.set_apply, if_pos rfl, hx] at hq
  exact hne (h q hq)

theorem OwnPid.resetSched {t : Table} (h : OwnPid t p) : Kernel.resetSched p t p =
    { t p with schedQueue := Ptable.qLottery, lotteryTicket := 500, burstTime := 0 } := by
  have hself : ∀ (u : Table) x, u.set p x p = x := fun u x => by rw [Table.set_apply, if_pos rfl]
  have hqueue := h.findAndSet (f := fun x => { x with schedQueue := Ptable.qLottery })
  generalize hu : t.set p { t p with schedQueue := Ptable.qLottery } = u at hqueue
  have hup : u p = { t p with schedQueue := Ptable.qLottery } := by rw [← hu, hself]
  have hown : OwnPid u p := hu ▸ h.set rfl
  have hpid : (u p).pid = (t p).pid := by rw [hup]
  have hticket := hown.findAndSet (f := fun x => { x with lotteryTicket := 500 })
  generalize hw : u.set p { u p with lotteryTicket := 500 } = w at hticket
  have hwp : w p = { u p with lotteryTicket := 500 } := by rw [← hw, hself]
  have hown' : OwnPid w p := hw ▸ hown.set rfl
  have hpid' : (w p).pid = (t p).pid := by rw [hwp, hpid]
  rw [hpid] at hticket
  have hburst := hown'.findAndSet (f := fun x => { x with burstTime := 0 })
  rw [hpid'] at hburst
  unfold Kernel.resetSched Table.findAndSetBurstTime Table.findAndSetLotteryTicket
    Table.findAndSetSchedQueue
  rw [hqueue, hticket, hburst, hself, hwp, hup]

/-- Queue, tickets, burst time and priority. -/
def schedOf (x : Ptable.Proc) : BitVec 32 × BitVec 32 × BitVec 32 × BitVec 32 :=
  (x.schedQueue, x.lotteryTicket, x.burstTime, x.priority)

/-- Has the process the numbers that `exec` gives to it? -/
def Fresh (x : Ptable.Proc) : Prop := x.schedQueue = Ptable.qLottery ∧ x.lotteryTicket = 500 ∧
    x.burstTime = 0

instance (x : Ptable.Proc) : Decidable (Fresh x) := inferInstanceAs (Decidable (_ ∧ _))

theorem OwnPid.schedOf_resetSched {t : Table} (h : OwnPid t p) :
    schedOf (Kernel.resetSched p t p) = schedOf (t p) ↔ Fresh (t p) := by
  rw [h.resetSched]
  simp only [schedOf, Fresh, Prod.mk.injEq, and_true]
  constructor
  · rintro ⟨hq, ht, hb⟩
    exact ⟨hq.symm, ht.symm, hb.symm⟩
  · rintro ⟨hq, ht, hb⟩
    exact ⟨hq.symm, ht.symm, hb.symm⟩

/-! ## What a failed call leaves -/

/-- The caller is as it was, and no reference, lock or transaction is left. -/
structure AsBefore (p : Pid) (k t : Kern) : Prop where
  pgdir : (t.table p).pgdir = (k.table p).pgdir
  task : t.task p = k.task p
  ofile : t.fs.ofile p = k.fs.ofile p
  sched : schedOf (t.table p) = schedOf (k.table p)
  refs : ∀ ip, (t.fs.icache ip).ref = t.fs.openings ip + t.fs.visitors ip
  locks : ∀ ip, (t.fs.icache ip).locked = false
  outstanding : t.fs.outstanding = 0

/-- Whatever the path, the arguments, the disk, the calls made before and the state of memory are: a
failed `exec` leaves its process as it was exactly if this was in the lottery queue, with 500 tickets and
burst time 0. -/
theorem failed_exec_iff [Link] {blk : ℕ → ℕ → UInt8} {cs : List Blocks.Call}
    (run : Lts.Run (Lts.ofFun Fs.step) (Blocks.boot blk) cs k.fs) (hlive : k.fs.live p = true)
    (hown : OwnPid k.table p) {path : List Char} {argv : List (List UInt8)}
    (hfail : exec p path argv k = .ok (-1) t) : AsBefore p k t ↔ Fresh (k.table p) := by
  have hidle : Now False k.fs.sb (Ctx.idle k.fs) k.fs := ⟨Blocks.run_counts run, False.elim⟩
  obtain ⟨⟨htable, htask, -⟩, hfs⟩ := wp_ok (exec_fails hidle hlive path argv) hfail rfl
  have hledger : Ledger (Ctx.idle t.fs) t.fs.led := (Blocks.At.idle hfs).ledger
  constructor
  · intro h
    have := h.sched
    rw [htable] at this
    exact hown.schedOf_resetSched.1 this
  intro hfresh
  refine ⟨?_, by rw [htask], congrFun hfs.ledger.procs.2.2 p, ?_, fun ip => ?_, fun ip => ?_, hledger.out⟩
  · rw [htable, hown.resetSched]
  · rw [htable]
    exact hown.schedOf_resetSched.2 hfresh
  · have href : (t.fs.icache ip).ref = Refs.holders (t.fs.led.holds none) ip + 0 := hledger.refs ip
    rw [href, Refs.holders_sum, Blocks.holders_files hledger, Blocks.holders_procs]
    rfl
  · by_contra hlocked
    obtain ⟨ty, hmem⟩ := hledger.held ip (Bool.not_eq_false _ ▸ hlocked)
    cases hmem

/-- The kernel with an empty root directory. -/
def emptyRoot (t : Table) : Kern :=
  { table := t
    task := fun _ => ⟨pgsize, 0, pgsize, ['i', 'n', 'i', 't']⟩
    fs := Blocks.boot Blocks.rootDisk
    vm := Vm.start
    cr3 := some 1 }

/-- The process table after boot. -/
abbrev bootTable : Table := (Ptable.boot Unit).table

/-- The first process calls `exec("x")`, and there is no such file. -/
def noFile (t : Table) : Option Kern :=
  match exec 0 ['x'] [] (emptyRoot t) with
  | .ok (-1) u => some u
  | _ => none

theorem noFile_eq_some {t : Table} {u : Kern} (h : noFile t = some u) :
    exec 0 ['x'] [] (emptyRoot t) = .ok (-1) u := by
  unfold noFile at h
  split at h
  · next w hw => rw [hw, Option.some.inj h]
  · cases h

theorem bootTable_ownPid (t : Table) (ht : ∀ q, (t q).pid = (bootTable q).pid) : OwnPid t 0 := by
  have hboot : ∀ q : Pid, (bootTable q).pid = 1 → q = 0 := by decide +kernel
  intro q hq
  rw [ht, ht] at hq
  exact hboot q hq

/-- The second call of a process that has failed once leaves it as it was. -/
theorem failed_exec_iff_twice : ∃ t, exec 0 ['x'] [] (emptyRoot (resetSched 0 bootTable)) = .ok (-1) t ∧
    AsBefore 0 (emptyRoot (resetSched 0 bootTable)) t := by
  have hfails : (noFile (resetSched 0 bootTable)).isSome = true := by decide +kernel
  obtain ⟨t, ht⟩ := Option.isSome_iff_exists.1 hfails
  have hpid : ∀ q, (resetSched 0 bootTable q).pid = (bootTable q).pid := by decide +kernel
  refine ⟨t, noFile_eq_some ht, (failed_exec_iff (.nil _) (by decide +kernel)
    (bootTable_ownPid _ hpid) (noFile_eq_some ht)).2 (by decide +kernel)⟩

/-- The first process has 50 tickets, and 500 after a failed `exec`. -/
theorem failed_exec_resets : ∃ t, exec 0 ['x'] [] (emptyRoot bootTable) = .ok (-1) t ∧
    (bootTable 0).lotteryTicket = 50 ∧ (t.table 0).lotteryTicket = 500 := by
  have hfails : ((noFile bootTable).map fun t => (t.table 0).lotteryTicket) = some 500 :=
    by decide +kernel
  obtain ⟨t, ht, hticket⟩ := Option.map_eq_some_iff.1 hfails
  exact ⟨t, noFile_eq_some ht, by decide +kernel, hticket⟩

end Xv6.Kernel

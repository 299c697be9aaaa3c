import Mathlib

/-!
# The multiprocessor table (`mp.c`)

`tab i` is byte `i` of the configuration table that `mpsearch` has found, and of the memory behind it.
The entry loop of `mpinit` is cut after `fuel` rounds, with `none` as its result.
-/

namespace Xv6.Mp

/-- `NCPU`. -/
def ncpuMax : ℕ := 8

/-- `sizeof(struct mpconf)`, where the first entry is. -/
def headerSize : ℕ := 44

/-- `conf->length`. -/
def length (tab : ℕ → UInt8) : ℕ := (tab 4).toNat + 256 * (tab 5).toNat

def sum (tab : ℕ → UInt8) (len : ℕ) : ℕ := ((List.range len).map fun i => (tab i).toNat).sum % 256

/-- The tests of `mpconfig`. -/
def mpconfig (tab : ℕ → UInt8) : Bool :=
  [tab 0, tab 1, tab 2, tab 3] = [0x50, 0x43, 0x4D, 0x50] && (tab 6 = 1 || tab 6 = 4) &&
    sum tab (length tab) = 0

/-- What the loop records: the `apicid` of each processor, `ioapicid` and `ismp`. -/
structure Machine where
  cpus : List UInt8
  ioapicid : UInt8
  ismp : Bool

/-- One round of the loop: the `switch`. -/
def entry (tab : ℕ → UInt8) (p : ℕ) (m : Machine) : ℕ × Machine :=
  if tab p = 0 then
    (p + 20, if m.cpus.length < ncpuMax then { m with cpus := m.cpus ++ [tab (p + 1)] } else m)
  else if tab p = 2 then (p + 8, { m with ioapicid := tab (p + 1) })
  else if tab p = 1 ∨ tab p = 3 ∨ tab p = 4 then (p + 8, m)
  else (p, { m with ismp := false })

def scan (tab : ℕ → UInt8) : ℕ → ℕ → Machine → Option Machine
  | 0, _, _ => none
  | fuel + 1, p, m =>
    if p < length tab then scan tab fuel (entry tab p m).1 (entry tab p m).2 else some m

def mpinit (tab : ℕ → UInt8) (fuel : ℕ) : Option (Except String Machine) :=
  if mpconfig tab then
    (scan tab fuel headerSize ⟨[], 0, true⟩).map fun m =>
      if m.ismp then .ok m else .error "Didn't find a suitable machine"
  else
    some (.error "Expect to run on an SMP")

/-- `mpinit` comes to its end, with at most `NCPU` processors or the report that there is no suitable
machine. -/
def Ends (tab : ℕ → UInt8) : Prop :=
  ∃ fuel r, mpinit tab fuel = some r ∧
    ((∃ m, r = .ok m ∧ m.cpus.length ≤ ncpuMax) ∨ r = .error "Didn't find a suitable machine")

/-- The types that the `switch` has a case for. -/
def Known (t : UInt8) : Prop := t = 0 ∨ t = 1 ∨ t = 2 ∨ t = 3 ∨ t = 4

instance : DecidablePred Known := fun _ => inferInstanceAs (Decidable (_ ∨ _))

/-- Where the entries of the table begin, each behind the one before. -/
inductive EntryAt (tab : ℕ → UInt8) : ℕ → Prop
  | first : EntryAt tab headerSize
  | next {p : ℕ} : EntryAt tab p → p < length tab → Known (tab p) →
      EntryAt tab (p + if tab p = 0 then 20 else 8)

section

variable {tab : ℕ → UInt8} {p : ℕ} {m : Machine}

theorem EntryAt.le (h : EntryAt tab p) : headerSize ≤ p := by
  induction h with
  | first => exact le_rfl
  | next _ _ _ ih => exact ih.trans (Nat.le_add_right _ _)

theorem entry_known (h : Known (tab p)) :
    (entry tab p m).1 = p + (if tab p = 0 then 20 else 8) ∧ (entry tab p m).2.ismp = m.ismp ∧
      (m.cpus.length ≤ ncpuMax → (entry tab p m).2.cpus.length ≤ ncpuMax) := by
  rcases h with h | h | h | h | h
  · simp only [entry, h, if_true]
    split_ifs with hlt
    · exact ⟨trivial, rfl, fun _ => by simpa using hlt⟩
    · exact ⟨trivial, rfl, id⟩
  all_goals simp [entry, h]

theorem entry_unknown (h : ¬ Known (tab p)) : (entry tab p m).1 = p := by
  simp only [Known, not_or] at h
  simp [entry, h]

/-- The loop never leaves an entry of another type. -/
theorem scan_unknown (hp : p < length tab) (h : ¬ Known (tab p)) (fuel : ℕ) (m : Machine) :
    scan tab fuel p m = none := by
  induction fuel generalizing m with
  | zero => rfl
  | succ fuel ih => rw [scan, if_pos hp, entry_unknown h, ih]

theorem scan_entryAt {fuel : ℕ} {m' : Machine} (h : scan tab fuel headerSize m = some m')
    (hp : EntryAt tab p) : ∃ fuel m, scan tab fuel p m = some m' := by
  induction hp with
  | first => exact ⟨fuel, m, h⟩
  | next _ hlt hknown ih =>
    obtain ⟨fuel, m, hscan⟩ := ih
    cases fuel with
    | zero => cases hscan
    | succ fuel =>
      rw [scan, if_pos hlt, (entry_known hknown).1] at hscan
      exact ⟨fuel, _, hscan⟩

theorem scan_ends (h : ∀ p, EntryAt tab p → p < length tab → Known (tab p)) (hp : EntryAt tab p)
    (hm : m.cpus.length ≤ ncpuMax) {fuel : ℕ} (hfuel : length tab - p < fuel) :
    ∃ m', scan tab fuel p m = some m' ∧ m'.ismp = m.ismp ∧ m'.cpus.length ≤ ncpuMax := by
  induction fuel generalizing p m with
  | zero => omega
  | succ fuel ih =>
    rw [scan]
    split_ifs with hlt
    · obtain ⟨hnext, hismp, hcpus⟩ := entry_known (m := m) (h p hp hlt)
      rw [hnext, ← hismp]
      refine ih (hp.next hlt (h p hp hlt)) (hcpus hm) ?_
      split_ifs
      · omega
      · omega
    · exact ⟨m, rfl, rfl, hm⟩

theorem not_ends (hp : EntryAt tab p) (hlt : p < length tab) (h : ¬ Known (tab p))
    (hconf : mpconfig tab = true) : ¬ Ends tab := by
  rintro ⟨fuel, r, hr, -⟩
  rw [mpinit, if_pos hconf] at hr
  obtain ⟨m', hscan, -⟩ := Option.map_eq_some_iff.1 hr
  obtain ⟨fuel', m, hstuck⟩ := scan_entryAt hscan hp
  rw [scan_unknown hlt h] at hstuck
  cases hstuck

/-- The scan ends exactly if every entry it meets has one of the five types: `default` leaves the
`switch` and not the loop. -/
theorem mpinit_ends_iff (hconf : mpconfig tab = true) :
    Ends tab ↔ ∀ p, EntryAt tab p → p < length tab → Known (tab p) := by
  constructor
  · intro hends p hp hlt
    by_contra hknown
    exact not_ends hp hlt hknown hconf hends
  intro h
  obtain ⟨m, hscan, hismp, hcpus⟩ :=
    scan_ends (m := ⟨[], 0, true⟩) h .first (Nat.zero_le _) (Nat.lt_succ_self _)
  refine ⟨length tab - headerSize + 1, .ok m, ?_, .inl ⟨m, rfl, hcpus⟩⟩
  rw [mpinit, if_pos hconf, hscan, Option.map_some, if_pos hismp]

end

/-- A table of `len` bytes, with checksum `chk`, whose first entry has type `t`. -/
def table (len chk t : UInt8) (i : ℕ) : UInt8 :=
  ([0x50, 0x43, 0x4D, 0x50, len, 0, 1, chk] ++ List.replicate 36 0 ++ [t]).getD i 0

theorem mpinit_ends_oneCpu : mpconfig (table 64 143 0) = true ∧ Ends (table 64 143 0) := by
  refine ⟨by decide, (mpinit_ends_iff (by decide)).2 fun p hp hlt => ?_⟩
  have hall : ∀ p < 64, headerSize ≤ p → Known (table 64 143 0 p) := by decide
  exact hall p hlt hp.le

/-- An entry of type 5. -/
theorem mpinit_loops : mpconfig (table 45 157 5) = true ∧ ¬ Ends (table 45 157 5) :=
  ⟨by decide, not_ends .first (by decide) (by decide) (by decide)⟩

end Xv6.Mp

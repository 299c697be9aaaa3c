import Xv6Cow.Lib.Ring

/-!
# Console input (`console.c`)

Keys and reads come in any order; all of them run under `cons.lock`.  `cmd_count` does not overflow
here.  `history.size[-1]` is `history.cursor`, the field in front of the array.

The last three fields of `Cons` record a run.
-/

namespace Xv6.Console

open Function Ring

abbrev inputBuf : ℕ := 128

structure Cons where
  buf : Fin inputBuf → UInt8
  r : BitVec 32
  w : BitVec 32
  e : BitVec 32
  /-- The row of `temp_buf` that `PervCmd[i]` points to. -/
  pervCmd : ℕ → ℕ
  size : ℕ → ℕ
  cmdCount : ℕ
  cursor : ℤ
  /-- The rows of `temp_buf`, without the zeros at their ends. -/
  tempBuf : ℕ → List UInt8
  lines : List (List UInt8)
  committed : List UInt8
  taken : List UInt8

def Cons.init : Cons where
  buf _ := 0
  r := 0
  w := 0
  e := 0
  pervCmd _ := 0
  size _ := 0
  cmdCount := 0
  cursor := 0
  tempBuf _ := []
  lines := []
  committed := []
  taken := []

def keyUp : UInt8 := 0xE2

def keyDn : UInt8 := 0xE3

namespace Cons

/-- The bytes from `input.w` to `input.e`. -/
def line (s : Cons) : List UInt8 := window s.buf s.w (Ring.size s.w s.e)

/-- The bytes from `input.r` to `input.w`. -/
def pending (s : Cons) : List UInt8 := window s.buf s.r (Ring.size s.r s.w)

/-- `input.buf[input.e++ % INPUT_BUF] = c`. -/
def put (s : Cons) (c : UInt8) : Cons := { s with buf := update s.buf (cell s.e) c, e := s.e + 1#32 }

def killLoop : ℕ → Cons → Cons
  | 0, s => s
  | n + 1, s =>
    if s.e ≠ s.w ∧ s.buf (cell (s.e - 1#32)) ≠ 10 then killLoop n { s with e := s.e - 1#32 } else s

def killLine (s : Cons) : Cons := killLoop (Ring.size s.w s.e) s

/-- The loop of `InsertNewCmd`, from `i` to `stop`. -/
def copyLine (buf : Fin inputBuf → UInt8) (stop : Fin inputBuf) : ℕ → Fin inputBuf → List UInt8
  | 0, _ => []
  | n + 1, i => if i = stop then [] else buf i :: copyLine buf stop n (i + 1)

/-- `x` at index 0, and the others one further. -/
def shift (f : ℕ → ℕ) (x : ℕ) : ℕ → ℕ
  | 0 => x
  | i + 1 => f i

def insertNewCmd (s : Cons) : Cons :=
  let row := copyLine s.buf (cell (s.e - 1#32)) inputBuf (cell s.w)
  { s with tempBuf := update s.tempBuf (s.cmdCount % 5) row
           pervCmd := shift s.pervCmd (s.cmdCount % 5)
           size := shift s.size row.length }

/-- The rounds of the loop in `fillBuf`: none with the cursor at -1, since `size[-1]` is -1 then. -/
def fillSize (s : Cons) : ℕ := if s.cursor < 0 then 0 else s.size s.cursor.toNat

def fillBuf (s : Cons) : Cons :=
  ((List.range s.fillSize).map fun i => (s.tempBuf (s.pervCmd s.cursor.toNat)).getD i 0).foldl put
    s.killLine

def incCursor (s : Cons) : Cons :=
  if s.cursor = 4 then s
  else if (s.cursor + 1) % 5 = s.cmdCount then { s with cursor := s.cmdCount - 1 }
  else { s with cursor := (s.cursor + 1) % 5 }

def decCursor (s : Cons) : Cons := if s.cursor < 0 then s else { s with cursor := s.cursor - 1 }

/-- The state in which the key calls `fillBuf`, if it does. -/
def beforeFill (s : Cons) (c : UInt8) : Option Cons :=
  if s.cmdCount = 0 then none
  else if c = keyUp then some s.incCursor
  else if c = keyDn ∧ s.cursor ≠ -1 then some s.decCursor
  else none

/-- `KeyUpPressed` and `KeyDownPressed`. -/
def arrow (s : Cons) (c : UInt8) : Cons :=
  match s.beforeFill c with
  | some t => t.fillBuf
  | none => if s.cmdCount ≠ 0 then s.killLine else s

/-- A line ends: `InsertNewCmd` if it is longer than its last character, and `input.w = input.e`. -/
def commit (s : Cons) : Cons :=
  { (if Ring.size s.w s.e ≠ 1 then
      { s.insertNewCmd with
        cmdCount := s.cmdCount + 1, cursor := -1, lines := s.line.dropLast :: s.lines }
    else s) with w := s.e, committed := s.committed ++ s.line }

/-- The `default` case of `consoleintr`, once `\r` is a newline. -/
def enter (s : Cons) (c : UInt8) : Cons :=
  if c = 10 ∨ c = 4 ∨ s.e + 1#32 = s.r + 128#32 then (s.put c).commit else s.put c

/-- `consoleintr` for one key. -/
def consoleintr (s : Cons) (c : UInt8) : Cons :=
  if c = 16 then s
  else if c = 21 then s.killLine
  else if c = 8 ∨ c = 0x7f then if s.e ≠ s.w then { s with e := s.e - 1#32 } else s
  else if c = keyUp ∨ c = keyDn then s.arrow c
  else if c ≠ 0 ∧ Ring.size s.r s.e < inputBuf then s.enter (if c = 13 then 10 else c)
  else s

/-- `c = input.buf[input.r++ % INPUT_BUF]`. -/
def take (s : Cons) : Cons :=
  { s with r := s.r + 1#32, taken := s.taken ++ [s.buf (cell s.r)] }

/-- `consoleread` with `n` of `target` bytes to go, until it returns or sleeps. -/
def consoleread (target : ℕ) : ℕ → Cons → Cons
  | 0, s => s
  | n + 1, s =>
    if s.r = s.w then s
    else if s.buf (cell s.r) = 4 then if n + 1 < target then s else s.take
    else if s.buf (cell s.r) = 10 then s.take
    else consoleread target n s.take

end Cons

inductive Event
  | key (c : UInt8)
  | read (target n : ℕ)

def step (s : Cons) : Event → Cons
  | .key c => s.consoleintr c
  | .read target n => s.consoleread target n

/-! ## The edit region -/

section Edit

variable {s : Cons} {c : UInt8}

theorem dvd_word : inputBuf ∣ 2 ^ 32 := by decide

namespace Cons

theorem line_put (h : Ring.size s.w s.e < inputBuf) : (s.put c).line = s.line ++ [c] := by
  have hsize : Ring.size s.w (s.e + 1#32) = Ring.size s.w s.e + 1 :=
    size_put (by simp only [inputBuf] at h; omega)
  simp only [line, put, hsize]
  exact window_put dvd_word h

@[simp] theorem line_length : s.line.length = Ring.size s.w s.e := window_length

theorem putAll (cs : List UInt8) (h : s.line.length + cs.length ≤ inputBuf) :
    ∃ buf e, cs.foldl put s = { s with buf := buf, e := e } ∧ (cs.foldl put s).line = s.line ++ cs := by
  induction cs generalizing s with
  | nil => exact ⟨s.buf, s.e, rfl, by simp⟩
  | cons c cs ih =>
    rw [List.length_cons, line_length] at h
    have hput : (s.put c).line = s.line ++ [c] := line_put (by omega)
    obtain ⟨buf, e, heq, hline⟩ := ih (s := s.put c) (by rw [hput]; simp; omega)
    exact ⟨buf, e, heq, by rw [List.foldl_cons, hline, hput, List.append_assoc]; rfl⟩

/-- Nothing to be read is overwritten while the ring has room. -/
theorem pending_putAll (cs : List UInt8) (h : s.pending.length + s.line.length + cs.length ≤ inputBuf) :
    (cs.foldl put s).pending = s.pending := by
  induction cs generalizing s with
  | nil => rfl
  | cons c cs ih =>
    have hlen : s.pending.length = Ring.size s.r s.w := window_length
    rw [List.length_cons, line_length, hlen] at h
    have hput : (s.put c).line = s.line ++ [c] := line_put (by omega)
    have hsize : Ring.size s.r s.e = Ring.size s.r s.w + Ring.size s.w s.e :=
      size_trans (by simp only [inputBuf] at h; omega)
    have hle : Ring.size s.r s.w ≤ Ring.size s.r s.e := by omega
    have hlt : Ring.size s.r s.e < inputBuf := by omega
    have hkeep : (s.put c).pending = s.pending := window_update dvd_word hle hlt
    rw [List.foldl_cons, ih (by rw [hkeep, hput, hlen]; simp; omega), hkeep]

theorem line_eq_nil (h : s.e = s.w) : s.line = [] := by
  rw [← List.length_eq_zero_iff, line_length, size_eq_zero, h]

theorem line_back (h : s.e ≠ s.w) : s.line = { s with e := s.e - 1#32 }.line ++
    [s.buf (cell (s.e - 1#32))] := by
  have hsize := size_pred h.symm
  have hcell := add_size (r := s.w) (u := s.e - 1#32)
  simp only [line]
  rw [← hsize, window_succ, hcell]

theorem killLine_eq (h : 10 ∉ s.line) : s.killLine = { s with e := s.w } := by
  have hloop : ∀ n (s : Cons), Ring.size s.w s.e = n → 10 ∉ s.line →
      killLoop n s = { s with e := s.w } := by
    intro n
    induction n with
    | zero =>
      rintro ⟨buf, r, w, e, _⟩ hn _
      obtain rfl : w = e := size_eq_zero.1 hn
      rfl
    | succ n ih =>
      intro s hn h
      have hne : s.e ≠ s.w := by
        intro he
        rw [size_eq_zero.2 he.symm] at hn
        cases hn
      have hsize := size_pred hne.symm
      rw [line_back hne, List.mem_append, not_or, List.mem_singleton] at h
      rw [killLoop, if_pos ⟨hne, Ne.symm h.2⟩]
      exact ih { s with e := s.e - 1#32 } (Nat.succ.inj (hsize.trans hn)) h.1
  exact hloop _ s rfl h

theorem copyLine_eq (buf : Fin inputBuf → UInt8) (w : BitVec 32) {k n : ℕ} (hk : k < inputBuf)
    (hn : k < n) : copyLine buf (cell (w + BitVec.ofNat 32 k)) n (cell w) = window buf w k := by
  induction k generalizing w n with
  | zero =>
    obtain ⟨n, rfl⟩ := Nat.exists_eq_succ_of_ne_zero hn.ne'
    rw [BitVec.add_zero, copyLine, if_pos rfl]
    rfl
  | succ k ih =>
    obtain ⟨n, rfl⟩ := Nat.exists_eq_succ_of_ne_zero (Nat.ne_of_gt (Nat.zero_lt_of_lt hn))
    have hne : (cell w : Fin inputBuf) ≠ cell (w + BitVec.ofNat 32 (k + 1)) := by
      have := cell_ne (r := w) dvd_word (Nat.succ_pos k) hk
      rwa [BitVec.add_zero] at this
    have hnext : (cell w : Fin inputBuf) + 1 = cell (w + 1#32) := by
      apply Fin.ext
      simp only [cell, Fin.ofNat, Fin.val_add, BitVec.toNat_add, inputBuf]
      norm_num
    have hadd : w + BitVec.ofNat 32 (k + 1) = w + 1#32 + BitVec.ofNat 32 k := by
      rw [BitVec.add_assoc, ← BitVec.ofNat_add, Nat.add_comm]
    rw [copyLine, if_neg hne, window_get, hnext, hadd, ih _ (by omega) (by omega)]

/-- The text that `fillBuf` recalls. -/
def recalled (s : Cons) : List UInt8 :=
  if s.cursor < 0 then [] else s.lines.getD s.cursor.toNat []

end Cons

end Edit

/-! ## The history -/

/-- The invariant of every run. -/
structure Inv (s : Cons) : Prop where
  pending : s.pending.length ≤ 128
  line : s.line.length ≤ 127
  newline : 10 ∉ s.line
  count : s.cmdCount = s.lines.length
  short : ∀ l ∈ s.lines, l.length ≤ 127 ∧ 10 ∉ l
  ptr : ∀ k < s.cmdCount, k < 5 → s.pervCmd k = (s.cmdCount - 1 - k) % 5
  hist : ∀ {k l}, k < 5 → s.lines[k]? = some l → s.tempBuf (s.pervCmd k) = l ∧ s.size k = l.length
  cursor : s.cmdCount = 0 ∨ -1 ≤ s.cursor ∧ s.cursor < s.cmdCount ∧ s.cursor < 5

namespace Inv

variable {s : Cons} {c : UInt8}

theorem init : Inv .init := by
  refine ⟨by decide, by decide, by decide, rfl, nofun, nofun, ?_, .inl rfl⟩
  intro k l _ h
  simp [Cons.init] at h

section

variable (h : Inv s)

include h

theorem edit {t : Cons} {buf : Fin inputBuf → UInt8} {e : BitVec 32}
    (ht : t = { s with buf := buf, e := e }) (hlen : t.line.length ≤ 127) (hnl : 10 ∉ t.line) :
    Inv t := by
  subst ht
  exact ⟨by simpa [Cons.pending] using h.pending, hlen, hnl, h.count, h.short, h.ptr, h.hist, h.cursor⟩

theorem killLine : Inv s.killLine := by
  have hnil : ({ s with e := s.w } : Cons).line = [] := Cons.line_eq_nil rfl
  rw [Cons.killLine_eq h.newline]
  exact h.edit rfl (by rw [hnil]; simp) (by rw [hnil]; simp)

theorem back (he : s.e ≠ s.w) : Inv { s with e := s.e - 1#32 } := by
  have hline := Cons.line_back he
  have hlen := h.line
  have hnl := h.newline
  rw [hline, List.length_append] at hlen
  rw [hline, List.mem_append, not_or] at hnl
  exact h.edit rfl (by omega) hnl.1

theorem setCursor {x : ℤ} (hx : -1 ≤ x ∧ x < s.cmdCount ∧ x < 5) : Inv { s with cursor := x } :=
  ⟨h.pending, h.line, h.newline, h.count, h.short, h.ptr, h.hist, .inr hx⟩

theorem fillBuf_eq (hcur : s.cursor < s.cmdCount) (h5 : s.cursor < 5) :
    s.fillBuf = s.recalled.foldl Cons.put { s with e := s.w } ∧ s.fillSize = s.recalled.length ∧
      s.recalled.length ≤ 127 ∧ 10 ∉ s.recalled := by
  rw [Cons.fillBuf, Cons.killLine_eq h.newline]
  by_cases hneg : s.cursor < 0
  · simp [Cons.fillSize, Cons.recalled, hneg]
  obtain ⟨k, hk⟩ := Int.eq_ofNat_of_zero_le (not_lt.1 hneg)
  have hlt : k < s.lines.length := by
    rw [hk, h.count] at hcur
    omega
  have hl := List.getElem?_eq_getElem hlt
  have hrec : s.recalled = s.lines[k] := by simp [Cons.recalled, hk, hl]
  obtain ⟨hrow, hsize⟩ := h.hist (by omega) hl
  have hfill : s.fillSize = s.lines[k].length := by simp [Cons.fillSize, hk, hsize]
  obtain ⟨hlen, hnl⟩ := h.short _ (List.getElem_mem hlt)
  have hmap : ∀ l : List UInt8, ((List.range l.length).map fun i => l.getD i 0) = l := by
    intro l
    refine List.ext_getElem (by simp) fun i hi _ => ?_
    simp at hi
    simp [hi]
  rw [hrec, hfill, hk, Int.toNat_natCast, hrow, hmap]
  exact ⟨rfl, rfl, hlen, hnl⟩

theorem fillBuf (hcur : s.cursor < s.cmdCount) (h5 : s.cursor < 5) :
    Inv s.fillBuf ∧ s.fillBuf.line = s.recalled ∧
      ∃ buf e, s.fillBuf = { s with buf := buf, e := e } := by
  obtain ⟨heq, -, hlen, hnl⟩ := h.fillBuf_eq hcur h5
  have hnil : ({ s with e := s.w } : Cons).line = [] := Cons.line_eq_nil rfl
  obtain ⟨buf, e, hput, hline⟩ := Cons.putAll (s := { s with e := s.w }) s.recalled
    (by rw [hnil]; simp only [List.length_nil, inputBuf]; omega)
  rw [hnil, List.nil_append, ← heq] at hline
  rw [← heq] at hput
  exact ⟨h.edit hput (by rwa [hline]) (by rwa [hline]), hline, buf, e, hput⟩

theorem beforeFill {t : Cons} (hb : s.beforeFill c = some t) :
    s.cmdCount ≠ 0 ∧ ∃ x, t = { s with cursor := x } ∧ (-1 ≤ x ∧ x < s.cmdCount ∧ x < 5) ∧
      (x = -1 ↔ c = keyDn ∧ s.cursor = 0) := by
  unfold Cons.beforeFill at hb
  split_ifs at hb with h0 hup hdn
  · obtain ⟨hlow, hlt, h5⟩ := h.cursor.resolve_left h0
    have hne : c ≠ keyDn := by rw [hup]; decide
    refine ⟨h0, ?_⟩
    cases hb
    unfold Cons.incCursor
    split_ifs with h4 hlast
    · exact ⟨s.cursor, rfl, ⟨hlow, hlt, h5⟩, by omega, fun hc => absurd hc.1 hne⟩
    · exact ⟨_, rfl, by omega, by omega, fun hc => absurd hc.1 hne⟩
    · exact ⟨_, rfl, by omega, by omega, fun hc => absurd hc.1 hne⟩
  · obtain ⟨hlow, hlt, h5⟩ := h.cursor.resolve_left h0
    refine ⟨h0, s.cursor - 1, ?_, by omega, fun _ => ⟨hdn.1, by omega⟩, fun _ => by omega⟩
    cases hb
    exact if_neg (by omega)

theorem arrow (c : UInt8) : Inv (s.arrow c) := by
  unfold Cons.arrow
  split
  · rename_i t ht
    obtain ⟨-, x, rfl, hx, -⟩ := h.beforeFill ht
    exact ((h.setCursor hx).fillBuf hx.2.1 hx.2.2).1
  · split_ifs
    · exact h.killLine
    · exact h

theorem size_e : Ring.size s.r s.e = s.pending.length + s.line.length := by
  have hp := h.pending
  have hl := h.line
  rw [Cons.line_length] at hl ⊢
  rw [Cons.pending, window_length] at hp ⊢
  exact size_trans (by omega)

theorem put (hc : c ≠ 10) (hroom : s.pending.length + s.line.length < 127) : Inv (s.put c) := by
  have hline : (s.put c).line = s.line ++ [c] :=
    Cons.line_put (by rw [← Cons.line_length]; simp only [inputBuf]; omega)
  refine h.edit rfl ?_ ?_
  · rw [hline, List.length_append, List.length_singleton]
    omega
  · simp [hline, h.newline, hc.symm]

theorem insertNewCmd : (s.put c).insertNewCmd = { s.put c with
      tempBuf := update s.tempBuf (s.cmdCount % 5) s.line
      pervCmd := Cons.shift s.pervCmd (s.cmdCount % 5)
      size := Cons.shift s.size s.line.length } := by
  have hlen := h.line
  rw [Cons.line_length] at hlen
  have hstop : s.e + 1#32 - 1#32 = s.w + BitVec.ofNat 32 (Ring.size s.w s.e) := by
    rw [BitVec.add_sub_cancel, add_size]
  have hrow : Cons.copyLine (s.put c).buf (cell ((s.put c).e - 1#32)) inputBuf (cell (s.put c).w) =
      s.line := by
    simp only [Cons.put]
    rw [hstop, Cons.copyLine_eq _ _ (by simp only [inputBuf]; omega) (by simp only [inputBuf]; omega)]
    exact window_update dvd_word le_rfl (by simp only [inputBuf]; omega)
  simp only [Cons.insertNewCmd, hrow]
  rfl

theorem commit_eq : (s.put c).commit =
    if s.line = [] then { s.put c with w := s.e + 1#32, committed := s.committed ++ (s.line ++ [c]) }
    else
      { s.put c with
        w := s.e + 1#32
        committed := s.committed ++ (s.line ++ [c])
        tempBuf := update s.tempBuf (s.cmdCount % 5) s.line
        pervCmd := Cons.shift s.pervCmd (s.cmdCount % 5)
        size := Cons.shift s.size s.line.length
        cmdCount := s.cmdCount + 1
        cursor := -1
        lines := s.line :: s.lines } := by
  have hlen := h.line
  have hline : (s.put c).line = s.line ++ [c] :=
    Cons.line_put (by rw [← Cons.line_length]; simp only [inputBuf]; omega)
  have hone : Ring.size (s.put c).w (s.put c).e ≠ 1 ↔ s.line ≠ [] := by
    rw [← Cons.line_length, hline, ← List.length_pos_iff, List.length_append, List.length_singleton]
    omega
  unfold Cons.commit
  rw [h.insertNewCmd, hline, List.dropLast_concat]
  by_cases h0 : s.line = []
  · rw [if_neg (fun hne => hone.1 hne h0), if_pos h0]
    rfl
  · rw [if_pos (hone.2 h0), if_neg h0]
    rfl

theorem commit (hroom : s.pending.length + s.line.length < 128) : Inv (s.put c).commit := by
  have hsize : Ring.size s.r (s.e + 1#32) = Ring.size s.r s.e + 1 :=
    size_put (by rw [h.size_e]; omega)
  have hpend : (window (s.put c).buf s.r (Ring.size s.r (s.e + 1#32))).length ≤ 128 := by
    rw [window_length, hsize, h.size_e]
    omega
  have hnil : ∀ t : Cons, t.e = t.w → t.line.length ≤ 127 ∧ 10 ∉ t.line := by
    intro t ht
    rw [Cons.line_eq_nil ht]
    simp
  rw [h.commit_eq]
  split_ifs
  · exact ⟨hpend, (hnil _ rfl).1, (hnil _ rfl).2, h.count, h.short, h.ptr, h.hist, h.cursor⟩
  refine ⟨hpend, (hnil _ rfl).1, (hnil _ rfl).2, ?_, ?_, ?_, ?_, .inr ⟨le_rfl, ?_⟩⟩
  · rw [List.length_cons, ← h.count]
  · exact List.forall_mem_cons.2 ⟨⟨h.line, h.newline⟩, h.short⟩
  · rintro (_ | k) hk h5
    · rfl
    · have := h.ptr k (by dsimp only at hk; omega) (by omega)
      simp only [Cons.shift, this]
      omega
  · rintro (_ | k) l h5 hl
    · cases hl
      exact ⟨update_self .., rfl⟩
    -- the row of an older line is not the one written now
    have hl : s.lines[k]? = some l := hl
    have hk : k < s.cmdCount := by
      rw [h.count]
      exact (List.getElem?_eq_some_iff.1 hl).1
    obtain ⟨hrow, hsz⟩ := h.hist (by omega) hl
    refine ⟨?_, hsz⟩
    simp only [Cons.shift]
    rw [update_of_ne, hrow]
    rw [h.ptr k hk (by omega)]
    omega
  · dsimp only
    omega

theorem enter (hroom : Ring.size s.r s.e < 128) (c : UInt8) : Inv (s.enter c) := by
  unfold Cons.enter
  split_ifs with hend
  · exact h.commit (by rwa [← h.size_e])
  simp only [not_or] at hend
  refine h.put hend.1 ?_
  have hne : Ring.size s.r (s.e + 1#32) ≠ 128 := fun he => hend.2.2 ((size_eq_full (by decide)).1 he)
  rw [size_put (by omega)] at hne
  rw [← h.size_e]
  omega

theorem take (hne : s.r ≠ s.w) : Inv s.take := by
  have hlen := h.pending
  have hsize := size_get hne
  rw [Cons.pending, window_length] at hlen
  refine ⟨?_, h.line, h.newline, h.count, h.short, h.ptr, h.hist, h.cursor⟩
  rw [Cons.pending, window_length]
  simp only [Cons.take]
  omega

end

/-- What every byte taken keeps, `consoleread` keeps. -/
theorem consoleread_keeps {I : Cons → Prop} (hI : ∀ s, I s → s.r ≠ s.w → I s.take) (target n : ℕ)
    (h : I s) : I (s.consoleread target n) := by
  induction n generalizing s with
  | zero => exact h
  | succ n ih =>
    rw [Cons.consoleread]
    split_ifs with hne
    · exact h
    · exact h
    · exact hI s h hne
    · exact hI s h hne
    · exact ih (hI s h hne)

theorem consoleintr (h : Inv s) (c : UInt8) : Inv (s.consoleintr c) := by
  unfold Cons.consoleintr
  split_ifs with _ _ _ he _ hc
  · exact h
  · exact h.killLine
  · exact h.back he
  · exact h
  · exact h.arrow c
  · exact h.enter hc.2 _
  · exact h.enter hc.2 _
  · exact h

theorem step (h : Inv s) (ev : Event) : Inv (step s ev) := by
  cases ev with
  | key c => exact h.consoleintr c
  | read target n => exact consoleread_keeps (fun _ => Inv.take) target n h

theorem run (evs : List Event) : Inv (evs.foldl Console.step .init) := by
  induction evs using List.reverseRecOn with
  | nil => exact init
  | append_singleton evs ev ih =>
    rw [List.foldl_append]
    exact ih.step ev

end Inv

/-- In every run, `fillBuf` uses a legal index exactly if the key is not the down key with the cursor
at 0: `DecCursor` takes the cursor to -1 then, and `fillBuf` reads `history.size[-1]`. -/
theorem history_index_iff (evs : List Event) (c : UInt8) :
    let s := evs.foldl step .init
    (∀ t, s.beforeFill c = some t → 0 ≤ t.cursor ∧ t.cursor < min t.cmdCount 5) ↔
      ¬ (c = keyDn ∧ s.cmdCount ≠ 0 ∧ s.cursor = 0) := by
  intro s
  have h : Inv s := .run evs
  constructor
  · rintro hlegal ⟨rfl, h0, hcur⟩
    have hb : s.beforeFill keyDn = some s.decCursor := by
      rw [Cons.beforeFill, if_neg h0, if_neg (by decide), if_pos ⟨rfl, by omega⟩]
    have := (hlegal _ hb).1
    rw [Cons.decCursor, if_neg (by omega)] at this
    dsimp only at this
    omega
  · intro hne t ht
    obtain ⟨h0, x, rfl, hx, hiff⟩ := h.beforeFill ht
    have hx' : x ≠ -1 := fun he => hne ⟨(hiff.1 he).1, h0, (hiff.1 he).2⟩
    dsimp only
    omega

/-- A line, the up key and the down key. -/
theorem history_index_down : ∃ t,
    ([.key 97, .key 10, .key keyUp].foldl step .init).beforeFill keyDn = some t ∧ t.cursor = -1 :=
  ⟨_, rfl, by decide⟩

/-- `j` presses of the up key. -/
def ups (s : Cons) (j : ℕ) : Cons := (Cons.consoleintr · keyUp)^[j] s

namespace Inv

variable {s : Cons}

theorem up (h : Inv s) (h0 : s.cmdCount ≠ 0) :
    (s.consoleintr keyUp).lines = s.lines ∧ (s.consoleintr keyUp).cmdCount = s.cmdCount ∧
      (s.consoleintr keyUp).cursor = min (s.cursor + 1) (min s.cmdCount 5 - 1) ∧
      (s.consoleintr keyUp).line = s.lines.getD (s.consoleintr keyUp).cursor.toNat [] := by
  obtain ⟨hlow, hlt, h5⟩ := h.cursor.resolve_left h0
  have hb : s.beforeFill keyUp = some s.incCursor := by
    rw [Cons.beforeFill, if_neg h0, if_pos rfl]
  have hkey : s.consoleintr keyUp = s.incCursor.fillBuf := by
    rw [Cons.consoleintr, if_neg (by decide), if_neg (by decide), if_neg (by decide),
      if_pos (.inl rfl), Cons.arrow, hb]
  obtain ⟨-, x, hx, hmem, hne⟩ := h.beforeFill hb
  have hcur : x = min (s.cursor + 1) (min s.cmdCount 5 - 1) := by
    have hx' : s.incCursor.cursor = x := by rw [hx]
    unfold Cons.incCursor at hx'
    split_ifs at hx' with h4 hlast
    · omega
    · dsimp only at hx'
      omega
    · dsimp only at hx'
      omega
  have hpos : 0 ≤ x := by
    have : x ≠ -1 := fun he => absurd (hne.1 he).1 (by decide)
    omega
  obtain ⟨-, hline, buf, e, heq⟩ := (h.setCursor hmem).fillBuf hmem.2.1 hmem.2.2
  rw [hkey, hx, hline, heq]
  refine ⟨rfl, rfl, hcur, ?_⟩
  simp only [Cons.recalled]
  rw [if_neg (by omega)]

theorem ups (h : Inv s) (h0 : s.cmdCount ≠ 0) (hcur : s.cursor = -1) (j : ℕ) :
    Inv (ups s j) ∧ (ups s j).lines = s.lines ∧ (ups s j).cmdCount = s.cmdCount ∧
      (ups s j).cursor = min j (min s.cmdCount 5) - 1 := by
  induction j with
  | zero => exact ⟨h, rfl, rfl, by rw [Console.ups, iterate_zero, id, hcur]; omega⟩
  | succ j ih =>
    obtain ⟨hinv, hlines, hcount, hj⟩ := ih
    have hsucc : Console.ups s (j + 1) = (Console.ups s j).consoleintr keyUp := iterate_succ_apply' ..
    obtain ⟨hl, hc, hx, -⟩ := hinv.up (by rwa [hcount])
    rw [hsucc]
    refine ⟨hinv.consoleintr _, hl.trans hlines, hc.trans hcount, ?_⟩
    rw [hx, hj, hcount]
    omega

theorem enter_lines (h : Inv s) (c : UInt8) : (s.enter c).lines = s.lines ∨
    (s.enter c).lines.length = s.lines.length + 1 ∧ (s.enter c).cursor = -1 ∧
    (s.enter c).cmdCount ≠ 0 := by
  unfold Cons.enter
  split_ifs
  · rw [h.commit_eq]
    split_ifs
    · exact .inl rfl
    · exact .inr ⟨rfl, rfl, Nat.succ_ne_zero _⟩
  · exact .inl rfl

theorem arrow_lines (h : Inv s) (c : UInt8) : (s.arrow c).lines = s.lines := by
  unfold Cons.arrow
  split
  · rename_i t ht
    obtain ⟨-, x, rfl, hx, -⟩ := h.beforeFill ht
    obtain ⟨-, -, buf, e, heq⟩ := (h.setCursor hx).fillBuf hx.2.1 hx.2.2
    rw [heq]
  · split_ifs
    · rw [Cons.killLine_eq h.newline]
    · rfl

/-- Only a line that ends goes to the history, and the cursor is reset then. -/
theorem consoleintr_lines (h : Inv s) (c : UInt8) : (s.consoleintr c).lines = s.lines ∨
    (s.consoleintr c).lines.length = s.lines.length + 1 ∧ (s.consoleintr c).cursor = -1 ∧
    (s.consoleintr c).cmdCount ≠ 0 := by
  unfold Cons.consoleintr
  split_ifs
  · exact .inl rfl
  · exact .inl (by rw [Cons.killLine_eq h.newline])
  · exact .inl rfl
  · exact .inl rfl
  · exact .inl (h.arrow_lines c)
  · exact h.enter_lines _
  · exact h.enter_lines _
  · exact .inl rfl

theorem count_le (evs : List Event) : (evs.foldl Console.step .init).cmdCount ≤ evs.length := by
  rw [(run evs).count]
  induction evs using List.reverseRecOn with
  | nil => exact le_rfl
  | append_singleton evs ev ih =>
    rw [List.foldl_append, List.length_append]
    refine le_trans ?_ (Nat.succ_le_succ ih)
    cases ev with
    | key c =>
      rcases (run evs).consoleintr_lines c with h | h
      · exact (congrArg List.length h).trans_le (Nat.le_succ _)
      · exact h.1.le
    | read target n =>
      exact consoleread_keeps (I := fun s => s.lines.length ≤ _) (fun _ h _ => h) target n
        (Nat.le_succ _)

end Inv

/-- In every run the history holds the last five lines, and the up key recalls them one after the
other.  The count of lines is at most that of the events: an `int` for fewer than `2 ^ 31`. -/
theorem history_faithful (evs : List Event) :
    let s := evs.foldl step .init
    s.cmdCount ≤ evs.length ∧
    (∀ k l, k < 5 → s.lines[k]? = some l → s.tempBuf (s.pervCmd k) = l ∧ s.size k = l.length) ∧
      ∀ c j, (s.consoleintr c).lines ≠ s.lines → 1 ≤ j →
        (ups (s.consoleintr c) j).line = (s.consoleintr c).lines.getD
          (min j (min (s.consoleintr c).lines.length 5) - 1) [] := by
  intro s
  have h : Inv s := .run evs
  refine ⟨Inv.count_le evs, fun k l h5 hl => h.hist h5 hl, fun c j hne hj => ?_⟩
  obtain ⟨j, rfl⟩ := Nat.exists_eq_add_of_le' hj
  have hc := h.consoleintr c
  obtain ⟨-, hcur, h0⟩ := (h.consoleintr_lines c).resolve_left hne
  obtain ⟨hinv, hlines, hcount, hj'⟩ := hc.ups h0 hcur j
  obtain ⟨-, -, hx, hline⟩ := hinv.up (by rwa [hcount])
  have hsucc : ups (s.consoleintr c) (j + 1) = (ups (s.consoleintr c) j).consoleintr keyUp :=
    iterate_succ_apply' ..
  rw [hsucc, hline, hlines, hx, hj', hcount, hc.count]
  congr 1
  omega

theorem history_faithful_twoLines :
    let s := [Event.key 97, .key 10, .key 98].foldl step .init
    (ups (s.consoleintr 10) 2).line = [97] := by
  refine ((history_faithful [.key 97, .key 10, .key 98]).2.2 10 2 ?_ (by decide)).trans ?_
  · decide
  · decide

/-! ## The bytes that are read -/

/-- The indices are in order, and the bytes committed are those taken and those still in the ring. -/
structure Intact (s : Cons) : Prop where
  le_e : Ring.size s.r s.w ≤ Ring.size s.r s.e
  e_le : Ring.size s.r s.e ≤ inputBuf
  bytes : s.committed = s.taken ++ s.pending

/-- The line that a key recalls fits into the ring. -/
def Fits (s : Cons) : Event → Prop
  | .key c => ∀ t, s.beforeFill c = some t → Ring.size s.r s.w + t.fillSize ≤ inputBuf
  | .read _ _ => True

namespace Inv

variable {s : Cons}

theorem intact_iff (h : Inv s) : Intact s ↔
    s.pending.length + s.line.length ≤ inputBuf ∧ s.committed = s.taken ++ s.pending := by
  have hsize := h.size_e
  have hp : s.pending.length = Ring.size s.r s.w := window_length
  constructor
  · rintro ⟨-, hle, hb⟩
    exact ⟨by omega, hb⟩
  · rintro ⟨hle, hb⟩
    exact ⟨by omega, by omega, hb⟩

section

variable (h : Inv s) (hi : Intact s)

include h hi

theorem intact_kill : Intact s.killLine := by
  obtain ⟨hle, hb⟩ := h.intact_iff.1 hi
  rw [h.killLine.intact_iff, Cons.killLine_eq h.newline, Cons.line_eq_nil rfl]
  refine ⟨?_, hb⟩
  show s.pending.length + 0 ≤ _
  omega

theorem intact_back (he : s.e ≠ s.w) : Intact { s with e := s.e - 1#32 } := by
  obtain ⟨hle, hb⟩ := h.intact_iff.1 hi
  have hlen := congrArg List.length (Cons.line_back he)
  rw [List.length_append] at hlen
  refine (h.back he).intact_iff.2 ⟨?_, hb⟩
  show s.pending.length + _ ≤ _
  omega

/-- `fillBuf` keeps what is to be read exactly if the line fits. -/
theorem intact_fill (hcur : s.cursor < s.cmdCount) (h5 : s.cursor < 5) :
    Intact s.fillBuf ↔ Ring.size s.r s.w + s.fillSize ≤ inputBuf := by
  obtain ⟨-, hb⟩ := h.intact_iff.1 hi
  obtain ⟨heq, hsize, -, -⟩ := h.fillBuf_eq hcur h5
  obtain ⟨hinv, hline, buf, e, hfill⟩ := h.fillBuf hcur h5
  have hp : s.fillBuf.pending.length = Ring.size s.r s.w := by
    rw [Cons.pending, window_length, hfill]
  rw [hinv.intact_iff, hline, hp, hsize]
  refine ⟨And.left, fun hle => ⟨hle, ?_⟩⟩
  have hnil : ({ s with e := s.w } : Cons).line = [] := Cons.line_eq_nil rfl
  have hp0 : ({ s with e := s.w } : Cons).pending.length = Ring.size s.r s.w := window_length
  have hpend := Cons.pending_putAll (s := { s with e := s.w }) s.recalled
    (by rw [hnil, hp0, List.length_nil]; omega)
  rw [← heq] at hpend
  rw [hpend, hfill]
  exact hb

theorem intact_enter (hroom : Ring.size s.r s.e < inputBuf) (c : UInt8) : Intact (s.enter c) := by
  obtain ⟨hle, hb⟩ := h.intact_iff.1 hi
  have hinv := h.enter hroom c
  have hsum := h.size_e
  have hline : (s.put c).line = s.line ++ [c] := Cons.line_put (by rw [← Cons.line_length]; omega)
  have hpend : (s.put c).pending = s.pending :=
    Cons.pending_putAll (s := s) [c] (by rw [List.length_singleton]; omega)
  revert hinv
  unfold Cons.enter
  split_ifs
  · intro hinv
    -- behind the bytes to be read comes the line
    have hsize : Ring.size s.r (s.e + 1#32) = Ring.size s.r s.w + Ring.size s.w (s.e + 1#32) :=
      size_trans (by
        have hlen := congrArg List.length hline
        have hp : s.pending.length = Ring.size s.r s.w := window_length
        rw [Cons.line_length, List.length_append, List.length_singleton] at hlen
        have hlen : Ring.size s.w (s.e + 1#32) = s.line.length + 1 := hlen
        simp only [inputBuf] at hle
        omega)
    have hall : window (s.put c).buf s.r (Ring.size s.r (s.e + 1#32)) = s.pending ++
      (s.line ++ [c]) := by
      rw [hsize, window_append, add_size, ← hline, ← hpend]
      rfl
    have hfields : (s.put c).commit.line = [] ∧ (s.put c).commit.taken = s.taken ∧
        (s.put c).commit.committed = s.committed ++ (s.line ++ [c]) ∧
        (s.put c).commit.pending = s.pending ++ (s.line ++ [c]) := by
      rw [h.commit_eq, ← hall]
      split_ifs
      · exact ⟨Cons.line_eq_nil rfl, rfl, rfl, rfl⟩
      · exact ⟨Cons.line_eq_nil rfl, rfl, rfl, rfl⟩
    obtain ⟨hnil, htaken, hcomm, hp⟩ := hfields
    rw [hinv.intact_iff, hnil, htaken, hcomm, hp, hb, List.append_assoc]
    refine ⟨?_, rfl⟩
    simp only [List.length_append, List.length_nil, List.length_singleton]
    omega
  · intro hinv
    rw [hinv.intact_iff, hline, hpend, List.length_append, List.length_singleton]
    exact ⟨by omega, hb⟩

theorem intact_take (hne : s.r ≠ s.w) : Intact s.take := by
  obtain ⟨hle, hb⟩ := h.intact_iff.1 hi
  have hpend : s.pending = s.buf (cell s.r) :: s.take.pending := by
    rw [Cons.pending, ← size_get hne, window_get]
    rfl
  refine (h.take hne).intact_iff.2 ⟨?_, ?_⟩
  · rw [hpend, List.length_cons] at hle
    show _ + s.line.length ≤ _
    omega
  · rw [hpend] at hb
    rw [show s.take.taken = s.taken ++ [s.buf (cell s.r)] from rfl, List.append_assoc]
    exact hb

theorem intact_consoleintr (c : UInt8) : Intact (s.consoleintr c) ↔ Fits s (.key c) := by
  have hother : c ≠ keyUp → c ≠ keyDn → Fits s (.key c) := by
    intro hup hdn t ht
    simp [Cons.beforeFill, hup, hdn] at ht
  unfold Cons.consoleintr
  split_ifs with h16 h21 h8 he harrow hc
  · subst h16
    exact ⟨fun _ => hother (by decide) (by decide), fun _ => hi⟩
  · subst h21
    exact ⟨fun _ => hother (by decide) (by decide), fun _ => h.intact_kill hi⟩
  · rcases h8 with rfl | rfl
    · exact ⟨fun _ => hother (by decide) (by decide), fun _ => h.intact_back hi he⟩
    · exact ⟨fun _ => hother (by decide) (by decide), fun _ => h.intact_back hi he⟩
  · rcases h8 with rfl | rfl
    · exact ⟨fun _ => hother (by decide) (by decide), fun _ => hi⟩
    · exact ⟨fun _ => hother (by decide) (by decide), fun _ => hi⟩
  · unfold Cons.arrow
    split
    · rename_i t ht
      obtain ⟨-, x, rfl, hx, -⟩ := h.beforeFill ht
      rw [(h.setCursor hx).intact_fill ⟨hi.le_e, hi.e_le, hi.bytes⟩ hx.2.1 hx.2.2]
      refine ⟨fun hle t' ht' => ?_, fun hfit => hfit _ ht⟩
      cases ht.symm.trans ht'
      exact hle
    · rename_i hnone
      refine ⟨fun _ t ht => ?_, fun _ => ?_⟩
      · rw [hnone] at ht
        cases ht
      · split_ifs
        · exact h.intact_kill hi
        · exact hi
  all_goals
    rw [not_or] at harrow
    refine ⟨fun _ => hother harrow.1 harrow.2, fun _ => ?_⟩
  · exact h.intact_enter hi hc.2 _
  · exact h.intact_enter hi hc.2 _
  · exact hi

theorem intact_step (ev : Event) : Intact (Console.step s ev) ↔ Fits s ev := by
  cases ev with
  | key c => exact h.intact_consoleintr hi c
  | read target n =>
    refine ⟨fun _ => trivial, fun _ => ?_⟩
    exact (consoleread_keeps (I := fun s => Inv s ∧ Intact s)
      (fun _ hs hne => ⟨hs.1.take hne, hs.1.intact_take hs.2 hne⟩) target n ⟨h, hi⟩).2

end

end Inv

/-- The input is intact all along a run exactly if every line that an arrow key recalls on the way fits
into what the ring has room for. -/
theorem input_intact_iff (evs : List Event) :
    (∀ ps, ps <+: evs → Intact (ps.foldl step .init)) ↔
      ∀ ps ev, ps ++ [ev] <+: evs → Fits (ps.foldl step .init) ev := by
  constructor
  · intro h ps ev hp
    have hi := h ps ((List.prefix_append ps [ev]).trans hp)
    have hnext := h _ hp
    rw [List.foldl_append] at hnext
    exact ((Inv.run ps).intact_step hi ev).1 hnext
  intro h ps
  induction ps using List.reverseRecOn with
  | nil => exact fun _ => ⟨by decide, by decide, rfl⟩
  | append_singleton ps ev ih =>
    intro hp
    have hi := ih ((List.prefix_append ps [ev]).trans hp)
    rw [List.foldl_append]
    exact ((Inv.run ps).intact_step hi ev).2 (h ps ev hp)

/-- A line of 64 characters is recalled before anybody has read it. -/
theorem input_overwritten : ¬ Intact
    ((List.replicate 64 (Event.key 97) ++ [Event.key 10, Event.key keyUp]).foldl step .init) := by
  intro h
  have := h.e_le
  revert this
  decide +kernel

end Xv6.Console

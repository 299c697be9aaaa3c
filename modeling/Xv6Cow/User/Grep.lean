import Mathlib

/-!
# `grep`

Strings are lists of characters, without the NUL at their end.  `grep` reads its input in the chunks
that `read` returns; `m` is the part of a line that it has kept in `buf` from the reads before.
-/

namespace Xv6.Grep

mutual

/-- `matchhere`: search for `re` at the beginning of the text. -/
def matchhere (re text : List Char) : Bool :=
  match re with
  | [] => true
  | c :: re =>
    if re.head? = some '*' then matchstar c re.tail text
    else if c = '$' ∧ re = [] then text.isEmpty
    else match text with
      | [] => false
      | t :: text => (c = '.' || c = t) && matchhere re text
termination_by (re.length, text.length, 0)

/-- `matchstar`: search for `c*re` at the beginning of the text. -/
def matchstar (c : Char) (re text : List Char) : Bool :=
  matchhere re text ||
    match text with
    | [] => false
    | t :: text => (t = c || c = '.') && matchstar c re text
termination_by (re.length, text.length, 1)

end

/-- The loop of `match`. -/
def matchLoop (re : List Char) : List Char → Bool
  | [] => matchhere re []
  | t :: text => matchhere re (t :: text) || matchLoop re text

/-- The function `match`. -/
def matchText (re text : List Char) : Bool :=
  if re.head? = some '^' then matchhere re.tail text else matchLoop re text

/-! ## The language of a pattern -/

inductive Item
  | star (c : Char)
  | eol
  | any
  | lit (c : Char)
deriving DecidableEq

/-- A pattern without `^`, read from left to right. -/
def items : List Char → List Item
  | [] => []
  | c :: re =>
    if re.head? = some '*' then .star c :: items re.tail
    else (if c = '$' ∧ re = [] then .eol else if c = '.' then .any else .lit c) :: items re
termination_by re => re.length

/-- The item matches what is in front of `rest`. -/
def Item.Takes : Item → List Char → List Char → Prop
  | .star c, text, rest => ∃ s, text = s ++ rest ∧ ∀ t ∈ s, c = '.' ∨ t = c
  | .eol, text, rest => text = [] ∧ rest = []
  | .any, text, rest => ∃ t, text = t :: rest
  | .lit c, text, rest => text = c :: rest

/-- The items, one after the other, match what is in front of `rest`. -/
def Takes : List Item → List Char → List Char → Prop
  | [], text, rest => text = rest
  | i :: is, text, rest => ∃ mid, i.Takes text mid ∧ Takes is mid rest

theorem matchhere_cons (c : Char) (re text : List Char) : matchhere (c :: re) text =
    if re.head? = some '*' then matchstar c re.tail text
    else if c = '$' ∧ re = [] then text.isEmpty
    else match text with
      | [] => false
      | t :: text => (c = '.' || c = t) && matchhere re text := by
  rw [matchhere.eq_def]

theorem matchstar_iff (c : Char) (re text : List Char) :
    matchstar c re text = true ↔ ∃ mid, (Item.star c).Takes text mid ∧ matchhere re mid = true := by
  induction text with
  | nil =>
    rw [matchstar, Bool.or_false]
    constructor
    · intro h
      exact ⟨[], ⟨[], rfl, by simp⟩, h⟩
    · rintro ⟨mid, ⟨s, hs, -⟩, h⟩
      obtain ⟨rfl, rfl⟩ := List.append_eq_nil_iff.1 hs.symm
      exact h
  | cons t text ih =>
    rw [matchstar]
    simp only [Bool.or_eq_true, Bool.and_eq_true, decide_eq_true_eq, ih]
    constructor
    · rintro (h | ⟨ht, mid, ⟨s, rfl, hs⟩, h⟩)
      · exact ⟨_, ⟨[], rfl, by simp⟩, h⟩
      refine ⟨mid, ⟨t :: s, rfl, ?_⟩, h⟩
      rintro a (_ | ⟨_, ha⟩)
      · exact ht.symm
      · exact hs a ha
    · rintro ⟨mid, ⟨s, hs, hall⟩, h⟩
      cases s with
      | nil => exact .inl (by rw [hs]; exact h)
      | cons a s =>
        obtain ⟨rfl, rfl⟩ := List.cons.inj hs
        exact .inr ⟨(hall t (by simp)).symm, mid, ⟨s, rfl, fun b hb => hall b (by simp [hb])⟩, h⟩

theorem matchhere_iff (re text : List Char) :
    matchhere re text = true ↔ ∃ rest, Takes (items re) text rest := by
  induction re using items.induct generalizing text with
  | case1 => simp [matchhere, items, Takes]
  | case2 c re hstar ih =>
    rw [matchhere_cons, items, if_pos hstar, if_pos hstar, matchstar_iff]
    simp only [Takes, ih]
    constructor
    · rintro ⟨mid, hm, rest, h⟩
      exact ⟨rest, mid, hm, h⟩
    · rintro ⟨rest, mid, hm, h⟩
      exact ⟨mid, hm, rest, h⟩
  | case3 c re hstar ih =>
    rw [matchhere_cons, items, if_neg hstar, if_neg hstar]
    by_cases hend : c = '$' ∧ re = []
    · rw [if_pos hend, if_pos hend, hend.2]
      simp [items, Takes, Item.Takes]
    rw [if_neg hend, if_neg hend]
    -- one character of the text, whichever it is or the one of the pattern
    have hitem : ∀ text mid, (if c = '.' then Item.any else .lit c).Takes text mid ↔
        ∃ t, text = t :: mid ∧ (c = '.' ∨ c = t) := by
      intro text mid
      split_ifs with hdot
      · simp [Item.Takes, hdot]
      · simp [Item.Takes, hdot]
    cases text with
    | nil => simp [Takes, hitem]
    | cons t text =>
      simp only [Bool.and_eq_true, Bool.or_eq_true, decide_eq_true_eq, ih, Takes, hitem]
      constructor
      · rintro ⟨hc, rest, h⟩
        exact ⟨rest, text, ⟨t, rfl, hc⟩, h⟩
      · rintro ⟨rest, mid, ⟨t', ht, hc⟩, h⟩
        obtain ⟨rfl, rfl⟩ := List.cons.inj ht
        exact ⟨hc, rest, h⟩

theorem matchLoop_iff (re text : List Char) :
    matchLoop re text = true ↔ ∃ s, s <:+ text ∧ matchhere re s = true := by
  induction text with
  | nil => simp [matchLoop]
  | cons t text ih =>
    simp only [matchLoop, Bool.or_eq_true, ih, List.suffix_cons_iff]
    constructor
    · rintro (h | ⟨s, hs, h⟩)
      · exact ⟨_, .inl rfl, h⟩
      · exact ⟨s, .inr hs, h⟩
    · rintro ⟨s, rfl | hs, h⟩
      · exact .inl h
      · exact .inr ⟨s, hs, h⟩

/-- `match` finds a pattern exactly if its items match in front of some suffix of the text, which is
all of the text if the pattern begins with `^`. -/
theorem match_iff (re text : List Char) : matchText re text = true ↔
    if re.head? = some '^' then ∃ rest, Takes (items re.tail) text rest
    else ∃ s, s <:+ text ∧ ∃ rest, Takes (items re) s rest := by
  unfold matchText
  split_ifs
  · exact matchhere_iff re.tail text
  · rw [matchLoop_iff]
    simp only [matchhere_iff]

example : items "a*.b$".toList = [.star 'a', .any, .lit 'b', .eol] := by simp [items]

/-! ## The loop over the input -/

/-- `strchr`: where the first `c` is. -/
def strchr (c : Char) : List Char → Option ℕ
  | [] => none
  | a :: s => if a = '\x00' then none else if a = c then some 0 else (strchr c s).map (· + 1)

variable {s : List Char}

theorem strchr_lt {c : Char} {k : ℕ} (h : strchr c s = some k) : k < s.length := by
  induction s generalizing k with
  | nil => cases h
  | cons a s ih =>
    simp only [strchr] at h
    split_ifs at h with h0 hc
    · cases h
      simp
    · obtain ⟨k', hk, rfl⟩ := Option.map_eq_some_iff.1 h
      simpa using ih hk

/-- The loop over the lines in `buf`: what is written, and what is left from `p` on. -/
def grepLines (pattern p : List Char) : List Char × List Char :=
  match _h : strchr '\n' p with
  | none => ([], p)
  | some k =>
    let r := grepLines pattern (p.drop (k + 1))
    ((if matchText pattern (p.take k) then p.take (k + 1) else []) ++ r.1, r.2)
termination_by p.length
decreasing_by
  have := strchr_lt _h
  rw [List.length_drop]
  omega

/-- What `grep` keeps for the next read: nothing if there was no newline. -/
def keep (buf p : List Char) : List Char := if p.length = buf.length then [] else p

/-- `grep` with `m` in its buffer, when `read` returns these chunks before it returns 0. -/
def grep (pattern : List Char) : List Char → List (List Char) → List Char
  | _, [] => []
  | m, chunk :: chunks =>
    let r := grepLines pattern (m ++ chunk)
    r.1 ++ grep pattern (keep (m ++ chunk) r.2) chunks

/-- The chunks are not empty, and each fits into the rest of `buf`. -/
def Fits (pattern : List Char) : List Char → List (List Char) → Prop
  | _, [] => True
  | m, chunk :: chunks => chunk ≠ [] ∧ m.length + chunk.length ≤ 1023 ∧
      Fits pattern (keep (m ++ chunk) (grepLines pattern (m ++ chunk)).2) chunks

theorem Fits.ne {pattern m : List Char} {chunks : List (List Char)} (h : Fits pattern m chunks) :
    ∀ c ∈ chunks, c ≠ [] := by
  induction chunks generalizing m with
  | nil => simp
  | cons c cs ih => exact List.forall_mem_cons.2 ⟨h.1, ih h.2.2⟩

/-- Lines with their newlines. -/
def text (ls : List (List Char)) : List Char := ls.flatMap (· ++ ['\n'])

theorem strchr_line {l : List Char} (hl : '\n' ∉ l) (h0 : '\x00' ∉ l) (s : List Char) :
    strchr '\n' (l ++ '\n' :: s) = some l.length := by
  induction l with
  | nil => simp [strchr]
  | cons a l ih =>
    simp only [List.mem_cons, not_or] at hl h0
    simp [strchr, Ne.symm hl.1, Ne.symm h0.1, ih hl.2 h0.2]

theorem strchr_none (h : '\n' ∉ s) : strchr '\n' s = none := by
  induction s with
  | nil => rfl
  | cons a s ih =>
    simp only [List.mem_cons, not_or] at h
    simp [strchr, Ne.symm h.1, ih h.2]

theorem grepLines_none {p : List Char} (pattern : List Char) (h : strchr '\n' p = none) :
    grepLines pattern p = ([], p) := by
  rw [grepLines]
  split
  · rfl
  · simp_all

theorem grepLines_some {p : List Char} {k : ℕ} (pattern : List Char) (h : strchr '\n' p = some k) :
    grepLines pattern p = ((if matchText pattern (p.take k) then p.take (k + 1) else []) ++
        (grepLines pattern (p.drop (k + 1))).1, (grepLines pattern (p.drop (k + 1))).2) := by
  rw [grepLines]
  split
  · simp_all
  · rename_i k' hk
    obtain rfl : k' = k := Option.some.inj (hk.symm.trans h)
    rfl

variable {ls : List (List Char)} {chunks : List (List Char)}

theorem grepLines_text (pattern : List Char) (ls : List (List Char))
    (hls : ∀ l ∈ ls, '\n' ∉ l ∧ '\x00' ∉ l) {r : List Char}
    (hr : '\n' ∉ r) :
    grepLines pattern (text ls ++ r) = (text (ls.filter (matchText pattern)), r) := by
  induction ls with
  | nil => exact grepLines_none pattern (strchr_none hr)
  | cons l ls ih =>
    have hl := hls l (by simp)
    have heq : text (l :: ls) ++ r = l ++ '\n' :: (text ls ++ r) := by simp [text]
    have hdrop : (l ++ '\n' :: (text ls ++ r)).drop (l.length + 1) = text ls ++ r := by
      simp [List.drop_append]
    have htake : (l ++ '\n' :: (text ls ++ r)).take (l.length + 1) = l ++ ['\n'] := by
      simp [List.take_append]
    rw [heq, grepLines_some pattern (strchr_line hl.1 hl.2 _), hdrop, htake,
      List.take_left, ih fun l hl => hls l (by simp [hl])]
    cases hm : matchText pattern l
    · simp [text, hm]
    · simp [text, hm]

/-- A piece from the beginning of a text: whole lines, and a part of the next one. -/
theorem text_split {b d : List Char} (hls : ∀ l ∈ ls, '\n' ∉ l) (h : b ++ d = text ls) :
    ∃ ls1 ls2 r, ls = ls1 ++ ls2 ∧ b = text ls1 ++ r ∧ '\n' ∉ r ∧ r ++ d = text ls2 := by
  induction ls generalizing b with
  | nil =>
    obtain ⟨rfl, rfl⟩ := List.append_eq_nil_iff.1 (show b ++ d = [] from h)
    exact ⟨[], [], [], rfl, rfl, by simp, rfl⟩
  | cons l ls ih =>
    have hcons : text (l :: ls) = (l ++ ['\n']) ++ text ls := by simp [text]
    rw [hcons] at h
    rcases List.append_eq_append_iff.1 h with ⟨s, hs, hd⟩ | ⟨s, rfl, hs⟩
    · -- the piece ends in the first line, before its newline or behind it
      rcases List.eq_nil_or_concat s with rfl | ⟨s, a, rfl⟩
      · rw [List.append_nil] at hs
        exact ⟨[l], ls, [], rfl, by simp [text, ← hs], by simp, by simpa using hd⟩
      rw [List.concat_eq_append, ← List.append_assoc] at hs
      obtain ⟨rfl, -⟩ := List.append_inj' hs rfl
      refine ⟨[], _, b, rfl, rfl, fun hb => hls (b ++ s) (by simp) (by simp [hb]), ?_⟩
      rw [h, hcons]
    · obtain ⟨ls1, ls2, r, rfl, rfl, hr, hd⟩ := ih (fun l hl => hls l (by simp [hl])) hs.symm
      exact ⟨l :: ls1, ls2, r, rfl, by simp [text], hr, hd⟩

/-- While every read brings a newline, nothing is dropped. -/
theorem grep_text (pattern : List Char) (hls : ∀ l ∈ ls, '\n' ∉ l ∧ '\x00' ∉ l) {m : List Char}
    (hm : '\n' ∉ m) (hin : m ++ chunks.flatten = text ls) (hnl : ∀ c ∈ chunks, '\n' ∈ c) :
    grep pattern m chunks = text (ls.filter (matchText pattern)) := by
  induction chunks generalizing m ls with
  | nil =>
    -- no line is left, for it would end in a newline
    cases ls with
    | nil => rfl
    | cons l ls =>
      rw [List.flatten_nil, List.append_nil] at hin
      exact absurd (by simp [hin, text]) hm
  | cons c cs ih =>
    rw [List.flatten_cons, ← List.append_assoc] at hin
    obtain ⟨ls1, ls2, r, rfl, hb, hr, hd⟩ := text_split (fun l hl => (hls l hl).1) hin
    have hlines := grepLines_text pattern ls1 (fun l hl => hls l (List.mem_append_left _ hl)) hr
    rw [← hb] at hlines
    have hkeep : keep (m ++ c) r = r := by
      refine if_neg fun hlen => hr ?_
      have hnil : text ls1 = [] := by
        rw [hb, List.length_append] at hlen
        exact List.length_eq_zero_iff.1 (by omega)
      rw [hnil, List.nil_append] at hb
      rw [← hb]
      exact List.mem_append_right _ (hnl c (by simp))
    have hrest := ih (fun l hl => hls l (List.mem_append_right _ hl)) hr hd
      fun c hc => hnl c (by simp [hc])
    simp only [grep, hlines, hkeep, hrest]
    simp [text]

theorem matchText_nil (text : List Char) : matchText [] text = true := by
  cases text with
  | nil => simp [matchText, matchLoop, matchhere]
  | cons t text => simp [matchText, matchLoop, matchhere]

theorem strchr_newline (h0 : '\x00' ∉ s) (h : strchr '\n' s = none) : '\n' ∉ s := by
  induction s with
  | nil => simp
  | cons a s ih =>
    simp only [List.mem_cons, not_or] at h0 ⊢
    simp only [strchr, Ne.symm h0.1, if_false] at h
    split_ifs at h with ha
    exact ⟨Ne.symm ha, ih h0.2 (Option.map_eq_none_iff.1 h)⟩

/-- The empty pattern matches every line, and what is left has no newline. -/
theorem grepLines_nil (p : List Char) : (grepLines [] p).1 ++ (grepLines [] p).2 = p ∧
    ('\x00' ∉ p → '\n' ∉ (grepLines [] p).2) := by
  induction hn : p.length using Nat.strong_induction_on generalizing p with
  | _ n ih =>
    rcases h : strchr '\n' p with _ | k
    · rw [grepLines_none [] h]
      exact ⟨rfl, fun h0 => strchr_newline h0 h⟩
    have hlt := strchr_lt h
    obtain ⟨hrest, hnl⟩ := ih _ (by rw [List.length_drop]; omega) (p.drop (k + 1)) rfl
    rw [grepLines_some [] h, if_pos (matchText_nil _), List.append_assoc, hrest,
      List.take_append_drop]
    exact ⟨rfl, fun h0 => hnl fun hmem => h0 (List.mem_of_mem_drop hmem)⟩

/-- With the empty pattern at most the input is written, and less if a read without a newline lost
what it brought. -/
theorem grep_length {m : List Char} (hm : '\n' ∉ m) (hm0 : '\x00' ∉ m)
    (hc : ∀ c ∈ chunks, c ≠ [] ∧ '\x00' ∉ c) :
    (grep [] m chunks).length ≤ m.length + chunks.flatten.length ∧ ((∃ c ∈ chunks, '\n' ∉ c) →
        (grep [] m chunks).length < m.length + chunks.flatten.length) := by
  induction chunks generalizing m with
  | nil => simp [grep]
  | cons c cs ih =>
    obtain ⟨hne, hc0⟩ := hc c (by simp)
    have hb0 : '\x00' ∉ m ++ c := by simp [hm0, hc0]
    obtain ⟨hsum, hnl⟩ := grepLines_nil (m ++ c)
    have hlen := congrArg List.length hsum
    rw [List.length_append, List.length_append] at hlen
    have hpos := List.length_pos_iff.2 hne
    simp only [grep, List.length_append, List.flatten_cons]
    set r := grepLines [] (m ++ c)
    have hr0 : '\x00' ∉ r.2 := fun h => hb0 (hsum ▸ List.mem_append_right _ h)
    have hcs : ∀ c ∈ cs, c ≠ [] ∧ '\x00' ∉ c := fun c h => hc c (by simp [h])
    unfold keep
    split_ifs with hkeep
    · -- nothing is kept, and `r.2` is not empty
      rw [List.length_append] at hkeep
      have := (ih (m := []) (by simp) (by simp) hcs).1
      rw [List.length_nil] at this
      exact ⟨by omega, fun _ => by omega⟩
    have := ih (hnl hb0) hr0 hcs
    refine ⟨by omega, ?_⟩
    rintro ⟨c', hc', hnl'⟩
    rcases List.mem_cons.1 hc' with rfl | hc'
    · refine absurd ?_ hkeep
      have hnone : strchr '\n' (m ++ c') = none := strchr_none (by simp [hm, hnl'])
      rw [show r = _ from grepLines_none [] hnone]
    · have := this.2 ⟨c', hc', hnl'⟩
      omega

/-- `grep` writes the lines that match, for every pattern, exactly if each read brings a newline: a
chunk without one is dropped, with what was kept of its line. -/
theorem grep_lines_iff (hls : ∀ l ∈ ls, l.length + 1 ≤ 1022 ∧ '\n' ∉ l ∧ '\x00' ∉ l)
    (hin : chunks.flatten = text ls) (hfit : ∀ pattern, Fits pattern [] chunks) :
    (∀ pattern, grep pattern [] chunks = text (ls.filter (matchText pattern))) ↔
      ∀ c ∈ chunks, '\n' ∈ c := by
  constructor
  · intro h c hc
    by_contra hnl
    have hall : ls.filter (matchText []) = ls :=
      List.filter_eq_self.2 fun l _ => matchText_nil l
    have heq := h []
    rw [hall, ← hin] at heq
    have hnul : '\x00' ∉ chunks.flatten := by
      rw [hin, text, List.mem_flatMap]
      rintro ⟨l, hl, hmem⟩
      rcases List.mem_append.1 hmem with hmem | hmem
      · exact (hls l hl).2.2 hmem
      · simp at hmem
    have hlt := (grep_length (m := []) (by simp) (by simp) fun c hc =>
      ⟨(hfit []).ne c hc, fun h0 => hnul (List.mem_flatten.2 ⟨c, hc, h0⟩)⟩).2 ⟨c, hc, hnl⟩
    rw [heq, List.length_nil, zero_add] at hlt
    exact lt_irrefl _ hlt
  · intro h pattern
    exact grep_text pattern (fun l hl => (hls l hl).2) (by simp) hin h

theorem grep_lines_twoReads : grep ['b'] [] [['a', '\n', 'b'], ['\n']] =
    text ([['a'], ['b']].filter (matchText ['b'])) := by
  refine (grep_lines_iff (by decide) (by decide) fun pattern => ?_).2 (by decide) ['b']
  have hlines : grepLines pattern ['a', '\n', 'b'] =
      (text ([['a']].filter (matchText pattern)), ['b']) :=
    grepLines_text pattern [['a']] (by decide) (by decide)
  simp [Fits, hlines, keep]

/-- The line `ab` in two reads: the second read brings `b` alone. -/
theorem grep_drops : grep ['a'] [] [['a'], ['b', '\n']] ≠
    text ([['a', 'b']].filter (matchText ['a'])) := by
  have h1 : grepLines ['a'] ['a'] = ([], ['a']) := grepLines_none _ rfl
  have h2 : grepLines ['a'] ['b', '\n'] = ([], []) := by
    rw [grepLines_some (k := 1) _ rfl, grepLines_none _ rfl]
    simp [matchText, matchLoop, matchhere]
  have hm : matchText ['a'] ['a', 'b'] = true := by simp [matchText, matchLoop, matchhere]
  simp [grep, h1, h2, keep, hm, text]

end Xv6.Grep

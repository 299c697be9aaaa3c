import Xv6Cow.Lib.Own
import Xv6Cow.Log.Crash

/-!
# The buffer cache under the log

`CacheOk disk D val c`: the buffers hold distinct blocks, a clean buffer holds what is on disk, and
the dirty buffers are those of the blocks in `D`, with the data `val`.  Every `bread` then returns
the current data.
-/

namespace Xv6

open Function Lts Cache

structure CacheOk (disk : ℕ → Block) (D : List ℕ) (val : ℕ → Block) (c : Cache) : Prop where
  inj : ∀ {i j x y}, c i = some x → c j = some y → x.block = y.block → i = j
  clean : ∀ {i x}, c i = some x → x.dirty = false → x.data = disk x.block
  dirty : ∀ {i x}, c i = some x → x.dirty = true → x.block ∈ D ∧ x.data = val x.block
  pending : ∀ {b}, b ∈ D → ∃ i x, c i = some x ∧ x.block = b ∧ x.dirty = true

variable {disk : ℕ → Block} {D D' : List ℕ} {val val' : ℕ → Block} {c c' : Cache} {i j : Fin nbuf}
  {x y : Buf} {b : ℕ} {d : Block}

theorem CacheOk.empty (disk val : ℕ → Block) : CacheOk disk [] val fun _ => none :=
  ⟨nofun, nofun, nofun, nofun⟩

section

variable (h : CacheOk disk D val c)

include h

theorem CacheOk.congr (hD : ∀ b, b ∈ D' ↔ b ∈ D)
    (hval : ∀ b ∈ D, val' b = val b) : CacheOk disk D' val' c where
  inj := h.inj
  clean := h.clean
  dirty hi hx := by
    obtain ⟨hmem, hdata⟩ := h.dirty hi hx
    exact ⟨(hD _).2 hmem, by rw [hdata, hval _ hmem]⟩
  pending hb := h.pending ((hD _).1 hb)

theorem CacheOk.data_of_mem (hi : c i = some x) (hb : x.block ∈ D) : x.data = val x.block := by
  obtain ⟨j, y, hj, hy, hdirty⟩ := h.pending hb
  obtain rfl := h.inj hi hj hy.symm
  obtain rfl : x = y := by rwa [hi, Option.some.injEq] at hj
  exact (h.dirty hi hdirty).2

theorem CacheOk.data_of_notMem (hi : c i = some x) (hb : x.block ∉ D) : x.data = disk x.block := by
  refine h.clean hi ?_
  by_contra hd
  exact hb (h.dirty hi (by simpa using hd)).1

/-- Buffer `i` is replaced; the blocks other than its new one stay as they were. -/
theorem CacheOk.set {disk' : ℕ → Block} (hold : ∀ {y}, c i = some y → y.dirty = true →
    y.block = x.block)
    (hother : ∀ {j y}, j ≠ i → c j = some y → y.block ≠ x.block)
    (hsame : ∀ b, b ≠ x.block → disk' b = disk b ∧ val' b = val b ∧ (b ∈ D' ↔ b ∈ D))
    (hmem : x.block ∈ D' ↔ x.dirty = true)
    (hdata : x.data = if x.dirty then val' x.block else disk' x.block) :
    CacheOk disk' D' val' (update c i (some x)) where
  inj hj hk e := inj_update_some h.inj hother hj hk e
  clean {j y} hj hy := by
    rcases of_update_some hj with ⟨rfl, rfl⟩ | ⟨hne, hj⟩
    · rw [hdata, hy]
      rfl
    · rw [(hsame _ (hother hne hj)).1]
      exact h.clean hj hy
  dirty {j y} hj hy := by
    rcases of_update_some hj with ⟨rfl, rfl⟩ | ⟨hne, hj⟩
    · rw [hdata, hy]
      exact ⟨hmem.2 hy, rfl⟩
    · obtain ⟨-, hval, hD⟩ := hsame _ (hother hne hj)
      rw [hval, hD]
      exact h.dirty hj hy
  pending {b} hb := by
    by_cases e : b = x.block
    · subst e
      exact ⟨i, x, update_self .., rfl, hmem.1 hb⟩
    obtain ⟨j, y, hj, hy, hdirty⟩ := h.pending ((hsame b e).2.2.1 hb)
    have hji : j ≠ i := by
      rintro rfl
      exact e (hy.symm.trans (hold hj hdirty))
    exact ⟨j, y, by rwa [update_of_ne hji], hy, hdirty⟩

theorem CacheOk.setBuf {disk' : ℕ → Block} {y : Buf} (hi : c i = some x) (hb : y.block = x.block)
    (hsame : ∀ b, b ≠ x.block → disk' b = disk b ∧ val' b = val b ∧ (b ∈ D' ↔ b ∈ D))
    (hmem : x.block ∈ D' ↔ y.dirty = true)
    (hdata : y.data = if y.dirty then val' x.block else disk' x.block) :
    CacheOk disk' D' val' (update c i (some y)) := by
  rw [← hb] at hsame hmem hdata
  refine h.set (fun hz _ => ?_) (fun hne hj e => hne (h.inj hj hi (e.trans hb))) hsame hmem hdata
  rw [hi] at hz
  cases hz
  exact hb.symm

theorem CacheOk.setRefcnt (hi : c i = some x) (n : ℕ) :
    CacheOk disk D val (update c i (some { x with refcnt := n })) := by
  refine h.setBuf hi rfl (fun _ _ => ⟨rfl, rfl, Iff.rfl⟩) ⟨fun hm => ?_, fun hd => (h.dirty hi hd).1⟩ ?_
  · obtain ⟨j, y, hj, hy, hdirty⟩ := h.pending hm
    obtain rfl := h.inj hj hi hy
    rw [hi] at hj
    cases hj
    exact hdirty
  · dsimp only
    split_ifs with hd
    · exact (h.dirty hi hd).2
    · exact h.clean hi (Bool.not_eq_true _ ▸ hd)

theorem CacheOk.brelse (i : Fin nbuf) : CacheOk disk D val (c.brelse i) := by
  unfold Cache.brelse
  cases hi : c i with
  | none =>
    have hid := update_eq_self i c
    rw [hi] at hid
    rw [Option.map_none, hid]
    exact h
  | some x => exact h.setRefcnt hi _

theorem CacheOk.bread (hr : Bread disk b c i c') :
    CacheOk disk D val c' ∧ ∃ x, c' i = some x ∧ x.block = b ∧ 0 < x.refcnt := by
  cases hr with
  | @hit x hi hb =>
    exact ⟨h.setRefcnt hi _, _, update_self .., hb, Nat.succ_pos _⟩
  | recycle hb hi =>
    refine ⟨h.set (fun hy hd => ?_) (fun _ hj => hb _ _ hj) (fun _ _ => ⟨rfl, rfl, Iff.rfl⟩)
      (iff_of_false (fun hm => ?_) Bool.false_ne_true) rfl, _, update_self .., rfl, Nat.one_pos⟩
    · -- a dirty buffer is not the one that is recycled
      rw [(hi _ hy).2] at hd
      cases hd
    · obtain ⟨j, y, hj, hy, -⟩ := h.pending hm
      exact hb j y hj hy

theorem CacheOk.bread_some (hr : Bread disk b c i c') (hx : c' i = some x) :
    CacheOk disk D val c' ∧ x.block = b := by
  obtain ⟨hok, y, hy, hb, -⟩ := h.bread hr
  obtain rfl : x = y := by rwa [hx, Option.some.injEq] at hy
  exact ⟨hok, hb⟩

end

theorem Cache.Bread.keeps (hr : Bread disk b c i c') (hj : c j = some y) (hy : 0 < y.refcnt) :
    ∃ y', c' j = some y' ∧ y'.block = y.block ∧ y'.data = y.data := by
  cases hr with
  | @hit x hi hb =>
    by_cases e : j = i
    · subst e
      obtain rfl : x = y := by rwa [hi, Option.some.injEq] at hj
      exact ⟨_, update_self .., rfl, rfl⟩
    · exact ⟨y, by rwa [update_of_ne e], rfl, rfl⟩
  | recycle hb hi =>
    have hne : j ≠ i := by
      rintro rfl
      rw [(hi y hj).1] at hy
      cases hy
    exact ⟨y, by rwa [update_of_ne hne], rfl, rfl⟩

theorem CacheOk.bwrite (h : CacheOk disk D val c) (hi : c i = some x)
    (hD : ∀ b, b ∈ D' ↔ b ∈ D ∧ b ≠ x.block) :
    CacheOk (update disk x.block d) D' val (c.bwrite i d) := by
  rw [Cache.bwrite, hi]
  refine h.setBuf hi rfl (fun b hb => ⟨update_of_ne hb .., rfl, (hD b).trans (and_iff_left hb)⟩) ?_
    (by simp)
  exact iff_of_false (fun hm => ((hD _).1 hm).2 rfl) Bool.false_ne_true

theorem CacheOk.modify (h : CacheOk disk D val c) (hi : c i = some x)
    (hD : ∀ b, b ∈ D' ↔ b ∈ D ∨ b = x.block) :
    CacheOk disk D' (update val x.block d) (c.modify i d) := by
  rw [Cache.modify, hi]
  exact h.setBuf hi rfl (fun b hb => ⟨rfl, update_of_ne hb .., (hD b).trans (or_iff_left hb)⟩)
    (iff_of_true ((hD _).2 (.inr rfl)) rfl) (by simp)

/-- The dirty buffers leave room for one more block. -/
theorem CacheOk.length_lt (h : CacheOk disk D val c) (hnd : D.Nodup) (hb : b ∉ D)
    (hr : Bread disk b c i c') : D.length < nbuf := by
  have hne : ∀ {j y}, c j = some y → y.block ∈ D → j ≠ i := by
    rintro j y hj hy rfl
    cases hr with
    | @hit x hi hx =>
      obtain rfl : x = y := by rwa [hi, Option.some.injEq] at hj
      exact hb (hx ▸ hy)
    | recycle hb' hi =>
      obtain ⟨k, z, hk, hz, hdirty⟩ := h.pending hy
      obtain rfl := h.inj hj hk hz.symm
      rw [(hi z hk).2] at hdirty
      cases hdirty
  choose f y hf hy _ using fun b : D.toFinset => h.pending (List.mem_toFinset.1 b.2)
  have hinj : Injective f := by
    intro b b' e
    have hyy : y b = y b' := by
      have := hf b
      rw [e, hf b', Option.some.injEq] at this
      exact this.symm
    exact Subtype.ext (by rw [← hy b, ← hy b', hyy])
  have hnot : i ∉ Finset.univ.image f := by
    simp only [Finset.mem_image, Finset.mem_univ, true_and, not_exists]
    exact fun b e => hne (hf b) (by rw [hy b]; exact List.mem_toFinset.1 b.2) e
  have hlt : (Finset.univ.image f).card < Fintype.card (Fin nbuf) :=
    Finset.card_lt_univ_of_notMem hnot
  rw [Finset.card_image_of_injective _ hinj, Finset.card_univ, Fintype.card_coe,
    List.toFinset_card_of_nodup hnd, Fintype.card_fin] at hlt
  exact hlt

end Xv6

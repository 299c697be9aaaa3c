import Xv6Cow.Fs.Walk

/-!
# Directories and link counts

The first two entries of a directory are `.` and `..`; the others are its proper entries.  `Tree`
says what holds of the inodes between any two updates.  The `..` of a directory without a proper entry
is not counted: `unlink` has given its link back.
-/

namespace Xv6.Names

open Function Finset

/-- The entries after `.` and `..`. -/
def entries (ino : ℕ → Dinode) (d : ℕ) : List Dirent := (ino d).ents.drop 2

/-- What `..` names. -/
def parentOf (ino : ℕ → Dinode) (d : ℕ) : ℕ :=
  match (ino d).ents with
  | _ :: e :: _ => e.inum
  | _ => 0

/-- Proper entries that name `i`. -/
def named (ino : ℕ → Dinode) (i : ℕ) : ℕ :=
  ∑ d ∈ range ninodes, (entries ino d).countP fun e => e.inum = i

/-- Proper entries of `d` that name directories. -/
def childDirs (ino : ℕ → Dinode) (d : ℕ) : ℕ :=
  (entries ino d).countP fun e => (ino e.inum).type = .dir

/-- The links that must be there: for the root, `mkfs` counts its own `..`. -/
def needed (ino : ℕ → Dinode) (i : ℕ) : ℕ :=
  named ino i + childDirs ino i + if i = rootino then 1 else 0

/-- The inodes after `unlink` has cleared the entry in a slot of `dp`. -/
def cleared (ino : ℕ → Dinode) (dp slot : ℕ) : ℕ → Dinode :=
  update ino dp ⟨(ino dp).type, (ino dp).nlink, (ino dp).ents.set slot ⟨0, []⟩⟩

structure Tree (ino : ℕ → Dinode) : Prop where
  plain : ∀ i, (ino i).type ≠ .dir → (ino i).ents = []
  dots : ∀ d, (ino d).type = .dir →
    ∃ p es, (ino d).ents = ⟨d, dot⟩ :: ⟨p, dotdot⟩ :: es ∧ p ≠ 0
  inRange : InRange ino
  onDisk : ∀ i, (ino i).type ≠ .free → 0 < i ∧ i < ninodes
  alloc : ∀ d, ∀ e ∈ entries ino d, e.inum ≠ 0 → (ino e.inum).type ≠ .free
  parent : ∀ d, ∀ e ∈ entries ino d, (ino e.inum).type = .dir →
    parentOf ino e.inum = d ∧ e.inum ≠ rootino ∧ e.inum ≠ d
  once : ∀ d, (ino d).type = .dir → named ino d ≤ 1
  count : ∀ i, i ≠ 0 → (needed ino i : ℤ) ≤ (ino i).nlink
  root : (ino rootino).type = .dir ∧ parentOf ino rootino = rootino

/-! ## Lists of entries -/

section Lists

variable {es : List Dirent} {e x : Dirent} {P : Dirent → Bool}

theorem mem_putEntry (h : x ∈ putEntry e es) : x = e ∨ x ∈ es := by
  induction es with
  | nil => simpa [putEntry] using h
  | cons d ds ih =>
    rw [putEntry] at h
    split_ifs at h with hd
    · rcases List.mem_cons.1 h with rfl | h
      · exact .inl rfl
      · exact .inr (List.mem_cons_of_mem _ h)
    · rcases List.mem_cons.1 h with rfl | h
      · exact .inr List.mem_cons_self
      · exact (ih h).imp_right (List.mem_cons_of_mem _)

theorem countP_putEntry (e : Dirent) (es : List Dirent)
    (hP : ∀ d : Dirent, d.inum = 0 → P d = false) :
    (putEntry e es).countP P = es.countP P + if P e then 1 else 0 := by
  induction es with
  | nil => simp [putEntry, List.countP_cons]
  | cons d ds ih =>
    rw [putEntry]
    by_cases hd : d.inum = 0
    · simp [hd, hP d hd, List.countP_cons]
    · rw [if_neg hd, List.countP_cons, List.countP_cons, ih]
      omega

theorem countP_set_unused (hP : P ⟨0, []⟩ = false) {k : ℕ} (he : es[k]? = some e) :
    (es.set k ⟨0, []⟩).countP P + (if P e then 1 else 0) = es.countP P := by
  induction es generalizing k with
  | nil => simp at he
  | cons d ds ih =>
    cases k with
    | zero =>
      obtain rfl : d = e := by simpa using he
      simp [List.countP_cons, hP]
    | succ k =>
      have := ih (k := k) (by simpa using he)
      simp only [List.set_cons_succ, List.countP_cons]
      omega

end Lists

/-! ## One inode changes -/

variable {ino ino' : ℕ → Dinode} {i j d dp : ℕ} {x : Dinode}

theorem named_eq_add (hd : d < ninodes) (j : ℕ) :
    named ino j = (entries ino d).countP (fun e => e.inum = j) +
      ∑ c ∈ (range ninodes).erase d, (entries ino c).countP fun e => e.inum = j :=
  (add_sum_erase _ _ (mem_range.2 hd)).symm

theorem named_update (hd : d < ninodes) (j : ℕ) :
    named (update ino d x) j + (entries ino d).countP (fun e => e.inum = j) =
      named ino j + (x.ents.drop 2).countP (fun e => e.inum = j) := by
  have hrest : ∑ c ∈ (range ninodes).erase d,
      (entries (update ino d x) c).countP (fun e => e.inum = j) =
      ∑ c ∈ (range ninodes).erase d, (entries ino c).countP fun e => e.inum = j := by
    refine sum_congr rfl ?_
    intro c hc
    simp [entries, ne_of_mem_erase hc]
  have hold : named ino j = _ := named_eq_add hd j
  have hnew : named (update ino d x) j = _ := named_eq_add hd j
  rw [hold, hnew, hrest]
  simp [entries]
  omega

theorem needed_setEntries (ino : ℕ → Dinode) (a b : Dirent) (es : List Dirent) (hlt : dp < ninodes)
    (j : ℕ) : needed (update ino dp ⟨(ino dp).type, (ino dp).nlink, a :: b :: es⟩) j +
        (entries ino dp).countP (fun e => e.inum = j) + (if j = dp then childDirs ino dp else 0) =
      needed ino j + es.countP (fun e => e.inum = j) +
        if j = dp then es.countP (fun e => (ino e.inum).type = .dir) else 0 := by
  set ino' := update ino dp ⟨(ino dp).type, (ino dp).nlink, a :: b :: es⟩ with hino
  have htype : ∀ j, (ino' j).type = (ino j).type := by
    intro j
    by_cases hj : j = dp
    · subst hj
      simp [hino]
    · simp [hino, hj]
  have hnamed : named ino' j + _ = named ino j + _ := named_update hlt j
  simp only [List.drop_succ_cons, List.drop_zero] at hnamed
  by_cases hj : j = dp
  · subst hj
    have hchild : childDirs ino' j = es.countP fun e => (ino e.inum).type = .dir := by
      simp only [childDirs, htype]
      simp [hino, entries]
    simp only [needed, hchild, if_true]
    omega
  · have hchild : childDirs ino' j = childDirs ino j := by
      simp only [childDirs, htype]
      simp [hino, entries, hj]
    simp only [needed, hchild, hj, if_false]
    omega

@[simp] theorem entries_update_self : entries (update ino i x) i = x.ents.drop 2 := by
  simp [entries]

@[simp] theorem entries_update_of_ne (h : d ≠ i) : entries (update ino i x) d = entries ino d := by
  simp [entries, h]

@[simp] theorem parentOf_update_of_ne (h : d ≠ i) :
    parentOf (update ino i x) d = parentOf ino d := by
  simp [parentOf, h]

theorem needed_free_le (hlt : d < ninodes) (hne : i ≠ d) :
    needed (update ino d ⟨.free, 0, []⟩) i ≤ needed ino i := by
  have hnamed : named (update ino d ⟨.free, 0, []⟩) i + _ = named ino i + _ := named_update hlt i
  have hchild : childDirs (update ino d ⟨.free, 0, []⟩) i ≤ childDirs ino i := by
    have hents : entries (update ino d ⟨.free, 0, []⟩) i = entries ino i := by
      simp [entries, hne]
    rw [childDirs, childDirs, hents]
    refine List.countP_mono_left fun e _ h => ?_
    by_cases hed : e.inum = d
    · simp [hed] at h
    · simpa [hed] using h
  simp only [List.drop_nil, List.countP_nil] at hnamed
  unfold needed
  omega

theorem named_pos_of_mem {e : Dirent} (hd : d < ninodes) (he : e ∈ entries ino d) :
    0 < named ino e.inum := by
  rw [named_eq_add hd]
  have : 0 < (entries ino d).countP fun x => x.inum = e.inum :=
    List.countP_pos_iff.2 ⟨e, he, by simp⟩
  omega

theorem exists_of_named_pos (h : 0 < named ino i) :
    ∃ d < ninodes, ∃ e ∈ entries ino d, e.inum = i := by
  obtain ⟨d, hd, hpos⟩ := Finset.exists_ne_zero_of_sum_ne_zero (Nat.pos_iff_ne_zero.1 h)
  obtain ⟨e, he, hei⟩ := List.countP_pos_iff.1 (Nat.pos_of_ne_zero hpos)
  exact ⟨d, mem_range.1 hd, e, he, by simpa using hei⟩

/-! ## Changes that keep the shape -/

section Shape

variable (hs : ∀ i, (ino' i).type = (ino i).type ∧ (ino' i).ents = (ino i).ents)
include hs

theorem entries_congr (d : ℕ) : entries ino' d = entries ino d := by
  rw [entries, entries, (hs d).2]

theorem parentOf_congr (d : ℕ) : parentOf ino' d = parentOf ino d := by
  rw [parentOf, parentOf, (hs d).2]

theorem named_congr (i : ℕ) : named ino' i = named ino i := by
  simp only [named, entries_congr hs]

theorem needed_congr (i : ℕ) : needed ino' i = needed ino i := by
  simp only [needed, named_congr hs, childDirs, entries_congr hs, (hs _).1]

theorem Tree.congr (h : Tree ino)
    (count : ∀ i, i ≠ 0 → (needed ino i : ℤ) ≤ (ino' i).nlink) : Tree ino' where
  plain i := by
    rw [(hs i).1, (hs i).2]
    exact h.plain i
  dots d := by
    rw [(hs d).1, (hs d).2]
    exact h.dots d
  inRange d := by
    rw [(hs d).2]
    exact h.inRange d
  onDisk i := by
    rw [(hs i).1]
    exact h.onDisk i
  alloc d := by
    rw [entries_congr hs]
    intro e he
    rw [(hs e.inum).1]
    exact h.alloc d e he
  parent d := by
    rw [entries_congr hs]
    intro e he
    rw [(hs e.inum).1, parentOf_congr hs]
    exact h.parent d e he
  once d := by
    rw [(hs d).1, named_congr hs]
    exact h.once d
  count i := by
    rw [needed_congr hs]
    exact count i
  root := by
    rw [(hs _).1, parentOf_congr hs]
    exact h.root

end Shape

theorem setLinks_shape (n : ℤ) (j : ℕ) :
    (update ino i ⟨(ino i).type, n, (ino i).ents⟩ j).type = (ino j).type ∧
      (update ino i ⟨(ino i).type, n, (ino i).ents⟩ j).ents = (ino j).ents := by
  by_cases hj : j = i
  · subst hj
    simp
  · simp [hj]

theorem Tree.setLinks (h : Tree ino) {n : ℤ} (hn : (needed ino i : ℤ) ≤ n) :
    Tree (update ino i ⟨(ino i).type, n, (ino i).ents⟩) := by
  refine h.congr (setLinks_shape n) ?_
  intro j hj
  by_cases hji : j = i
  · subst hji
    simpa using hn
  · simpa [hji] using h.count j hj

/-! ## Facts about a tree -/

namespace Tree

variable (h : Tree ino)
include h

theorem type_zero : (ino 0).type = .free := by
  by_contra hne
  exact absurd (h.onDisk 0 hne).1 (lt_irrefl 0)

variable {e : Dirent}

theorem dir_of_mem (he : e ∈ (ino d).ents) : (ino d).type = .dir := by
  by_contra hne
  rw [h.plain d hne] at he
  cases he

theorem lt_of_mem (he : e ∈ (ino d).ents) : d < ninodes := by
  refine (h.onDisk d ?_).2
  rw [h.dir_of_mem he]
  nofun

theorem named_of_mem (he : e ∈ entries ino d) : 0 < named ino e.inum :=
  named_pos_of_mem (h.lt_of_mem (List.mem_of_mem_drop he)) he

theorem named_of_free (hi : i ≠ 0) (hfree : (ino i).type = .free) : named ino i = 0 := by
  by_contra hne
  obtain ⟨d, -, e, he, rfl⟩ := exists_of_named_pos (Nat.pos_of_ne_zero hne)
  exact h.alloc d e he hi hfree

theorem ne_self (he : e ∈ entries ino d) : e.inum ≠ d := by
  intro heq
  refine (h.parent d e he ?_).2.2 heq
  rw [heq]
  exact h.dir_of_mem (List.mem_of_mem_drop he)

theorem of_nlink_zero (hi : i ≠ 0) (hn : (ino i).nlink = 0) :
    named ino i = 0 ∧ childDirs ino i = 0 ∧ i ≠ rootino := by
  have := h.count i hi
  rw [hn] at this
  unfold needed at this
  split_ifs at this with hr
  · omega
  · exact ⟨by omega, by omega, hr⟩

theorem replace (hi : named ino i = 0) (h0 : 0 < i) (hlt : i < ninodes) (hroot : i ≠ rootino)
    (hents : x.ents.drop 2 = []) (plain : x.type ≠ .dir → x.ents = [])
    (dots : x.type = .dir → ∃ p es, x.ents = ⟨i, dot⟩ :: ⟨p, dotdot⟩ :: es ∧ p ≠ 0)
    (inRange : ∀ e ∈ x.ents, e.inum < ninodes) (nlink : 0 ≤ x.nlink) :
    Tree (update ino i x) := by
  have hmem : ∀ {d e}, e ∈ entries (update ino i x) d → d ≠ i ∧ e ∈ entries ino d ∧ e.inum ≠ i := by
    intro d e he
    have hdi : d ≠ i := by
      rintro rfl
      rw [entries_update_self, hents] at he
      cases he
    rw [entries_update_of_ne hdi] at he
    refine ⟨hdi, he, fun heq => ?_⟩
    have := h.named_of_mem he
    rw [heq] at this
    omega
  have hnamed : ∀ j, named (update ino i x) j ≤ named ino j := by
    intro j
    have : named (update ino i x) j + _ = named ino j + _ := named_update hlt j
    rw [hents, List.countP_nil] at this
    omega
  refine ⟨fun j => ?_, fun d => ?_, fun d => ?_, fun j => ?_, fun d e he hne => ?_,
    fun d e he => ?_, fun d => ?_, fun j hj => ?_, ?_⟩
  · by_cases hj : j = i
    · subst hj
      simpa using plain
    · simpa [hj] using h.plain j
  · by_cases hd : d = i
    · subst hd
      simpa using dots
    · simpa [hd] using h.dots d
  · by_cases hd : d = i
    · subst hd
      simpa using inRange
    · simpa [hd] using h.inRange d
  · by_cases hj : j = i
    · subst hj
      exact fun _ => ⟨h0, hlt⟩
    · simpa [hj] using h.onDisk j
  · obtain ⟨-, he, hei⟩ := hmem he
    simpa [hei] using h.alloc d e he hne
  · obtain ⟨-, he, hei⟩ := hmem he
    simpa [hei] using h.parent d e he
  · by_cases hd : d = i
    · subst hd
      have := hnamed d
      intro _
      omega
    · intro hdir
      simp only [update_of_ne hd] at hdir
      exact (hnamed d).trans (h.once d hdir)
  · by_cases hji : j = i
    · subst hji
      have hle := hnamed j
      simp only [needed, childDirs, entries_update_self, hents, List.countP_nil, hroot, if_false,
        update_self]
      omega
    have hchild : childDirs (update ino i x) j ≤ childDirs ino j := by
      unfold childDirs
      rw [entries_update_of_ne hji]
      refine List.countP_mono_left ?_
      intro e he
      have : e.inum ≠ i := by
        rintro rfl
        have := h.named_of_mem he
        omega
      simp [this]
    have := hnamed j
    have := h.count j hj
    simp only [needed, update_of_ne hji] at *
    omega
  · simpa [hroot.symm] using h.root

theorem free (ht : (ino i).type ≠ .free) (hn : (ino i).nlink = 0) :
    Tree (update ino i ⟨.free, 0, []⟩) := by
  obtain ⟨h0, hlt⟩ := h.onDisk i ht
  obtain ⟨hnamed, -, hroot⟩ := h.of_nlink_zero (Nat.pos_iff_ne_zero.1 h0) hn
  exact h.replace hnamed h0 hlt hroot rfl (fun _ => rfl) nofun nofun le_rfl

/-- A directory gets new proper entries `es`, of which only `e` is new: what it names, and what they
leave uncounted. -/
theorem setEntries {es : List Dirent} {p : ℕ} (hd : (ino dp).type = .dir)
    (hents : (ino dp).ents = ⟨dp, dot⟩ :: ⟨p, dotdot⟩ :: entries ino dp)
    (mem : ∀ x ∈ es, x = e ∨ x ∈ entries ino dp)
    (alloc : e.inum ≠ 0 → (ino e.inum).type ≠ .free)
    (parent : (ino e.inum).type = .dir → parentOf ino e.inum = dp ∧ e.inum ≠ rootino ∧ e.inum ≠ dp)
    (once : ∀ c, (ino c).type = .dir → named ino c + es.countP (fun e => e.inum = c) ≤
      1 + (entries ino dp).countP (fun e => e.inum = c))
    (count : ∀ i, i ≠ 0 → (needed (update ino dp
      ⟨(ino dp).type, (ino dp).nlink, ⟨dp, dot⟩ :: ⟨p, dotdot⟩ :: es⟩) i : ℤ) ≤ (ino i).nlink) :
    Tree (update ino dp ⟨(ino dp).type, (ino dp).nlink, ⟨dp, dot⟩ :: ⟨p, dotdot⟩ :: es⟩) := by
  set ino' := update ino dp ⟨(ino dp).type, (ino dp).nlink, ⟨dp, dot⟩ :: ⟨p, dotdot⟩ :: es⟩ with hino
  have hlt : dp < ninodes := (h.onDisk dp (by rw [hd]; nofun)).2
  have htype : ∀ j, (ino' j).type = (ino j).type := by
    intro j
    by_cases hj : j = dp
    · subst hj
      simp [hino]
    · simp [hino, hj]
  have hparent : ∀ c, parentOf ino' c = parentOf ino c := by
    intro c
    by_cases hc : c = dp
    · subst hc
      simp [hino, parentOf, hents]
    · exact parentOf_update_of_ne hc
  have hnew : entries ino' dp = es := by simp [hino]
  have hold : ∀ {d}, d ≠ dp → entries ino' d = entries ino d := fun hne => entries_update_of_ne hne
  refine ⟨fun j => ?_, fun d => ?_, fun d => ?_, fun j => ?_, fun d x hx => ?_, fun d x hx => ?_,
    fun c hc => ?_, fun j hj => ?_, ?_⟩
  · by_cases hj : j = dp
    · subst hj
      exact fun hne => absurd ((htype j).trans hd) hne
    · simpa [hino, hj] using h.plain j
  · by_cases hdd : d = dp
    · subst hdd
      obtain ⟨p', es', heq, hp⟩ := h.dots d hd
      obtain ⟨rfl, -⟩ : p = p' ∧ entries ino d = es' := by simpa [heq] using hents.symm
      exact fun _ => ⟨p, es, by simp [hino], hp⟩
    · simpa [hino, hdd] using h.dots d
  · by_cases hdd : d = dp
    · subst hdd
      have hr := h.inRange d
      rw [hents] at hr
      simp only [hino, update_self, List.mem_cons, forall_eq_or_imp] at hr ⊢
      refine ⟨hr.1, hr.2.1, fun x hx => ?_⟩
      rcases mem x hx with rfl | hx
      · by_cases h0 : x.inum = 0
        · rw [h0]
          decide
        · exact (h.onDisk _ (alloc h0)).2
      · exact hr.2.2 x hx
    · simpa [hino, hdd] using h.inRange d
  · rw [htype]
    exact h.onDisk j
  · rw [htype]
    by_cases hdd : d = dp
    · subst hdd
      rcases mem x (hnew ▸ hx) with rfl | hx
      · exact alloc
      · exact h.alloc d x hx
    · exact h.alloc d x (hold hdd ▸ hx)
  · rw [htype, hparent]
    by_cases hdd : d = dp
    · subst hdd
      rcases mem x (hnew ▸ hx) with rfl | hx
      · exact parent
      · exact h.parent d x hx
    · exact h.parent d x (hold hdd ▸ hx)
  · rw [htype] at hc
    have hup : named ino' c + _ = named ino c + _ := named_update hlt c
    simp only [List.drop_succ_cons, List.drop_zero] at hup
    have := once c hc
    omega
  · by_cases hjd : j = dp
    · subst hjd
      simpa [hino] using count j hj
    · have := count j hj
      simpa [hino, hjd] using this
  · rw [htype, hparent]
    exact h.root

theorem ents_eq (hd : (ino d).type = .dir) :
    (ino d).ents = ⟨d, dot⟩ :: ⟨parentOf ino d, dotdot⟩ :: entries ino d ∧ parentOf ino d ≠ 0 := by
  obtain ⟨p, es, heq, hp⟩ := h.dots d hd
  simp [parentOf, entries, heq, hp]

theorem ne_zero_of_dir (hd : (ino d).type = .dir) : d ≠ 0 := by
  refine Nat.pos_iff_ne_zero.1 (h.onDisk d ?_).1
  rw [hd]
  nofun

theorem putEntry_ents (hd : (ino d).type = .dir) (e : Dirent) : putEntry e (ino d).ents =
      ⟨d, dot⟩ :: ⟨parentOf ino d, dotdot⟩ :: putEntry e (entries ino d) := by
  obtain ⟨hents, hp⟩ := h.ents_eq hd
  rw [hents]
  simp [putEntry, h.ne_zero_of_dir hd, hp]

theorem addEntry (hd : (ino dp).type = .dir) (ht : (ino e.inum).type ≠ .free) (hne : e.inum ≠ dp)
    (hspare : (needed ino e.inum : ℤ) + 1 ≤ (ino e.inum).nlink)
    (hdir : (ino e.inum).type = .dir → parentOf ino e.inum = dp ∧ e.inum ≠ rootino ∧
      named ino e.inum = 0 ∧ (needed ino dp : ℤ) + 1 ≤ (ino dp).nlink) :
    Tree (update ino dp ⟨(ino dp).type, (ino dp).nlink, putEntry e (ino dp).ents⟩) := by
  obtain ⟨hents, hp⟩ := h.ents_eq hd
  have hdp := h.ne_zero_of_dir hd
  have hput := h.putEntry_ents hd e
  have hlt : dp < ninodes := (h.onDisk dp (by rw [hd]; nofun)).2
  have hcount : ∀ j, j ≠ 0 → (putEntry e (entries ino dp)).countP (fun x => x.inum = j) =
      (entries ino dp).countP (fun x => x.inum = j) + if e.inum = j then 1 else 0 := by
    intro j hj
    have := countP_putEntry (P := fun x => x.inum = j) e (entries ino dp) ?_
    · simpa using this
    · intro x hx
      simpa [hx] using hj.symm
  rw [hput]
  refine h.setEntries hd hents (fun _ => mem_putEntry) (fun _ => ht)
    (fun hed => ⟨(hdir hed).1, (hdir hed).2.1, hne⟩) ?_ ?_
  · intro c hc
    rw [hcount c (h.ne_zero_of_dir hc)]
    by_cases hec : e.inum = c
    · subst hec
      rw [(hdir hc).2.2.1]
      simp
    · have := h.once c hc
      simp only [hec, if_false]
      omega
  · intro j hj
    have hneed := needed_setEntries ino ⟨dp, dot⟩ ⟨parentOf ino dp, dotdot⟩
      (putEntry e (entries ino dp)) hlt j
    have hdirs : (putEntry e (entries ino dp)).countP (fun x => (ino x.inum).type = .dir) =
        childDirs ino dp + if (ino e.inum).type = .dir then 1 else 0 := by
      have := countP_putEntry (P := fun x => (ino x.inum).type = .dir) e (entries ino dp) ?_
      · simpa [childDirs] using this
      · intro x hx
        simp [hx, h.type_zero]
    rw [hcount j hj, hdirs] at hneed
    have hj' := h.count j hj
    by_cases hje : e.inum = j
    · subst hje
      simp only [hne, if_false, if_true] at hneed
      omega
    by_cases hjd : j = dp
    · subst hjd
      simp only [hne, if_false, if_true] at hneed
      by_cases hed : (ino e.inum).type = .dir
      · have := (hdir hed).2.2.2
        simp only [hed, if_true] at hneed
        omega
      · simp only [hed, if_false] at hneed
        omega
    · simp only [hje, hjd, if_false] at hneed
      omega

theorem named_cleared {k : ℕ} (hk : 2 ≤ k) (he : (ino dp).ents[k]? = some e)
    (hj : j ≠ 0) (hne : j ≠ e.inum) : named (cleared ino dp k) j = named ino j := by
  obtain ⟨k, rfl⟩ := Nat.exists_eq_add_of_le' hk
  have hek : (entries ino dp)[k]? = some e := by
    rw [entries, List.getElem?_drop, Nat.add_comm]
    exact he
  have hcount := countP_set_unused (P := fun x => x.inum = j) (by simpa using hj.symm) hek
  have hnamed : named (cleared ino dp (k + 2)) j + _ = named ino j + _ :=
    named_update (h.lt_of_mem (List.mem_of_getElem? he)) j
  have hdrop : ((ino dp).ents.set (k + 2) ⟨0, []⟩).drop 2 = (entries ino dp).set k ⟨0, []⟩ := by
    rw [List.drop_set, if_neg (by omega), entries, Nat.add_sub_cancel]
  simp only [hne.symm, decide_false, Bool.false_eq_true, if_false, add_zero] at hcount
  rw [hdrop, hcount] at hnamed
  omega

/-- `unlink` clears a proper entry: what it named has a link to spare, and so has the directory if
that was a directory. -/
theorem clear {k : ℕ} (hk : 2 ≤ k) (he : (ino dp).ents[k]? = some e) (h0 : e.inum ≠ 0) :
    Tree (cleared ino dp k) ∧ (needed (cleared ino dp k) e.inum : ℤ) + 1 ≤ (ino e.inum).nlink ∧
      ((ino e.inum).type = .dir → (needed (cleared ino dp k) dp : ℤ) + 1 ≤ (ino dp).nlink) := by
  have hd : (ino dp).type = .dir := h.dir_of_mem (List.mem_of_getElem? he)
  obtain ⟨hents, hp⟩ := h.ents_eq hd
  obtain ⟨k, rfl⟩ : ∃ m, k = m + 2 := ⟨k - 2, by omega⟩
  have hek : (entries ino dp)[k]? = some e := by
    rw [hents] at he
    simpa using he
  have hmem : e ∈ entries ino dp := List.mem_of_getElem? hek
  have hne := h.ne_self hmem
  have hset : (ino dp).ents.set (k + 2) ⟨0, []⟩ =
      ⟨dp, dot⟩ :: ⟨parentOf ino dp, dotdot⟩ :: (entries ino dp).set k ⟨0, []⟩ := by
    rw [hents]
    rfl
  have hlt : dp < ninodes := (h.onDisk dp (by rw [hd]; nofun)).2
  have hcount : ∀ j, j ≠ 0 → ((entries ino dp).set k ⟨0, []⟩).countP (fun x => x.inum = j) +
      (if e.inum = j then 1 else 0) = (entries ino dp).countP (fun x => x.inum = j) := by
    intro j hj
    simpa using countP_set_unused (P := fun x => x.inum = j) (by simpa using hj.symm) hek
  have hdirs : ((entries ino dp).set k ⟨0, []⟩).countP (fun x => (ino x.inum).type = .dir) +
      (if (ino e.inum).type = .dir then 1 else 0) = childDirs ino dp := by
    simpa [childDirs] using countP_set_unused (P := fun x => (ino x.inum).type = .dir)
      (by simp [h.type_zero]) hek
  have hneed := fun j => needed_setEntries ino ⟨dp, dot⟩ ⟨parentOf ino dp, dotdot⟩
    ((entries ino dp).set k ⟨0, []⟩) hlt j
  rw [cleared, hset]
  refine ⟨?_, ?_, ?_⟩
  · refine h.setEntries (e := ⟨0, []⟩) hd hents (fun x hx => (List.mem_or_eq_of_mem_set hx).symm)
      (fun h0 => absurd rfl h0) (fun h0 => absurd (h.type_zero.symm.trans h0) nofun) ?_ ?_
    · intro c hc
      have := hcount c (h.ne_zero_of_dir hc)
      have := h.once c hc
      omega
    intro j hj
    have h1 := hneed j
    have h2 := hcount j hj
    have h3 := h.count j hj
    by_cases hjd : j = dp
    · simp only [hjd, if_true] at h1 h2 h3 ⊢
      omega
    · simp only [hjd, if_false] at h1
      omega
  · have h1 := hneed e.inum
    have h2 := hcount e.inum h0
    have h3 := h.count e.inum h0
    simp only [hne, if_false, if_true] at h1 h2
    omega
  · intro hed
    have h1 := hneed dp
    have h2 := hcount dp (h.ne_zero_of_dir hd)
    have h3 := h.count dp (h.ne_zero_of_dir hd)
    simp only [hne, hed, if_false, if_true] at h1 h2 hdirs
    omega

end Tree

/-! ## What is reachable from the root -/

/-- The inodes reached from the root along entries of any name. -/
inductive RootReach (ino : ℕ → Dinode) : ℕ → Prop
  | root : RootReach ino rootino
  | entry {d : ℕ} {e : Dirent} (hd : RootReach ino d) (he : e ∈ (ino d).ents) (h0 : e.inum ≠ 0) :
      RootReach ino e.inum

/-- The inodes reached along proper entries. -/
inductive Below (ino : ℕ → Dinode) : ℕ → Prop
  | root : Below ino rootino
  | entry {d : ℕ} {e : Dirent} (hd : Below ino d) (he : e ∈ entries ino d) (h0 : e.inum ≠ 0) :
      Below ino e.inum

namespace Tree

variable (h : Tree ino)
include h

theorem mem_ents {e : Dirent} (he : e ∈ (ino d).ents) :
    e.inum = d ∨ e.inum = parentOf ino d ∨ e ∈ entries ino d := by
  rw [(h.ents_eq (h.dir_of_mem he)).1] at he
  rcases List.mem_cons.1 he with rfl | he
  · exact .inl rfl
  rcases List.mem_cons.1 he with rfl | he
  · exact .inr (.inl rfl)
  · exact .inr (.inr he)

/-- Along `..` one comes back to where one was. -/
theorem below_of_rootReach (hi : RootReach ino i) : Below ino i := by
  induction hi with
  | root => exact .root
  | @entry d e hd he h0 ih =>
    have hdir := h.dir_of_mem he
    rcases h.mem_ents he with heq | heq | hmem
    · rw [heq]
      exact ih
    · rw [heq]
      cases ih with
      | root =>
        rw [h.root.2]
        exact .root
      | entry hd' he' h0' =>
        rw [(h.parent _ _ he' hdir).1]
        exact hd'
    · exact .entry ih hmem h0

theorem nlink_pos_of_rootReach (hi : RootReach ino i) : 0 < (ino i).nlink := by
  have hcount : i ≠ 0 → 0 < needed ino i → 0 < (ino i).nlink := by
    intro h0 hpos
    have := h.count i h0
    omega
  cases h.below_of_rootReach hi with
  | root => exact hcount (by decide) (by simp [needed])
  | entry hd he h0 =>
    refine hcount h0 ?_
    have := h.named_of_mem he
    unfold needed
    omega

theorem alloc_of_rootReach {e : Dirent} (hd : RootReach ino d) (he : e ∈ (ino d).ents)
    (h0 : e.inum ≠ 0) : (ino e.inum).type ≠ .free := by
  have hbelow := h.below_of_rootReach (.entry hd he h0)
  generalize e.inum = j at hbelow
  cases hbelow with
  | root =>
    rw [h.root.1]
    nofun
  | entry _ he' h0' => exact h.alloc _ _ he' h0'

end Tree

/-- Entries other than `.` that name `i`, in the directories reachable from the root. -/
noncomputable def treeLinks (ino : ℕ → Dinode) (i : ℕ) : ℕ :=
  open Classical in
  ∑ d ∈ (range ninodes).filter (RootReach ino),
    (ino d).ents.countP fun e => e.inum = i ∧ namecmp e.name dot = false

namespace Tree

open Classical in
/-- Directories reachable from the root whose `..` names `i`: they are in `i`, but for the root. -/
theorem card_parent_le (h : Tree ino) (i : ℕ) : ((range ninodes).filter fun d =>
      RootReach ino d ∧ (ino d).type = .dir ∧ parentOf ino d = i).card ≤
      childDirs ino i + if i = rootino then 1 else 0 := by
  set inside := ((entries ino i).filter fun e => (ino e.inum).type = .dir).map (·.inum) with hin
  have hsub : ((range ninodes).filter fun d =>
      RootReach ino d ∧ (ino d).type = .dir ∧ parentOf ino d = i) ⊆
      inside.toFinset ∪ if i = rootino then {rootino} else ∅ := by
    intro d hd
    obtain ⟨-, hreach, hdir, hpar⟩ := mem_filter.1 hd
    rw [mem_union]
    cases h.below_of_rootReach hreach with
    | root =>
      right
      rw [h.root.2] at hpar
      simp [hpar]
    | @entry d' e hd' he h0 =>
      left
      rw [(h.parent d' e he hdir).1] at hpar
      subst hpar
      simp only [hin, List.mem_toFinset, List.mem_map, List.mem_filter, decide_eq_true_eq]
      exact ⟨e, ⟨he, hdir⟩, rfl⟩
  have hlen : inside.toFinset.card ≤ childDirs ino i := by
    calc inside.toFinset.card ≤ inside.length := List.toFinset_card_le _
      _ = childDirs ino i := by rw [hin, List.length_map, ← List.countP_eq_length_filter]; rfl
  have hroot : (if i = rootino then ({rootino} : Finset ℕ) else ∅).card ≤
      if i = rootino then 1 else 0 := by
    split_ifs <;> simp
  calc _ ≤ _ := card_le_card hsub
    _ ≤ _ := card_union_le _ _
    _ ≤ _ := Nat.add_le_add hlen hroot

/-- The entries of a directory other than `.`: its `..` and its proper entries. -/
theorem countP_ents_le (h : Tree ino) (d i : ℕ) :
    ((ino d).ents.countP fun e => e.inum = i ∧ namecmp e.name dot = false) ≤
      (if (ino d).type = .dir ∧ parentOf ino d = i then 1 else 0) +
        (entries ino d).countP fun e => e.inum = i := by
  by_cases hd : (ino d).type = .dir
  · have hmono : ((entries ino d).countP fun e => e.inum = i ∧ namecmp e.name dot = false) ≤
        (entries ino d).countP fun e => e.inum = i :=
      List.countP_mono_left (by simp_all)
    rw [(h.ents_eq hd).1, List.countP_cons, List.countP_cons]
    have hdot : namecmp dot dot = true := by decide
    have hdotdot : namecmp dotdot dot = false := by decide
    simp only [hdot, hdotdot, hd, true_and, and_true, Bool.true_eq_false, and_false, decide_false,
      Bool.false_eq_true, if_false, decide_eq_true_eq]
    omega
  · simp [h.plain d hd]

theorem treeLinks_le (h : Tree ino) (i : ℕ) : treeLinks ino i ≤ needed ino i := by
  classical
  have hsum : treeLinks ino i ≤ ∑ d ∈ (range ninodes).filter (RootReach ino),
      ((if (ino d).type = .dir ∧ parentOf ino d = i then 1 else 0) +
        (entries ino d).countP fun e => e.inum = i) :=
    sum_le_sum fun d _ => h.countP_ents_le d i
  have hnamed : ∑ d ∈ (range ninodes).filter (RootReach ino),
      (entries ino d).countP (fun e => e.inum = i) ≤ named ino i :=
    sum_le_sum_of_subset (filter_subset _ _)
  have hpar : ∑ d ∈ (range ninodes).filter (RootReach ino),
      (if (ino d).type = .dir ∧ parentOf ino d = i then 1 else 0) ≤
      childDirs ino i + if i = rootino then 1 else 0 := by
    rw [sum_boole, filter_filter]
    exact h.card_parent_le i
  rw [sum_add_distrib] at hsum
  unfold needed
  omega

end Tree

end Xv6.Names

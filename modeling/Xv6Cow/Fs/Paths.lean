import Xv6Cow.Fs.Links

/-!
# Path resolution

`namei` and `nameiparent` look the components of the path up one after another.  The components are the
runs of characters between slashes, which `skipelem` cuts out of the path from left to right.
-/

namespace Xv6.Names

open Function Lts Prog

/-- The maximal runs of characters other than `/`, cut to `DIRSIZ`. -/
def components (path : List Char) : List Name :=
  ((path.splitOnP (· == '/')).filter (· ≠ [])).map (List.take dirsiz)

/-- The inode that a directory has under a name. -/
def lookup (ino : ℕ → Dinode) (i : ℕ) (name : Name) : Option ℕ :=
  if (ino i).type = .dir then (scan name (ino i).ents).map (·.2) else none

/-- The inode reached from `i` by looking up the names in order. -/
def reach (ino : ℕ → Dinode) : ℕ → List Name → Option ℕ
  | i, [] => some i
  | i, name :: names => (lookup ino i name).bind (reach ino · names)

/-- The directory that has the last of the names, and that name. -/
def reachParent (ino : ℕ → Dinode) (i : ℕ) (names : List Name) : Option (ℕ × Name) :=
  match names.getLast? with
  | none => none
  | some name => (reach ino i names.dropLast).bind fun d =>
      if (ino d).type = .dir then some (d, name) else none

/-- Where a path starts. -/
def startOf (s : Fs) (p : Pid) (path : List Char) : ℕ := if absolute path then rootino else s.cwd p

/-- Every entry of a directory names an allocated inode. -/
def Resolvable (ino : ℕ → Dinode) : Prop :=
  ∀ i, (ino i).type = .dir → ∀ e ∈ (ino i).ents, e.inum ≠ 0 → (ino e.inum).type ≠ .free

/-! ## Components -/

section Components

variable {path w rest : List Char}

theorem components_slash (path : List Char) : components ('/' :: path) = components path := by
  simp [components, List.splitOnP_cons_eq_if_modifyHead]

theorem components_dropWhile (path : List Char) :
    components (path.dropWhile (· == '/')) = components path := by
  induction path with
  | nil => rfl
  | cons c path ih =>
    by_cases hc : c = '/'
    · subst hc
      rw [List.dropWhile_cons, if_pos (by simp), ih, components_slash]
    · rw [List.dropWhile_cons, if_neg (by simpa using hc)]

theorem components_run (hw : ∀ c ∈ w, c ≠ '/') (hne : w ≠ []) (hrest : ∀ c ∈ rest.head?, c = '/') :
    components (w ++ rest) = w.take dirsiz :: components rest := by
  have hw' : ∀ c ∈ w, (c == '/') = false := fun c hc => by simpa using hw c hc
  cases rest with
  | nil =>
    rw [List.append_nil, components, List.splitOnP_eq_singleton hw']
    simp [components, hne]
  | cons c rest =>
    obtain rfl : c = '/' := hrest c rfl
    rw [components_slash, components, List.splitOnP_append_cons_of_forall_mem hw' _ (by simp)]
    simp [components, hne]

/-- `skipelem` yields the components. -/
theorem elems_components (path : List Char) : elems path = components path := by
  induction hn : path.length using Nat.strong_induction_on generalizing path with
  | _ n ih =>
    rw [elems_eq, ← components_dropWhile path]
    rcases hskip : skipelem path with _ | r
    · have hnil : path.dropWhile (· == '/') = [] := by simpa [skipelem] using hskip
      rw [hnil]
      rfl
    have hlen := skipelem_length hskip
    simp only [skipelem] at hskip
    split_ifs at hskip with hempty
    cases hskip
    change _ :: elems _ = _
    rw [ih _ (hn ▸ hlen) _ rfl, components_dropWhile]
    set s := path.dropWhile (· == '/') with hs
    have hsplit : s = s.takeWhile (· != '/') ++ s.dropWhile (· != '/') :=
      List.takeWhile_append_dropWhile.symm
    rw [hsplit, components_run, ← hsplit]
    · exact fun c hc => by simpa using List.mem_takeWhile_imp hc
    · -- the first character of `s` is not a slash
      cases hcase : s with
      | nil => simp [hcase] at hempty
      | cons c cs =>
        have hc := List.head?_dropWhile_not (· == '/') path
        rw [← hs, hcase] at hc
        rw [List.takeWhile_cons, if_pos (by simpa using hc)]
        exact List.cons_ne_nil _ _
    · intro c hc
      have := List.head?_dropWhile_not (· != '/') s
      rw [hc] at this
      simpa using this

end Components

/-! ## The walk -/

section Walk

variable {ino : ℕ → Dinode} {H : Finset ℕ} {i : ℕ} {names : List Name}

theorem walk_reach {r : Option (ℕ × Name)} (h : walk ino H false i names = .ok r) :
    r.map (·.1) = reach ino i names := by
  induction names generalizing i with
  | nil =>
    cases h
    rfl
  | cons name names ih =>
    simp only [walk, Bool.false_eq_true, false_and, if_false] at h
    split_ifs at h with hfree hdir
    · cases h
      simp [reach, lookup, hdir]
    rw [ne_eq, not_not] at hdir
    rcases hscan : scan name (ino i).ents with _ | next
    · rw [hscan] at h
      cases h
      simp [reach, lookup, hdir, hscan]
    simp only [hscan] at h
    split_ifs at h
    rw [ih h]
    simp [reach, lookup, hdir, hscan]

theorem reachParent_cons (name name' : Name) (names : List Name) :
    reachParent ino i (name :: name' :: names) =
      (lookup ino i name).bind (reachParent ino · (name' :: names)) := by
  have hlast : (name' :: names).getLast? = some ((name' :: names).getLast (by simp)) :=
    List.getLast?_eq_some_getLast _
  simp only [reachParent, List.getLast?_cons_cons, hlast, List.dropLast_cons_cons, reach,
    Option.bind_assoc]

theorem walk_reachParent {r : Option (ℕ × Name)} (h : walk ino H true i names = .ok r) :
    r = reachParent ino i names := by
  induction names generalizing i with
  | nil =>
    cases h
    rfl
  | cons name names ih =>
    simp only [walk, true_and] at h
    split_ifs at h with hfree hdir hlast
    · cases h
      cases names with
      | nil => simp [reachParent, reach, hdir]
      | cons name' names => simp [reachParent_cons, lookup, hdir]
    · cases h
      rw [ne_eq, not_not] at hdir
      simp [reachParent, reach, hlast, hdir]
    · rw [ne_eq, not_not] at hdir
      obtain ⟨name', names, rfl⟩ := List.exists_cons_of_ne_nil hlast
      rcases hscan : scan name (ino i).ents with _ | next
      · rw [hscan] at h
        cases h
        simp [reachParent_cons, lookup, hdir, hscan]
      simp only [hscan] at h
      split_ifs at h
      rw [ih h]
      simp [reachParent_cons, lookup, hdir, hscan]

/-- The walk fails only for want of room in the inode cache. -/
theorem walk_error (hd : Resolvable ino) (hi : (ino i).type ≠ .free) {parent : Bool} {e : Stop}
    (h : walk ino H parent i names = .error e) :
    e = .panic "iget: no inodes" ∧ ∃ j, ninode ≤ (insert j H).card := by
  induction names generalizing i with
  | nil => cases h
  | cons name names ih =>
    simp only [walk, hi, if_false] at h
    split_ifs at h with hdir
    rw [ne_eq, not_not] at hdir
    rcases hscan : scan name (ino i).ents with _ | next
    · rw [hscan] at h
      cases h
    simp only [hscan] at h
    split_ifs at h with hroom
    · obtain ⟨e', he, hnum, hne, -⟩ := scan_mem hscan
      refine ih ?_ h
      rw [← hnum]
      exact hd i hdir e' (List.mem_of_getElem? he) hne
    · cases h
      exact ⟨rfl, i, Nat.le_of_not_lt fun hlt => hroom (.inr hlt)⟩

end Walk

/-! ## `namei` and `nameiparent` -/

/-- The inode cache has no room for one more inode beside another. -/
def CacheFull (s : Fs) (T : Multiset ℕ) (e : Stop) : Prop :=
  e = .panic "iget: no inodes" ∧ ∃ j, ninode ≤ (insert j (s.pinned T)).card

variable {s : Fs} {p : Pid}

theorem resolve_error (hd : Resolvable s.inode) {path : List Char} {parent : Bool} {e : Stop}
    (hi : (s.inode (startOf s p path)).type ≠ .free)
    (h : resolve s (s.pinned 0) p path parent = .error e) : CacheFull s 0 e := by
  unfold resolve at h
  unfold startOf at hi
  split_ifs at h hi with habs hroom
  · exact walk_error hd hi h
  · cases h
    exact ⟨rfl, rootino, (Nat.le_of_not_lt fun hlt => hroom (.inr hlt)).trans
      (Finset.card_le_card (Finset.subset_insert _ _))⟩
  · exact walk_error hd hi h

theorem resolve_ok {path : List Char} {parent : Bool} {r : Option (ℕ × Name)}
    (h : resolve s (s.pinned 0) p path parent = .ok r) :
    walk s.inode (s.pinned 0) parent (startOf s p path) (components path) = .ok r := by
  unfold resolve at h
  rw [elems_components] at h
  unfold startOf
  split_ifs at h ⊢
  · exact h
  · exact h

/-- Between two calls, in every directory tree and for every path: `namei` and `nameiparent` return what
is reached by the components of the path, unless the inode cache is full. -/
theorem paths_resolved (h : Held s 0 ∅) (hr : InRange s.inode) (hd : Resolvable s.inode)
    (hp : s.live p = true) (path : List Char) (hi : (s.inode (startOf s p path)).type ≠ .free) :
    wp (namei p path)
        (fun r t => r = reach s.inode (startOf s p path) (components path) ∧ t.inode = s.inode)
        (fun e _ => CacheFull s 0 e) s ∧
      wp (nameiparent p path)
        (fun r t => r = reachParent s.inode (startOf s p path) (components path) ∧ t.inode = s.inode)
        (fun e _ => CacheFull s 0 e) s := by
  constructor
  · refine wp_mono (namei_rule h hr hp path) ?_ fun e _ he => resolve_error hd hi he
    rintro _ t ⟨x, hx, rfl, c, rfl, -⟩
    exact ⟨walk_reach (resolve_ok hx), rfl⟩
  · refine wp_mono (namex_rule h hr hp path true) ?_ fun e _ he => resolve_error hd hi he
    rintro r t ⟨hx, c, rfl, -⟩
    exact ⟨walk_reachParent (resolve_ok hx), rfl⟩

theorem paths_resolved_oneFile :
    wp (namei initproc ['/', '/', 'f', '/']) (fun r _ => r = some 2)
      (fun _ _ => False) oneFile.boot := by
  have hgood := boot_good oneFile
  have hd : Resolvable oneFile.boot.inode := by
    intro i hi e he hne
    obtain rfl := (image_type_dir oneFile).1 hi
    have : ∀ e ∈ (oneFile.inode rootino).ents, e.inum ≠ 0 → (oneFile.inode e.inum).type ≠ .free := by
      decide
    exact this e he hne
  have hroot : (oneFile.boot.inode (startOf oneFile.boot initproc ['/', '/', 'f', '/'])).type ≠
    .free := by
    show (oneFile.inode rootino).type ≠ .free
    decide
  have hlive : oneFile.boot.live initproc = true := rfl
  have hpaths := (paths_resolved hgood.held hgood.tree.inRange hd hlive _ hroot).1
  refine wp_mono hpaths ?_ ?_
  · rintro r t ⟨rfl, -⟩
    decide
  rintro e t ⟨-, j, hj⟩
  have hpinned : oneFile.boot.pinned 0 ⊆ {rootino} := by
    intro i hi
    unfold Fs.pinned at hi
    rw [Finset.mem_filter, boot_users] at hi
    by_contra hne
    rw [Finset.mem_singleton] at hne
    simp [hne] at hi
  have hcard := Finset.card_le_card (Finset.insert_subset_insert j hpinned)
  have htwo : (insert j {rootino} : Finset ℕ).card ≤ 2 := Finset.card_le_two
  have hninode : ninode = 50 := rfl
  omega

end Xv6.Names

import Mathlib
import EW8.Core.Text
import EW8.Lib.Navigation

/-!
# Clean paths

`Dir::cleanPath` goes through a path character by character and keeps the components that are left:
an empty component and `.` are dropped, and `..` drops the component before it, unless that is `..`
as well; where there is none, `..` is kept in a relative path and dropped at the root.

The components are moves (`moveOf`) in a tree of files without symbolic links (`FileTree`), and the
parts that are left are the reduced way (`cleanPath_eq`).
-/

namespace EW8.Core.Dir

open Navigation

/-- `Dir::separator`. -/
def separator : UInt8 := '/'.toUInt8

/-- The component that stays in the directory. -/
def dot : List UInt8 := chars "."

/-- The component that leads to the parent. -/
def dotdot : List UInt8 := chars ".."

/-- `absolute`, of `cleanPath`. -/
def isAbsolute (path : List UInt8) : Bool := path.head? = some separator

/-- What becomes of `parts` at the end of the component `current`. -/
def endComponent (absolute : Bool) (parts : List (List UInt8)) (current : List UInt8) :
    List (List UInt8) :=
  if current = dotdot then
    if parts ≠ [] ∧ parts.getLast? ≠ some dotdot then parts.dropLast
    else if ¬ absolute then parts ++ [current]
    else parts
  else if current ≠ dot then parts ++ [current]
  else parts

/-- The variables of the loop of `cleanPath`. -/
structure Cleaning where
  parts : List (List UInt8)
  current : List UInt8

/-- The end of a component, if it is not empty. -/
def Cleaning.flush (absolute : Bool) (s : Cleaning) : List (List UInt8) :=
  if s.current ≠ [] then endComponent absolute s.parts s.current else s.parts

/-- A round of the loop. -/
def Cleaning.step (absolute : Bool) (s : Cleaning) (c : UInt8) : Cleaning :=
  if c = separator then ⟨s.flush absolute, []⟩ else { s with current := s.current ++ [c] }

/-- `Dir::cleanPath`. -/
def cleanPath (path : List UInt8) : List UInt8 :=
  let absolute := isAbsolute path
  let parts := (path.foldl (Cleaning.step absolute) ⟨[], []⟩).flush absolute
  let result := (if absolute then [separator] else []) ++ [separator].intercalate parts
  if result = [] then dot else result

/-- A name of an entry of a directory. -/
structure IsEntry (c : List UInt8) : Prop where
  ne_nil : c ≠ []
  ne_dot : c ≠ dot
  ne_dotdot : c ≠ dotdot
  separator_not_mem : separator ∉ c

instance (c : List UInt8) : Decidable (IsEntry c) :=
  decidable_of_iff (c ≠ [] ∧ c ≠ dot ∧ c ≠ dotdot ∧ separator ∉ c)
    ⟨fun h => ⟨h.1, h.2.1, h.2.2.1, h.2.2.2⟩,
      fun h => ⟨h.ne_nil, h.ne_dot, h.ne_dotdot, h.separator_not_mem⟩⟩

/-- The names of entries. -/
abbrev Entry := { c : List UInt8 // IsEntry c }

/-- Where a component leads. -/
def moveOf (c : List UInt8) : Move Entry :=
  if h : IsEntry c then .down ⟨c, h⟩ else if c = dotdot then .up else .stay

/-- Where a path leads, component by component. -/
def way (path : List UInt8) : List (Move Entry) := (path.splitOn separator).map moveOf

/-- What there is at a location. -/
inductive Kind
  | file
  | directory
  deriving DecidableEq

/-- A tree of files without symbolic links. A location is the way down to it, last entry first. -/
structure FileTree where
  kind : List Entry → Option Kind
  root : kind [] = some .directory
  parent : ∀ n loc, kind (n :: loc) ≠ none → kind loc = some .directory

namespace FileTree

variable (T : FileTree)

/-- A step of the resolution of a path: from a directory only, to what there is. -/
def move (loc : List Entry) (m : Move Entry) : Option (List Entry) :=
  if T.kind loc = some .directory then
    match m with
    | .stay => some loc
    | .up => some loc.tail
    | .down n => if T.kind (n :: loc) = none then none else some (n :: loc)
  else none

/-- The locations of the tree are places. -/
def places : Places (List Entry) Entry where
  move := T.move
  eq_of_stay {s t} h := by
    rw [move] at h
    split at h
    · exact (Option.some.inj h).symm
    · cases h
  eq_of_up {s t u a} h h' := by
    simp only [move, Option.ite_none_right_eq_some] at h h'
    obtain ⟨-, hdown⟩ := h
    obtain ⟨-, hup⟩ := h'
    split at hdown
    · cases hdown
    · rw [← Option.some.inj hup, ← Option.some.inj hdown, List.tail_cons]

/-- The location that a path denotes in the directory `cwd`. -/
def resolve (cwd : List Entry) (path : List UInt8) : Option (List Entry) :=
  T.places.follow (if isAbsolute path then [] else cwd) (way path)

/-- The tree in which all directories exist. -/
def complete : FileTree where
  kind _ := some .directory
  root := rfl
  parent _ _ _ := rfl

/-- The tree that is empty but for its root. -/
def bare : FileTree where
  kind
    | [] => some .directory
    | _ :: _ => none
  root := rfl
  parent _ _ h := absurd rfl h

end FileTree

/-- A path without doubled or trailing separators and without `.`, and with `..` at the beginning
of a relative path only. -/
structure IsClean (path : List UInt8) : Prop where
  ne_nil : path ≠ []
  not_doubled : ¬ [separator, separator] <:+: path
  not_trailing : path.getLast? ≠ some separator
  dot_not_mem : dot ∉ path.splitOn separator
  dotdot_leads : ∀ xs ys, path.splitOn separator = xs ++ dotdot :: ys →
    isAbsolute path = false ∧ ∀ c ∈ xs, c = dotdot

/-- What the cleaning of `path` to `result` is for. -/
structure Cleaned (path result : List UInt8) : Prop where
  again : cleanPath result = result
  form : result = dot ∨ result = [separator] ∨ IsClean result
  isAbsolute_eq : isAbsolute result = isAbsolute path
  resolve : ∀ (T : FileTree) (cwd loc : List Entry), T.kind cwd = some .directory →
    T.resolve cwd path = some loc → T.resolve cwd result = some loc
  resolve_complete : ∀ cwd, ∃ loc, FileTree.complete.resolve cwd path = some loc ∧
    FileTree.complete.resolve cwd result = some loc

variable {top : Bool} {path c : List UInt8}

/-- The parts of a reduced way. -/
def names (r : Reduced Entry top) : List (List UInt8) :=
  List.replicate r.ups dotdot ++ r.downs.reverse.map Subtype.val

/-- The path of a reduced way. -/
def pathOf (r : Reduced Entry top) : List UInt8 :=
  let result := (if top then [separator] else []) ++ [separator].intercalate (names r)
  if result = [] then dot else result

@[simp]
theorem moveOf_nil : moveOf [] = .stay := rfl

@[simp]
theorem moveOf_dot : moveOf dot = .stay := rfl

@[simp]
theorem moveOf_dotdot : moveOf dotdot = .up := rfl

@[simp]
theorem moveOf_val (a : Entry) : moveOf a.1 = .down a := dif_pos a.2

theorem names_of_downs {r : Reduced Entry top} {a : Entry} {downs : List Entry}
    (h : r.downs = a :: downs) : names r = names { r with downs := downs } ++ [a.1] := by
  simp [names, h]

/-- The end of a component is a move at the end of the way. -/
theorem endComponent_eq (r : Reduced Entry top) (hne : c ≠ []) (hc : separator ∉ c) :
    endComponent top (names r) c = names (r.push (moveOf c)) := by
  by_cases hdotdot : c = dotdot
  · subst hdotdot
    rw [endComponent, if_pos rfl, moveOf_dotdot]
    cases hdowns : r.downs with
    | cons a downs =>
      rw [Reduced.push_up_of_cons hdowns, names_of_downs hdowns, if_pos, List.dropLast_concat]
      simpa using a.2.ne_dotdot
    | nil =>
      have hnames : names r = List.replicate r.ups dotdot := by simp [names, hdowns]
      rw [hnames, if_neg (by simp [List.getLast?_replicate])]
      by_cases htop : top
      · rw [if_neg (not_not.2 htop), Reduced.push_up_of_top hdowns htop, hnames]
      · rw [if_pos htop, Reduced.push_up_of_not_top hdowns htop]
        simp [names, List.replicate_succ']
  · rw [endComponent, if_neg hdotdot]
    by_cases hdot : c = dot
    · rw [if_neg (not_not.2 hdot), hdot, moveOf_dot, Reduced.push_stay]
    · have hentry : IsEntry c := ⟨hne, hdot, hdotdot, hc⟩
      rw [if_pos hdot, moveOf, dif_pos hentry]
      simp [names]

theorem flush_eq (r : Reduced Entry top) (hc : separator ∉ c) :
    Cleaning.flush top ⟨names r, c⟩ = names (r.push (moveOf c)) := by
  by_cases hne : c = []
  · subst hne
    rfl
  · exact (if_pos hne).trans (endComponent_eq r hne hc)

/-- What the loop makes of the rest of a path, in the middle of the component `c`. -/
theorem flush_foldl_step (r : Reduced Entry top) (hc : separator ∉ c) :
    (path.foldl (Cleaning.step top) ⟨names r, c⟩).flush top =
      names ((way (c ++ path)).foldl Reduced.push r) := by
  induction path generalizing r c with
  | nil =>
    rw [List.append_nil, way, List.splitOn_eq_singleton hc]
    exact flush_eq r hc
  | cons a path ih =>
    rw [List.foldl_cons, Cleaning.step]
    by_cases ha : a = separator
    · subst ha
      rw [if_pos rfl, flush_eq r hc, ih _ List.not_mem_nil, way, way,
        List.splitOn_append_cons_self_of_not_mem hc]
      rfl
    · have hca : separator ∉ c ++ [a] := by simpa [hc] using Ne.symm ha
      rw [if_neg ha, ih r hca, List.append_assoc, List.singleton_append]

/-- The cleaned path is the path of the reduced way. -/
theorem cleanPath_eq (path : List UInt8) :
    cleanPath path = pathOf (reduce (isAbsolute path) (way path)) := by
  have hparts := @flush_foldl_step (isAbsolute path) path [] .empty List.not_mem_nil
  rw [cleanPath, pathOf]
  exact congrArg (fun parts =>
    let result := (if isAbsolute path then [separator] else []) ++ [separator].intercalate parts
    if result = [] then dot else result) hparts

/-! ## The path of a reduced way -/

variable {r : Reduced Entry top}

theorem mem_names (h : c ∈ names r) : c = dotdot ∨ IsEntry c := by
  rcases List.mem_append.1 h with h | h
  · exact .inl (List.eq_of_mem_replicate h)
  · obtain ⟨a, -, rfl⟩ := List.mem_map.1 h
    exact .inr a.2

theorem nil_not_mem_names : [] ∉ names r := by
  intro h
  rcases mem_names h with h | h
  · exact absurd h (by decide)
  · exact h.ne_nil rfl

theorem dot_not_mem_names : dot ∉ names r := by
  intro h
  rcases mem_names h with h | h
  · exact absurd h (by decide)
  · exact h.ne_dot rfl

theorem separator_not_mem_of_mem_names (h : c ∈ names r) : separator ∉ c := by
  rcases mem_names h with rfl | h
  · decide
  · exact h.separator_not_mem

theorem splitOn_intercalate_names (h : names r ≠ []) :
    ([separator].intercalate (names r)).splitOn separator = names r :=
  List.splitOn_intercalate separator (fun _ hc => separator_not_mem_of_mem_names hc) h

theorem pathOf_of_nil (h : names r = []) : pathOf r = if top then [separator] else dot := by
  cases top <;> simp [pathOf, h]

theorem pathOf_of_ne (h : names r ≠ []) :
    pathOf r = (if top then [separator] else []) ++ [separator].intercalate (names r) := by
  refine if_neg fun hnil => ?_
  have hsplit := splitOn_intercalate_names h
  rw [(List.append_eq_nil_iff.1 hnil).2, List.splitOn_nil] at hsplit
  exact nil_not_mem_names (hsplit ▸ List.mem_singleton_self _)

theorem splitOn_pathOf (h : names r ≠ []) :
    (pathOf r).splitOn separator = (if top then [[]] else []) ++ names r := by
  rw [pathOf_of_ne h]
  split
  · rw [List.singleton_append, ← List.nil_append (separator :: _),
      List.splitOn_append_cons_self_of_not_mem List.not_mem_nil, splitOn_intercalate_names h]
    rfl
  · exact splitOn_intercalate_names h

theorem splitOn_of_isAbsolute (h : isAbsolute path) :
    ∃ cs, path.splitOn separator = [] :: cs := by
  obtain ⟨rest, rfl⟩ : ∃ rest, path = separator :: rest := by
    simpa [isAbsolute, List.head?_eq_some_iff] using h
  exact ⟨_, List.splitOn_append_cons_self_of_not_mem (List.not_mem_nil (a := separator)) rest⟩

theorem isAbsolute_pathOf (r : Reduced Entry top) : isAbsolute (pathOf r) = top := by
  by_cases h : names r = []
  · rw [pathOf_of_nil h]
    cases top <;> rfl
  · cases top with
    | true => simp [pathOf_of_ne h, isAbsolute]
    | false =>
      by_contra habs
      obtain ⟨cs, hcs⟩ := splitOn_of_isAbsolute (Bool.eq_true_of_not_eq_false habs)
      replace hcs : names r = [] :: cs := by simpa [splitOn_pathOf h] using hcs
      exact nil_not_mem_names (hcs ▸ List.mem_cons_self)

theorem map_moveOf_names (r : Reduced Entry top) : (names r).map moveOf = r.moves := by
  rw [names, Reduced.moves, List.map_append, List.map_replicate, moveOf_dotdot, List.map_map]
  exact congrArg _ (List.map_congr_left fun a _ => moveOf_val a)

/-- The path of a reduced way leads this way. -/
theorem way_pathOf (r : Reduced Entry top) :
    ∃ k, way (pathOf r) = List.replicate k .stay ++ r.moves := by
  by_cases h : names r = []
  · have hmoves : r.moves = [] := by rw [← map_moveOf_names, h, List.map_nil]
    rw [pathOf_of_nil h, hmoves]
    cases top with
    | true => exact ⟨2, rfl⟩
    | false => exact ⟨1, rfl⟩
  · rw [way, splitOn_pathOf h, List.map_append, map_moveOf_names]
    cases top with
    | true => exact ⟨1, rfl⟩
    | false => exact ⟨0, rfl⟩

theorem reduce_pathOf (r : Reduced Entry top) : reduce top (way (pathOf r)) = r := by
  obtain ⟨k, hk⟩ := way_pathOf r
  rw [hk, reduce_moves]

theorem cleanPath_pathOf (r : Reduced Entry top) : cleanPath (pathOf r) = pathOf r := by
  rw [cleanPath_eq, isAbsolute_pathOf, reduce_pathOf]

/-- Behind a separator there are components of the tail. -/
theorem splitOn_append_separator (s t : List UInt8) {cs : List UInt8}
    (h : cs ∈ t.splitOn separator) :
    cs ∈ ((s ++ separator :: t).splitOn separator).tail := by
  rw [List.splitOn_append_cons_self, List.tail_append_of_ne_nil (List.splitOn_ne_nil _ _)]
  exact List.mem_append_right _ h

/-- The moves up are at the beginning, and there are none from the top. -/
theorem dotdot_leads_names {xs ys : List (List UInt8)} (h : names r = xs ++ dotdot :: ys) :
    top = false ∧ ∀ c ∈ xs, c = dotdot := by
  have hdowns : dotdot ∉ r.downs.reverse.map Subtype.val := by
    intro hmem
    obtain ⟨a, -, ha⟩ := List.mem_map.1 hmem
    exact a.2.ne_dotdot ha
  rcases List.append_eq_append_iff.1 h with ⟨l, rfl, hl⟩ | ⟨l, hl, hys⟩
  · exact absurd (hl ▸ List.mem_append_right l List.mem_cons_self) hdowns
  · cases l with
    | nil =>
      rw [List.nil_append] at hys
      exact absurd (hys ▸ List.mem_cons_self) hdowns
    | cons c l =>
      have hups : r.ups ≠ 0 := by
        intro h0
        simp [h0] at hl
      constructor
      · by_contra htop
        exact hups (r.ups_of_top (Bool.eq_true_of_not_eq_false htop))
      · intro c hc
        exact List.eq_of_mem_replicate (hl ▸ List.mem_append_left _ hc)

theorem pathOf_ne_nil (r : Reduced Entry top) : pathOf r ≠ [] := by
  by_cases h : (if top then [separator] else []) ++ [separator].intercalate (names r) = []
  · exact (if_pos h).trans_ne (by decide)
  · exact (if_neg h).trans_ne h

theorem nil_not_mem_tail (h : names r ≠ []) : [] ∉ ((pathOf r).splitOn separator).tail := by
  rw [splitOn_pathOf h]
  cases top with
  | true => exact nil_not_mem_names
  | false => exact fun hmem => nil_not_mem_names (List.mem_of_mem_tail hmem)

theorem isClean_pathOf (h : names r ≠ []) : IsClean (pathOf r) where
  ne_nil := pathOf_ne_nil r
  not_doubled := by
    rintro ⟨s, t, hst⟩
    refine nil_not_mem_tail h ?_
    rw [← hst, List.append_assoc]
    refine splitOn_append_separator s (separator :: t) ?_
    rw [← List.nil_append (separator :: t),
      List.splitOn_append_cons_self_of_not_mem List.not_mem_nil]
    exact List.mem_cons_self
  not_trailing hlast := by
    obtain ⟨s, hs⟩ := List.getLast?_eq_some_iff.1 hlast
    refine nil_not_mem_tail h ?_
    rw [hs]
    exact splitOn_append_separator s [] (by simp)
  dot_not_mem := by
    rw [splitOn_pathOf h, List.mem_append, not_or]
    refine ⟨?_, dot_not_mem_names⟩
    cases top <;> decide
  dotdot_leads xs ys hxs := by
    rw [splitOn_pathOf h] at hxs
    rw [isAbsolute_pathOf]
    cases top with
    | false => exact dotdot_leads_names hxs
    | true =>
      -- the component before the root is no `..`
      cases xs with
      | nil => cases hxs
      | cons c xs => exact absurd (dotdot_leads_names (List.cons.inj hxs).2).1 (by decide)

/-! ## Locations -/

namespace FileTree

variable {T : FileTree} {cwd loc : List Entry}

theorem move_stay (h : T.kind loc = some .directory) : T.move loc .stay = some loc := if_pos h

theorem root_of_move_up (h : T.move [] .up = some loc) : loc = [] := by
  rw [move, if_pos T.root] at h
  exact (Option.some.inj h).symm

/-- What a path denotes, the cleaned path denotes. -/
theorem resolve_cleanPath (hcwd : T.kind cwd = some .directory)
    (h : T.resolve cwd path = some loc) : T.resolve cwd (cleanPath path) = some loc := by
  obtain ⟨k, hk⟩ := way_pathOf (reduce (isAbsolute path) (way path))
  rw [cleanPath_eq, resolve, isAbsolute_pathOf, hk]
  rw [resolve] at h
  by_cases habs : isAbsolute path
  · rw [if_pos habs] at h ⊢
    rw [Places.follow_stay (move_stay T.root)]
    exact Places.follow_reduce (fun _ _ ht => root_of_move_up ht) h
  · rw [if_neg habs] at h ⊢
    rw [Places.follow_stay (move_stay hcwd)]
    exact Places.follow_reduce (fun htop => absurd htop habs) h

/-- In the complete tree, every path denotes a location. -/
theorem exists_resolve_complete (cwd : List Entry) (path : List UInt8) :
    ∃ loc, complete.resolve cwd path = some loc := by
  have hmove (loc : List Entry) (m : Move Entry) : ∃ loc', complete.move loc m = some loc' := by
    cases m <;> exact ⟨_, rfl⟩
  rw [resolve]
  generalize (if isAbsolute path then [] else cwd) = loc
  induction way path generalizing loc with
  | nil => exact ⟨loc, rfl⟩
  | cons m ms ih =>
    obtain ⟨loc', hloc'⟩ := hmove loc m
    obtain ⟨l, hl⟩ := ih loc'
    refine ⟨l, ?_⟩
    rw [Places.follow, List.foldlM_cons]
    exact (congrArg (· >>= _) hloc').trans hl

end FileTree

/-- The cleaned path is clean, and denotes what the path denotes. -/
theorem cleaned_cleanPath (path : List UInt8) : Cleaned path (cleanPath path) where
  again := by rw [cleanPath_eq path, cleanPath_pathOf]
  form := by
    rw [cleanPath_eq]
    by_cases h : names (reduce (isAbsolute path) (way path)) = []
    · rw [pathOf_of_nil h]
      split
      · exact .inr (.inl rfl)
      · exact .inl rfl
    · exact .inr (.inr (isClean_pathOf h))
  isAbsolute_eq := by rw [cleanPath_eq, isAbsolute_pathOf]
  resolve _ _ _ hcwd h := FileTree.resolve_cleanPath hcwd h
  resolve_complete cwd := by
    obtain ⟨loc, hloc⟩ := FileTree.exists_resolve_complete cwd path
    exact ⟨loc, hloc, FileTree.resolve_cleanPath rfl hloc⟩

/-- The root is a path with a trailing separator, and a way through a missing directory, which leads
nowhere, is dropped from the path. -/
theorem cleanPath_fails_of_root :
    ¬ (cleanPath (chars "/") = dot ∨ IsClean (cleanPath (chars "/"))) ∧
      FileTree.bare.resolve [] (chars "a/..") = none ∧
        FileTree.bare.resolve [] (cleanPath (chars "a/..")) = some [] := by
  refine ⟨?_, by decide, by decide⟩
  rintro (h | h)
  · exact absurd h (by decide)
  · exact h.not_trailing (by decide)

end EW8.Core.Dir

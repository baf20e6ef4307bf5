import EW8.Lib.Wildcard

/-!
# File names and filters

`Dir::entryList` lists the entries of a directory whose names match a filter. `matchesFilter` goes
through name and filter at once, and comes back to the last `*` of the filter where they differ. It
compares the characters first, so that a `*` of the filter that begins at a `*` of the name is
this character, and no wildcard.

* It finds just the matches that leave such a `*` as it is (`matchesFilter_iff_literal`);
* so its answer is right exactly if there is one of these among the matches, if any, or the filter
  is `*` alone (`matchesFilter_right_iff`).
-/

namespace EW8.Core

/-- The character `*`. -/
def asterisk : UInt8 := '*'.toUInt8

/-- The character `?`. -/
def questionMark : UInt8 := '?'.toUInt8

/-- Where the loop of `matchesFilter` is: what there is of the name from `ni` on, and of the filter
    from `fi` on; after a `*`, what there is of the filter behind `lastStar`, and of the name from
    `matchPos` on. -/
structure Search where
  name : List UInt8
  filter : List UInt8
  lastStar : Option (List UInt8 × List UInt8)
  /-- `matchPos` is not behind `ni`. -/
  matchPos_le : ∀ x ∈ lastStar, name.length ≤ x.2.length

namespace Search

/-- The next character of the name is that of the filter. -/
def advance (s : Search) : Search where
  name := s.name.tail
  filter := s.filter.tail
  lastStar := s.lastStar
  matchPos_le x hx := (by simp : s.name.tail.length ≤ s.name.length).trans (s.matchPos_le x hx)

/-- The next character of the filter is a `*`. -/
def star (s : Search) : Search where
  name := s.name
  filter := s.filter.tail
  lastStar := some (s.filter.tail, s.name)
  matchPos_le := by
    rintro x ⟨⟩
    exact le_rfl

/-- Back to the last `*`, that now stands for one more character. -/
def back (filter name : List UInt8) : Search where
  name := name.tail
  filter := filter
  lastStar := some (filter, name.tail)
  matchPos_le := by
    rintro x ⟨⟩
    exact le_rfl

/-- What is left to be tried: places to begin at, then characters of the name, then of the filter. -/
def rest (s : Search) : ℕ × ℕ × ℕ :=
  ((s.lastStar.map fun x => x.2.length).getD (s.name.length + 1), s.name.length, s.filter.length)

section

variable {s : Search} {n : UInt8} {name : List UInt8}

theorem rest_advance (hn : s.name = n :: name) :
    Prod.Lex (· < ·) (Prod.Lex (· < ·) (· < ·)) s.advance.rest s.rest := by
  have hlt : s.name.tail.length < s.name.length := by simp [hn]
  rw [Prod.lex_def]
  cases hs : s.lastStar with
  | none =>
    refine .inl ?_
    simpa [rest, advance, hs] using hlt
  | some x => exact .inr ⟨by simp [rest, advance, hs], Prod.lex_def.2 (.inl hlt)⟩

theorem rest_star (hf : s.filter.head? = some asterisk) :
    Prod.Lex (· < ·) (Prod.Lex (· < ·) (· < ·)) s.star.rest s.rest := by
  have hlt : s.filter.tail.length < s.filter.length := by
    obtain ⟨filter, hfilter⟩ := List.head?_eq_some_iff.1 hf
    simp [hfilter]
  rw [Prod.lex_def]
  cases hs : s.lastStar with
  | none => exact .inl (by simp [rest, star, hs])
  | some x =>
    rcases (s.matchPos_le x hs).lt_or_eq with hname | hname
    · exact .inl (by simpa [rest, star, hs] using hname)
    · refine .inr ⟨by simpa [rest, star, hs] using hname, Prod.lex_def.2 (.inr ⟨rfl, hlt⟩)⟩

theorem rest_back {x : List UInt8 × List UInt8} (hn : s.name = n :: name)
    (hs : s.lastStar = some x) :
    Prod.Lex (· < ·) (Prod.Lex (· < ·) (· < ·)) (back x.1 x.2).rest s.rest := by
  have hle := s.matchPos_le x hs
  rw [hn, List.length_cons] at hle
  refine Prod.lex_def.2 (.inl ?_)
  simp only [rest, back, hs, Option.map_some, Option.getD_some, List.length_tail]
  omega

end

/-- The loop of `matchesFilter`, from `s` on. -/
def loop (s : Search) : Bool :=
  match _hn : s.name with
  | [] => s.filter.all (· = asterisk)
  | n :: _ =>
    if s.filter.head? = some n ∨ s.filter.head? = some questionMark then s.advance.loop
    else if _hf : s.filter.head? = some asterisk then s.star.loop
    else
      match _hs : s.lastStar with
      | some x => (back x.1 x.2).loop
      | none => false
termination_by s.rest
decreasing_by
  · exact rest_advance _hn
  · exact rest_star _hf
  · exact rest_back _hn _hs

end Search

/-- `Dir::matchesFilter`. -/
def matchesFilter (name filter : List UInt8) : Bool :=
  if filter = [asterisk] then true
  else Search.loop ⟨name, filter, none, nofun⟩

/-! ## What is found -/

namespace Search

/-- Since the last `*`, name and filter have been the same, character by character. -/
def Walked (s : Search) : Prop :=
  ∀ x ∈ s.lastStar, Walk questionMark x.1 x.2 s.filter s.name

/-- What is left of the name matches what is left of the filter, or another place for the last `*`
    to end at does. -/
def Found (s : Search) : Prop :=
  Literal asterisk questionMark s.filter s.name ∨
    ∃ x ∈ s.lastStar, ∃ v, v <:+ x.2.tail ∧ Literal asterisk questionMark x.1 v

variable {s : Search} {n : UInt8} {name : List UInt8}

theorem asterisk_ne : asterisk ≠ questionMark := by decide

@[simp] theorem name_advance : s.advance.name = s.name.tail := rfl

@[simp] theorem filter_advance : s.advance.filter = s.filter.tail := rfl

@[simp] theorem lastStar_advance : s.advance.lastStar = s.lastStar := rfl

theorem cons_of_head? (hf : s.filter.head? = some n ∨ s.filter.head? = some questionMark) :
    ∃ f, s.filter = f :: s.filter.tail ∧ (f = n ∨ f = questionMark) := by
  rcases hf with hf | hf
  all_goals obtain ⟨filter, hfilter⟩ := List.head?_eq_some_iff.1 hf
  · exact ⟨n, by rw [hfilter, List.tail_cons], .inl rfl⟩
  · exact ⟨questionMark, by rw [hfilter, List.tail_cons], .inr rfl⟩

theorem walked_advance (h : s.Walked) (hn : s.name = n :: name)
    (hf : s.filter.head? = some n ∨ s.filter.head? = some questionMark) : s.advance.Walked := by
  intro x hx
  have hwalk := h x hx
  obtain ⟨f, hfilter, hf⟩ := cons_of_head? hf
  rw [hn, hfilter] at hwalk
  rw [name_advance, filter_advance, hn]
  exact hwalk.step hf

theorem found_advance (hn : s.name = n :: name)
    (hf : s.filter.head? = some n ∨ s.filter.head? = some questionMark) :
    s.advance.Found ↔ s.Found := by
  obtain ⟨f, hfilter, hf⟩ := cons_of_head? hf
  refine or_congr_left ?_
  conv_rhs => rw [hn, hfilter, literal_cons_cons hf asterisk_ne]
  rw [name_advance, filter_advance, hn, List.tail_cons]

/-- Another place for the `*` before is not needed any more. -/
theorem found_star (h : s.Walked) (hn : s.name = n :: name) (hne : n ≠ asterisk)
    (hf : s.filter.head? = some asterisk) : s.star.Found ↔ s.Found := by
  obtain ⟨filter, hfilter⟩ := List.head?_eq_some_iff.1 hf
  have hstar : s.star.Found ↔
      ∃ v, v <:+ n :: name ∧ Literal asterisk questionMark filter v := by
    simp only [Found, star, hn, hfilter, List.tail_cons, Option.mem_some_iff, exists_eq_left']
    constructor
    · rintro (h | ⟨v, hv, h⟩)
      · exact ⟨_, List.suffix_rfl, h⟩
      · exact ⟨v, hv.trans (List.suffix_cons n name), h⟩
    · rintro ⟨v, hv, h⟩
      rcases List.suffix_cons_iff.1 hv with rfl | hv
      · exact .inl h
      · exact .inr ⟨v, hv, h⟩
  rw [hstar]
  constructor
  · intro hex
    refine .inl ?_
    rw [hfilter, hn]
    exact (literal_star_cons hne asterisk_ne).2 hex
  · rintro (hl | ⟨x, hx, v, hv, hl⟩)
    · rw [hfilter, hn] at hl
      exact (literal_star_cons hne asterisk_ne).1 hl
    · obtain ⟨u, hu, hl⟩ :=
        (h x hx).exists_literal asterisk_ne (hv.trans (List.tail_suffix _)) hl
      rw [hfilter] at hl
      rw [hn] at hu
      obtain ⟨u', hu', hl⟩ := hl.exists_suffix asterisk_ne
      exact ⟨u', hu'.trans hu, hl⟩

theorem found_back {x : List UInt8 × List UInt8} (hs : s.lastStar = some x)
    (hnot : ¬Literal asterisk questionMark s.filter s.name) :
    (back x.1 x.2).Found ↔ s.Found := by
  rw [Found, Found, or_iff_right hnot]
  simp only [back, hs, Option.mem_some_iff, exists_eq_left']
  constructor
  · rintro (h | ⟨v, hv, h⟩)
    · exact ⟨_, List.suffix_rfl, h⟩
    · exact ⟨v, hv.trans (List.tail_suffix _), h⟩
  · rintro ⟨v, hv, h⟩
    cases hx : x.2.tail with
    | nil =>
      rw [hx] at hv
      rw [List.suffix_nil.1 hv] at h
      exact .inl h
    | cons a l =>
      rw [hx] at hv
      rcases List.suffix_cons_iff.1 hv with rfl | hv
      · exact .inl h
      · exact .inr ⟨v, hv, h⟩

theorem not_literal (hn : s.name = n :: name)
    (hf : ¬(s.filter.head? = some n ∨ s.filter.head? = some questionMark))
    (hstar : s.filter.head? ≠ some asterisk) :
    ¬Literal asterisk questionMark s.filter s.name := by
  rw [hn]
  cases hfilter : s.filter with
  | nil => exact not_literal_nil_cons
  | cons f filter =>
    rw [hfilter] at hf hstar
    refine not_literal_cons_cons (fun h => hf (.inl ?_)) (fun h => hstar ?_) fun h => hf (.inr ?_)
    all_goals rw [h, List.head?_cons]

/-- What is found at the end of the name. -/
theorem found_nil (h : s.Walked) (hn : s.name = []) :
    s.filter.all (· = asterisk) = true ↔ s.Found := by
  have hall : s.filter.all (· = asterisk) = true ↔
      Literal asterisk questionMark s.filter s.name := by
    rw [hn, literal_nil_iff]
    simp
  rw [hall]
  refine ⟨.inl, ?_⟩
  rintro (hl | ⟨x, hx, v, hv, hl⟩)
  · exact hl
  · obtain ⟨u, hu, hl⟩ := (h x hx).exists_literal asterisk_ne (hv.trans (List.tail_suffix _)) hl
    rw [hn] at hu ⊢
    rwa [List.suffix_nil.1 hu] at hl

theorem loop_nil (hn : s.name = []) : s.loop = s.filter.all (· = asterisk) := by
  rw [loop]
  split
  · rfl
  · rename_i hn'
    rw [hn] at hn'
    cases hn'

theorem loop_cons (hn : s.name = n :: name) : s.loop =
    if s.filter.head? = some n ∨ s.filter.head? = some questionMark then s.advance.loop
    else if s.filter.head? = some asterisk then s.star.loop
    else
      match s.lastStar with
      | some x => (back x.1 x.2).loop
      | none => false := by
  rw [loop]
  split
  · rename_i hn'
    rw [hn] at hn'
    cases hn'
  · rename_i hn'
    rw [hn] at hn'
    obtain ⟨rfl, rfl⟩ := List.cons.inj hn'
    split_ifs
    · rfl
    · rfl
    · split
      all_goals
        rename_i hs
        rw [hs]

theorem walked_star : s.star.Walked := by
  rintro x ⟨⟩
  exact .start

theorem walked_back (filter name : List UInt8) : (back filter name).Walked := by
  rintro x ⟨⟩
  exact .start

/-- The loop ends, and finds what there is to be found. -/
theorem loop_iff (h : s.Walked) : s.loop = true ↔ s.Found := by
  induction s using loop.induct with
  | case1 s hn => rw [loop_nil hn, found_nil h hn]
  | case2 s n name hn hf ih =>
    rw [loop_cons hn, if_pos hf, ih (walked_advance h hn hf), found_advance hn hf]
  | case3 s n name hn hf hstar ih =>
    have hne : n ≠ asterisk := fun heq => hf (.inl (heq ▸ hstar))
    rw [loop_cons hn, if_neg hf, if_pos hstar, ih walked_star, found_star h hn hne hstar]
  | case4 s n name hn hf hstar x hs ih =>
    have hnot : ¬Literal asterisk questionMark s.filter s.name := not_literal hn hf hstar
    rw [loop_cons hn, if_neg hf, if_neg hstar, hs, ih (walked_back x.1 x.2), found_back hs hnot]
  | case5 s n name hn hf hstar hs =>
    have hnot : ¬Literal asterisk questionMark s.filter s.name := not_literal hn hf hstar
    rw [loop_cons hn, if_neg hf, if_neg hstar, hs, Found, or_iff_right hnot, hs]
    simp

end Search

/-- The filter is `*`, or matches the name so that each `*` that begins at a `*` is this character. -/
theorem matchesFilter_iff_literal (name filter : List UInt8) :
    matchesFilter name filter = true ↔
      filter = [asterisk] ∨ Literal asterisk questionMark filter name := by
  rw [matchesFilter]
  split_ifs with hf
  · exact iff_of_true rfl (.inl hf)
  · rw [Search.loop_iff fun x hx => (by cases hx), or_iff_right hf, Search.Found, or_iff_left]
    rintro ⟨x, hx, -⟩
    cases hx

/-- Filter and name as a pattern and a word. -/
abbrev Matches (filter name : List UInt8) : Prop := Glob asterisk questionMark filter name

/-- The name matches the filter so that each `*` of the filter that begins at a `*` of the name
    stands for just this character. -/
abbrev MatchesLiterally (filter name : List UInt8) : Prop :=
  Literal asterisk questionMark filter name

/-- The answer is right if the filter is `*`, or the name does not match, or it does so literally. -/
theorem matchesFilter_right_iff (name filter : List UInt8) :
    (matchesFilter name filter = true ↔ Matches filter name) ↔
      filter = [asterisk] ∨ (Matches filter name → MatchesLiterally filter name) := by
  rw [matchesFilter_iff_literal]
  constructor
  · intro h
    rw [or_iff_not_imp_left]
    exact fun hf hm => (h.2 hm).resolve_left hf
  · rintro (rfl | h)
    · exact iff_of_true (.inl rfl) (glob_star name)
    · constructor
      · rintro (rfl | hl)
        · exact glob_star name
        · exact hl.glob
      · exact fun hm => .inr (h hm)

/-- In particular for a name without a `*`. -/
theorem matchesFilter_of_not_mem {name : List UInt8} (filter : List UInt8) (h : asterisk ∉ name) :
    matchesFilter name filter = true ↔ Matches filter name :=
  (matchesFilter_right_iff name filter).2 (.inr fun hm => hm.literal h)

/-- The name `*ba` and the filter `*a`. -/
theorem matchesFilter_fails_of_asterisk : ¬ ∀ name filter : List UInt8,
    matchesFilter name filter = true ↔ Matches filter name := by
  intro hall
  have hmatch : Matches [asterisk, 97] [asterisk, 98, 97] :=
    .star [asterisk, 98] (.letter (by decide) (by decide) .nil)
  rcases (matchesFilter_iff_literal _ _).1 ((hall _ _).2 hmatch) with heq | hl
  · cases heq
  · have hrest := (literal_cons_cons (.inl rfl) Search.asterisk_ne).1 hl
    exact not_literal_cons_cons (by decide) (by decide) (by decide) hrest

end EW8.Core

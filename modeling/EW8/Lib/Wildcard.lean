import Mathlib

/-!
# Patterns with wildcards

A pattern is a word in which two letters are wildcards: one stands for any word (`star`), and one for
any letter (`any`). A word *matches* it (`Glob`) if it is the pattern with a word in place of each
`star` and a letter in place of each `any`; every other letter stands for itself.

A matcher that compares letters before it looks for wildcards takes a `star` for itself where the
word has the same letter. What it finds are the *literal* matches (`Literal`), in which a `star`
that begins at a `star` of the word stands for just this letter. They are matches (`Literal.glob`),
and all of them where the word has no `star` (`Glob.literal`). From where a walk letter by letter has
come to, whatever can be matched from further on in the word can be matched as well
(`Walk.exists_literal`), so that the matcher need not come back to an earlier `star`.
-/

variable {α : Type*} (star any : α)

/-- The word matches the pattern. -/
inductive Glob : List α → List α → Prop
  | nil : Glob [] []
  | star {p w : List α} (u : List α) (h : Glob p w) : Glob (star :: p) (u ++ w)
  | any {p w : List α} (a : α) (h : Glob p w) : Glob (any :: p) (a :: w)
  | letter {p w : List α} {a : α} (hs : a ≠ star) (ha : a ≠ any) (h : Glob p w) :
    Glob (a :: p) (a :: w)

/-- The word matches the pattern, and each `star` that begins at a `star` is this letter. -/
inductive Literal : List α → List α → Prop
  | nil : Literal [] []
  | star {p w : List α} (u : List α) (hne : (u ++ w).head? ≠ some star) (h : Literal p w) :
    Literal (star :: p) (u ++ w)
  | same {p w : List α} (h : Literal p w) : Literal (star :: p) (star :: w)
  | any {p w : List α} (a : α) (h : Literal p w) : Literal (any :: p) (a :: w)
  | letter {p w : List α} {a : α} (hs : a ≠ star) (ha : a ≠ any) (h : Literal p w) :
    Literal (a :: p) (a :: w)

/-- From the pattern `q` and the word `v`, letter by letter, to what is left of them. -/
inductive Walk (q v : List α) : List α → List α → Prop
  | start : Walk q v q v
  | step {p w : List α} {a b : α} (h : Walk q v (b :: p) (a :: w)) (hb : b = a ∨ b = any) :
    Walk q v p w

variable {star any} {p q v w : List α} {a b : α}

theorem Literal.glob (h : Literal star any p w) : Glob star any p w := by
  induction h with
  | nil => exact .nil
  | star u hne h ih => exact .star u ih
  | same h ih => exact .star [star] ih
  | any a h ih => exact .any a ih
  | letter hs ha h ih => exact .letter hs ha ih

/-- In a word without `star`, there is nothing to be taken for it. -/
theorem Glob.literal (h : Glob star any p w) (hw : star ∉ w) : Literal star any p w := by
  induction h with
  | nil => exact .nil
  | star u h ih =>
    refine .star u (fun heq => hw ?_) (ih fun hmem => hw (List.mem_append_right u hmem))
    exact List.mem_of_mem_head? heq
  | any a h ih => exact .any a (ih fun hmem => hw (List.mem_cons_of_mem a hmem))
  | letter hs ha h ih => exact .letter hs ha (ih fun hmem => hw (List.mem_cons_of_mem _ hmem))

theorem glob_star (w : List α) : Glob star any [star] w :=
  List.append_nil w ▸ .star w .nil

theorem literal_nil_iff : Literal star any p [] ↔ ∀ b ∈ p, b = star := by
  constructor
  · intro h
    generalize hw : ([] : List α) = w at h
    induction h with
    | nil => exact fun b hb => absurd hb List.not_mem_nil
    | star u hne h ih =>
      exact List.forall_mem_cons.2 ⟨rfl, ih (List.nil_eq_append_iff.1 hw).2.symm⟩
    | same | any | letter => cases hw
  · intro h
    induction p with
    | nil => exact .nil
    | cons b p ih =>
      obtain ⟨rfl, hp⟩ := List.forall_mem_cons.1 h
      exact .star [] (by simp) (ih hp)

/-- A `star` begins at another letter: it stands for some word. -/
theorem literal_star_cons (ha : a ≠ star) (hany : star ≠ any) :
    Literal star any (star :: p) (a :: w) ↔ ∃ v, v <:+ a :: w ∧ Literal star any p v := by
  constructor
  · intro h
    generalize hw : a :: w = w' at h
    cases h with
    | star u hne h => exact ⟨_, List.suffix_append u _, h⟩
    | same h => exact absurd (List.cons.inj hw).1 ha
    | any => exact absurd rfl hany
    | letter hs => exact absurd rfl hs
  · rintro ⟨v, ⟨u, hu⟩, h⟩
    rw [← hu]
    refine .star u (fun heq => ha ?_) h
    rw [hu] at heq
    exact Option.some.inj heq

/-- A letter and the same one, or any. -/
theorem literal_cons_cons (hb : b = a ∨ b = any) (hany : star ≠ any) :
    Literal star any (b :: p) (a :: w) ↔ Literal star any p w := by
  constructor
  · intro h
    generalize hw : a :: w = w' at h
    cases h with
    | star u hne h =>
      rcases hb with rfl | hb
      · rw [← hw] at hne
        exact absurd rfl hne
      · exact absurd hb hany
    | same h | any _ h | letter _ _ h => exact (List.cons.inj hw).2 ▸ h
  · intro h
    by_cases hany' : b = any
    · rw [hany']
      exact .any a h
    · obtain rfl := hb.resolve_right hany'
      by_cases hs : b = star
      · rw [hs]
        exact .same h
      · exact .letter hs hany' h

/-- Another letter. -/
theorem not_literal_cons_cons (hab : b ≠ a) (hs : b ≠ star) (ha : b ≠ any) :
    ¬Literal star any (b :: p) (a :: w) := by
  intro h
  generalize hw : a :: w = w' at h
  cases h with
  | star | same => exact hs rfl
  | any => exact ha rfl
  | letter => exact hab (List.cons.inj hw).1.symm

theorem not_literal_nil_cons : ¬Literal star any [] (a :: w) := nofun

/-- What is matched by a `star` and the rest of the pattern ends with what the rest matches. -/
theorem Literal.exists_suffix (h : Literal star any (star :: p) w) (hany : star ≠ any) :
    ∃ v, v <:+ w ∧ Literal star any p v := by
  cases h with
  | star u hne h => exact ⟨_, List.suffix_append u _, h⟩
  | same h => exact ⟨_, List.suffix_cons _ _, h⟩
  | any => exact absurd rfl hany
  | letter hs => exact absurd rfl hs

/-- What the pattern matches from further on in the word, the rest of the pattern matches from
    further on in the rest of the word. -/
theorem Walk.exists_literal (h : Walk any q v p w) (hany : star ≠ any) {u : List α} (hu : u <:+ v)
    (hl : Literal star any q u) : ∃ u', u' <:+ w ∧ Literal star any p u' := by
  induction h with
  | start => exact ⟨u, hu, hl⟩
  | @step p w a b _ hb ih =>
    obtain ⟨u', hu', hl'⟩ := ih
    generalize hq : b :: p = q' at hl'
    cases hl' with
    | nil => cases hq
    | @star p' w' x hne h =>
      obtain ⟨rfl, rfl⟩ := List.cons.inj hq
      -- the letter of the word is a `star`, and so the match begins behind it
      rcases List.suffix_cons_iff.1 hu' with heq | hsuffix
      · rcases hb with rfl | hb
        · rw [heq] at hne
          exact absurd rfl hne
        · exact absurd hb hany
      · exact ⟨w', (List.suffix_append x w').trans hsuffix, h⟩
    | same h | any _ h | letter _ _ h =>
      obtain ⟨rfl, rfl⟩ := List.cons.inj hq
      refine ⟨_, ?_, h⟩
      rcases List.suffix_cons_iff.1 hu' with heq | hsuffix
      · rw [(List.cons.inj heq).2]
      · exact (List.suffix_cons _ _).trans hsuffix

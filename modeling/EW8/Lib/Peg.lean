import Mathlib

/-!
# Parsing expressions with actions

A grammar of parsing expressions has a rule for each name, and an action for each rule: the action
is run as soon as the rule has matched, on a state that all rules share, and what an alternative has
done to the state stays when the alternative is given up. Terminals and actions may be undefined; so
is then what comes of the parse.

* `Parses` is what an expression does, and `run` computes it with a bound on the depth
  (`parses_of_run`, `Parses.exists_run`), which can be given in advance for a grammar without
  recursion whose repeated expressions take a symbol each time (`Terminating.exists_run`);
* an invariant of the actions of some rules is one of the expressions that use no others
  (`Parses.invariant`);
* stacks that each rule only takes from what its own body has put there never run out
  (`Balanced.parses`).
-/

namespace Peg

/-- An expression over the terminals `τ` and the rules `ν`. -/
inductive Expr (τ ν : Type*)
  | terminal (a : τ)
  | empty
  | seq (e f : Expr τ ν)
  | choice (e f : Expr τ ν)
  | star (e : Expr τ ν)
  | not (e : Expr τ ν)
  | token (e : Expr τ ν)
  | rule (r : ν)
  deriving DecidableEq, Repr

namespace Expr

variable {τ ν : Type*}

/-- Zero or one. -/
def opt (e : Expr τ ν) : Expr τ ν := choice e empty

/-- One or more. -/
def plus (e : Expr τ ν) : Expr τ ν := seq e (star e)

def seqs : List (Expr τ ν) → Expr τ ν
  | [] => empty
  | [e] => e
  | e :: l => seq e (seqs l)

/-- One alternative at least. -/
def choices (e : Expr τ ν) : List (Expr τ ν) → Expr τ ν
  | [] => e
  | f :: l => choice e (choices f l)

end Expr

/-- What a terminal makes of an input. -/
inductive Match
  | length (n : ℕ)
  | failure
  | undefined
  deriving DecidableEq, Repr

/-- How an expression ends: on success, with the text that has matched, the rest of the input, and
    the texts of the tokens. -/
inductive Result (α : Type*)
  | success (text rest : List α) (tokens : List (List α))
  | failure
  | undefined
  deriving DecidableEq, Repr

namespace Result

variable {α : Type*}

/-- After a text and its tokens. -/
def prepend (t : List α) (u : List (List α)) : Result α → Result α
  | success t' s u' => success (t ++ t') s (u ++ u')
  | o => o

/-- The predicate that there is no match. -/
def negate (s : List α) : Result α → Result α
  | success _ _ _ => failure
  | failure => success [] s []
  | undefined => undefined

/-- The text is a token. -/
def mark : Result α → Result α
  | success t s u => success t s (u ++ [t])
  | o => o

variable {o : Result α} {t t' s s' : List α} {u u' : List (List α)}

theorem prepend_eq_success (h : o.prepend t u = success t' s' u') :
    ∃ t₂ u₂, o = success t₂ s' u₂ ∧ t ++ t₂ = t' := by
  cases o with
  | success t₂ s₂ u₂ =>
    obtain ⟨ht, rfl, -⟩ := success.inj h
    exact ⟨t₂, u₂, rfl, ht⟩
  | failure => cases h
  | undefined => cases h

theorem prepend_eq_undefined (h : o.prepend t u = undefined) : o = undefined := by
  cases o with
  | success t₂ s₂ u₂ => cases h
  | failure => cases h
  | undefined => rfl

theorem mark_eq_success (h : o.mark = success t' s' u') : ∃ u, o = success t' s' u := by
  cases o with
  | success t₂ s₂ u₂ =>
    obtain ⟨rfl, rfl, -⟩ := success.inj h
    exact ⟨u₂, rfl⟩
  | failure => cases h
  | undefined => cases h

theorem mark_eq_undefined (h : o.mark = undefined) : o = undefined := by
  cases o with
  | success t₂ s₂ u₂ => cases h
  | failure => cases h
  | undefined => rfl

theorem negate_eq_success (h : o.negate s = success t' s' u') :
    o = failure ∧ t' = [] ∧ s' = s := by
  cases o with
  | success t₂ s₂ u₂ => cases h
  | failure =>
    obtain ⟨rfl, rfl, -⟩ := success.inj h
    exact ⟨rfl, rfl, rfl⟩
  | undefined => cases h

theorem negate_eq_undefined (h : o.negate s = undefined) : o = undefined := by
  cases o with
  | success t₂ s₂ u₂ => cases h
  | failure => cases h
  | undefined => rfl

end Result

/-- A grammar over the symbols `α`, with actions on the state `σ`. -/
structure Grammar (α τ ν σ : Type*) where
  terminal : τ → List α → Match
  body : ν → Expr τ ν
  action : ν → List α → σ → Option σ

variable {α τ ν σ : Type*} (G : Grammar α τ ν σ)

namespace Grammar

/-- A terminal takes symbols, which there have to be. -/
def read (a : τ) (s : List α) : Result α :=
  match G.terminal a s with
  | .length n => if n ≤ s.length then .success (s.take n) (s.drop n) [] else .undefined
  | .failure => .failure
  | .undefined => .undefined

/-- The action of a rule is given the first token, or else the text. -/
def conclude (r : ν) (x : σ) : Result α → Result α × σ
  | .success t s u =>
    match G.action r (u.headD t) x with
    | some x' => (.success t s [], x')
    | none => (.undefined, x)
  | o => (o, x)

/-- What an expression does to an input and a state. A repeated expression is not tried at the end
    of the input. -/
def run : ℕ → Expr τ ν → List α → σ → Option (Result α × σ)
  | 0, _, _, _ => none
  | _ + 1, .terminal a, s, x => some (G.read a s, x)
  | _ + 1, .empty, s, x => some (.success [] s [], x)
  | k + 1, .seq e f, s, x => (run k e s x).bind fun
    | (.success t s₁ u, x₁) => (run k f s₁ x₁).map fun p => (p.1.prepend t u, p.2)
    | p => some p
  | k + 1, .choice e f, s, x => (run k e s x).bind fun
    | (.failure, x₁) => run k f s x₁
    | p => some p
  | _ + 1, .star _, [], x => some (.success [] [] [], x)
  | k + 1, .star e, c :: s, x => (run k e (c :: s) x).bind fun
    | (.success t s₁ u, x₁) => (run k (.star e) s₁ x₁).map fun p => (p.1.prepend t u, p.2)
    | (.failure, x₁) => some (.success [] (c :: s) [], x₁)
    | p => some p
  | k + 1, .not e, s, x => (run k e s x).map fun p => (p.1.negate s, p.2)
  | k + 1, .token e, s, x => (run k e s x).map fun p => (p.1.mark, p.2)
  | k + 1, .rule r, s, x => (run k (G.body r) s x).map fun p => G.conclude r p.2 p.1

end Grammar

/-- The expression takes the input and the state to the result and the state. -/
inductive Parses : Expr τ ν → List α → σ → Result α → σ → Prop
  | terminal (a : τ) (s : List α) (x : σ) : Parses (.terminal a) s x (G.read a s) x
  | empty (s : List α) (x : σ) : Parses .empty s x (.success [] s []) x
  | seq {e f : Expr τ ν} {s t s₁ : List α} {u : List (List α)} {o : Result α} {x x₁ x₂ : σ}
    (h₁ : Parses e s x (.success t s₁ u) x₁) (h₂ : Parses f s₁ x₁ o x₂) :
    Parses (.seq e f) s x (o.prepend t u) x₂
  | seq_failure {e : Expr τ ν} (f : Expr τ ν) {s : List α} {x x₁ : σ}
    (h : Parses e s x .failure x₁) : Parses (.seq e f) s x .failure x₁
  | seq_undefined {e : Expr τ ν} (f : Expr τ ν) {s : List α} {x x₁ : σ}
    (h : Parses e s x .undefined x₁) : Parses (.seq e f) s x .undefined x₁
  | choice {e : Expr τ ν} (f : Expr τ ν) {s : List α} {o : Result α} {x x₁ : σ}
    (h : Parses e s x o x₁) (ho : o ≠ .failure) : Parses (.choice e f) s x o x₁
  | choice_failure {e f : Expr τ ν} {s : List α} {o : Result α} {x x₁ x₂ : σ}
    (h₁ : Parses e s x .failure x₁) (h₂ : Parses f s x₁ o x₂) : Parses (.choice e f) s x o x₂
  | star_nil (e : Expr τ ν) (x : σ) : Parses (.star e) [] x (.success [] [] []) x
  | star {e : Expr τ ν} {s t s₁ : List α} {u : List (List α)} {o : Result α} {x x₁ x₂ : σ}
    (hs : s ≠ []) (h₁ : Parses e s x (.success t s₁ u) x₁) (h₂ : Parses (.star e) s₁ x₁ o x₂) :
    Parses (.star e) s x (o.prepend t u) x₂
  | star_failure {e : Expr τ ν} {s : List α} {x x₁ : σ} (hs : s ≠ [])
    (h : Parses e s x .failure x₁) : Parses (.star e) s x (.success [] s []) x₁
  | star_undefined {e : Expr τ ν} {s : List α} {x x₁ : σ} (hs : s ≠ [])
    (h : Parses e s x .undefined x₁) : Parses (.star e) s x .undefined x₁
  | not {e : Expr τ ν} {s : List α} {o : Result α} {x x₁ : σ} (h : Parses e s x o x₁) :
    Parses (.not e) s x (o.negate s) x₁
  | token {e : Expr τ ν} {s : List α} {o : Result α} {x x₁ : σ} (h : Parses e s x o x₁) :
    Parses (.token e) s x o.mark x₁
  | rule {r : ν} {s : List α} {o : Result α} {x x₁ : σ} (h : Parses (G.body r) s x o x₁) :
    Parses (.rule r) s x (G.conclude r x₁ o).1 (G.conclude r x₁ o).2

variable {G} {e f : Expr τ ν} {s t : List α} {u : List (List α)} {o o' : Result α} {x x' y : σ}

theorem Grammar.read_eq_success {a : τ} {s' : List α} (h : G.read a s = .success t s' u) :
    ∃ n, G.terminal a s = .length n ∧ n ≤ s.length ∧ t = s.take n ∧ s' = s.drop n ∧ u = [] := by
  unfold Grammar.read at h
  split at h
  · rename_i n hn
    split at h
    · rename_i hle
      obtain ⟨rfl, rfl, rfl⟩ := Result.success.inj h
      exact ⟨n, hn, hle, rfl, rfl, rfl⟩
    · cases h
  · cases h
  · cases h

theorem Grammar.read_ne_undefined {a : τ} (h : G.terminal a s ≠ .undefined)
    (hle : ∀ n, G.terminal a s = .length n → n ≤ s.length) : G.read a s ≠ .undefined := by
  unfold Grammar.read
  split
  · rename_i n hn
    rw [if_pos (hle n hn)]
    nofun
  · nofun
  · exact absurd ‹_› h

theorem Grammar.conclude_eq_success {r : ν} {s' : List α}
    (h : (G.conclude r x o).1 = .success t s' u) : (∃ u', o = .success t s' u') ∧ u = [] := by
  cases o with
  | success t₁ s₁ u₁ =>
    simp only [Grammar.conclude] at h
    split at h
    · obtain ⟨rfl, rfl, rfl⟩ := Result.success.inj h
      exact ⟨⟨u₁, rfl⟩, rfl⟩
    · cases h
  | failure => cases h
  | undefined => cases h

/-! ## The computation -/

theorem parses_of_run {k : ℕ} (h : G.run k e s x = some (o, x')) : Parses G e s x o x' := by
  induction k generalizing e s x o x' with
  | zero => simp [Grammar.run] at h
  | succ k ih =>
    cases e with
    | terminal a =>
      obtain ⟨rfl, rfl⟩ := Prod.mk.inj (Option.some.inj h)
      exact .terminal a s x
    | empty =>
      obtain ⟨rfl, rfl⟩ := Prod.mk.inj (Option.some.inj h)
      exact .empty s x
    | seq e f =>
      obtain ⟨⟨o₁, x₁⟩, h₁, h⟩ := Option.bind_eq_some_iff.1 h
      cases o₁ with
      | success t s₁ u =>
        obtain ⟨⟨o₂, x₂⟩, h₂, h⟩ := Option.map_eq_some_iff.1 h
        obtain ⟨rfl, rfl⟩ := Prod.mk.inj h
        exact .seq (ih h₁) (ih h₂)
      | failure =>
        obtain ⟨rfl, rfl⟩ := Prod.mk.inj (Option.some.inj h)
        exact .seq_failure f (ih h₁)
      | undefined =>
        obtain ⟨rfl, rfl⟩ := Prod.mk.inj (Option.some.inj h)
        exact .seq_undefined f (ih h₁)
    | choice e f =>
      obtain ⟨⟨o₁, x₁⟩, h₁, h⟩ := Option.bind_eq_some_iff.1 h
      cases o₁ with
      | failure => exact .choice_failure (ih h₁) (ih h)
      | success t s₁ u =>
        obtain ⟨rfl, rfl⟩ := Prod.mk.inj (Option.some.inj h)
        exact .choice f (ih h₁) nofun
      | undefined =>
        obtain ⟨rfl, rfl⟩ := Prod.mk.inj (Option.some.inj h)
        exact .choice f (ih h₁) nofun
    | star e =>
      cases s with
      | nil =>
        obtain ⟨rfl, rfl⟩ := Prod.mk.inj (Option.some.inj h)
        exact .star_nil e x
      | cons c s =>
        obtain ⟨⟨o₁, x₁⟩, h₁, h⟩ := Option.bind_eq_some_iff.1 h
        have hs : c :: s ≠ [] := List.cons_ne_nil c s
        cases o₁ with
        | success t s₁ u =>
          obtain ⟨⟨o₂, x₂⟩, h₂, h⟩ := Option.map_eq_some_iff.1 h
          obtain ⟨rfl, rfl⟩ := Prod.mk.inj h
          exact .star hs (ih h₁) (ih h₂)
        | failure =>
          obtain ⟨rfl, rfl⟩ := Prod.mk.inj (Option.some.inj h)
          exact .star_failure hs (ih h₁)
        | undefined =>
          obtain ⟨rfl, rfl⟩ := Prod.mk.inj (Option.some.inj h)
          exact .star_undefined hs (ih h₁)
    | not e =>
      obtain ⟨⟨o₁, x₁⟩, h₁, h⟩ := Option.map_eq_some_iff.1 h
      obtain ⟨rfl, rfl⟩ := Prod.mk.inj h
      exact .not (ih h₁)
    | token e =>
      obtain ⟨⟨o₁, x₁⟩, h₁, h⟩ := Option.map_eq_some_iff.1 h
      obtain ⟨rfl, rfl⟩ := Prod.mk.inj h
      exact .token (ih h₁)
    | rule r =>
      obtain ⟨⟨o₁, x₁⟩, h₁, h⟩ := Option.map_eq_some_iff.1 h
      obtain ⟨rfl, rfl⟩ := Prod.mk.inj h
      exact .rule (ih h₁)

/-- A computation that is deep enough finds what the expression does. -/
theorem Parses.exists_run (h : Parses G e s x o x') :
    ∃ k, ∀ j, k < j → G.run j e s x = some (o, x') := by
  induction h with
  | terminal a s x => exact ⟨0, fun | _ + 1, _ => rfl⟩
  | empty s x => exact ⟨0, fun | _ + 1, _ => rfl⟩
  | star_nil e x => exact ⟨0, fun | _ + 1, _ => rfl⟩
  | seq _ _ ih₁ ih₂ =>
    obtain ⟨⟨k₁, h₁⟩, k₂, h₂⟩ := ih₁, ih₂
    refine ⟨max k₁ k₂ + 1, fun | j + 1, hj => ?_⟩
    simp only [Grammar.run, h₁ j (by omega), h₂ j (by omega), Option.bind_some, Option.map_some]
  | star hs _ _ ih₁ ih₂ =>
    obtain ⟨⟨k₁, h₁⟩, k₂, h₂⟩ := ih₁, ih₂
    obtain ⟨c, s, rfl⟩ := List.exists_cons_of_ne_nil hs
    refine ⟨max k₁ k₂ + 1, fun | j + 1, hj => ?_⟩
    simp only [Grammar.run, h₁ j (by omega), h₂ j (by omega), Option.bind_some, Option.map_some]
  | choice_failure _ _ ih₁ ih₂ =>
    obtain ⟨⟨k₁, h₁⟩, k₂, h₂⟩ := ih₁, ih₂
    refine ⟨max k₁ k₂ + 1, fun | j + 1, hj => ?_⟩
    simp only [Grammar.run, h₁ j (by omega), h₂ j (by omega), Option.bind_some]
  | choice f _ ho ih =>
    obtain ⟨k, h⟩ := ih
    refine ⟨k + 1, fun | j + 1, hj => ?_⟩
    simp only [Grammar.run, h j (by omega), Option.bind_some]
    cases ‹Result α› <;> first | rfl | exact absurd rfl ho
  | star_failure hs _ ih | star_undefined hs _ ih =>
    obtain ⟨k, h⟩ := ih
    obtain ⟨c, s, rfl⟩ := List.exists_cons_of_ne_nil hs
    refine ⟨k + 1, fun | j + 1, hj => ?_⟩
    simp only [Grammar.run, h j (by omega), Option.bind_some]
  | seq_failure _ _ ih | seq_undefined _ _ ih =>
    obtain ⟨k, h⟩ := ih
    refine ⟨k + 1, fun | j + 1, hj => ?_⟩
    simp only [Grammar.run, h j (by omega), Option.bind_some]
  | not _ ih | token _ ih | rule _ ih =>
    obtain ⟨k, h⟩ := ih
    refine ⟨k + 1, fun | j + 1, hj => ?_⟩
    simp only [Grammar.run, h j (by omega), Option.map_some]

/-- An expression does one thing. -/
theorem Parses.unique (h : Parses G e s x o x') (h' : Parses G e s x o' y) : o = o' ∧ x' = y := by
  obtain ⟨⟨k, hk⟩, k', hk'⟩ := h.exists_run, h'.exists_run
  have heq := (hk (max k k' + 1) (by omega)).symm.trans (hk' (max k k' + 1) (by omega))
  exact Prod.mk.inj (Option.some.inj heq)

/-- The text of a match is what has been taken from the input. -/
theorem Parses.append_eq {s' : List α} (h : Parses G e s x (.success t s' u) x') :
    t ++ s' = s := by
  generalize ho : Result.success t s' u = o at h
  induction h generalizing t s' u with
  | terminal a s x =>
    obtain ⟨n, -, -, rfl, rfl, -⟩ := Grammar.read_eq_success ho.symm
    exact List.take_append_drop n s
  | empty s x | star_nil e x | star_failure hs h ih =>
    obtain ⟨rfl, rfl, -⟩ := Result.success.inj ho
    rfl
  | seq _ _ ih₁ ih₂ | star _ _ _ ih₁ ih₂ =>
    obtain ⟨t₂, u₂, ho₂, rfl⟩ := Result.prepend_eq_success ho.symm
    rw [List.append_assoc, ih₂ ho₂.symm, ih₁ rfl]
  | seq_failure | seq_undefined | star_undefined => cases ho
  | choice f h ho' ih => exact ih ho
  | choice_failure h₁ h₂ ih₁ ih₂ => exact ih₂ ho
  | not h ih =>
    obtain ⟨-, rfl, rfl⟩ := Result.negate_eq_success ho.symm
    rfl
  | token h ih =>
    obtain ⟨u₁, ho₁⟩ := Result.mark_eq_success ho.symm
    exact ih ho₁.symm
  | rule h ih =>
    obtain ⟨⟨u', rfl⟩, -⟩ := Grammar.conclude_eq_success ho.symm
    exact ih rfl

theorem Parses.length_le {s' : List α} (h : Parses G e s x (.success t s' u) x') :
    s'.length ≤ s.length := by
  rw [← h.append_eq, List.length_append]
  exact Nat.le_add_left _ _

/-! ## Texts -/

/-- There are no tokens but in the rules. -/
def Expr.plain : Expr τ ν → Bool
  | terminal _ => true
  | empty => true
  | seq e f => e.plain && f.plain
  | choice e f => e.plain && f.plain
  | star e => e.plain
  | not _ => true
  | token _ => false
  | rule _ => true

theorem Parses.tokens_eq_nil {s' : List α} (h : Parses G e s x (.success t s' u) x')
    (he : e.plain) : u = [] := by
  generalize ho : Result.success t s' u = o at h
  induction h generalizing t s' u with
  | terminal a s x =>
    obtain ⟨-, -, -, -, -, rfl⟩ := Grammar.read_eq_success ho.symm
    rfl
  | empty s x | star_nil e x | star_failure hs h ih => exact (Result.success.inj ho).2.2
  | @seq _ _ _ _ _ u₁ o₂ _ _ _ _ _ ih₁ ih₂ =>
    obtain ⟨he, hf⟩ := Bool.and_eq_true_iff.1 he
    cases o₂ with
    | success t₂ s₂ u₂ =>
      rw [(Result.success.inj ho).2.2, ih₁ he rfl, ih₂ hf rfl, List.append_nil]
    | failure => cases ho
    | undefined => cases ho
  | @star _ _ _ _ u₁ o₂ _ _ _ _ _ _ ih₁ ih₂ =>
    cases o₂ with
    | success t₂ s₂ u₂ =>
      rw [(Result.success.inj ho).2.2, ih₁ he rfl, ih₂ he rfl, List.append_nil]
    | failure => cases ho
    | undefined => cases ho
  | seq_failure | seq_undefined | star_undefined => cases ho
  | choice f h ho' ih => exact ih (Bool.and_eq_true_iff.1 he).1 ho
  | choice_failure h₁ h₂ ih₁ ih₂ => exact ih₂ (Bool.and_eq_true_iff.1 he).2 ho
  | @not _ _ o₁ _ _ _ ih =>
    cases o₁ with
    | failure => exact (Result.success.inj ho).2.2
    | success => cases ho
    | undefined => cases ho
  | token => cases he
  | rule h ih => exact (Grammar.conclude_eq_success ho.symm).2

/-- The expression takes the text `t` when `s` follows. -/
def Takes (G : Grammar α τ ν σ) (e : Expr τ ν) (t s : List α) (x x' : σ) : Prop :=
  ∃ u, Parses G e (t ++ s) x (.success t s u) x'

namespace Takes

variable {x₁ x₂ : σ} {t' : List α} {l : List (Expr τ ν)} {r : ν}

theorem terminal {a : τ} (h : G.terminal a (t ++ s) = .length t.length) :
    Takes G (.terminal a) t s x x := by
  have hread : G.read a (t ++ s) = .success t s [] := by
    unfold Grammar.read
    rw [h, List.length_append]
    simp
  exact ⟨[], hread ▸ Parses.terminal a (t ++ s) x⟩

theorem seqs (h₁ : Takes G e t (t' ++ s) x x₁) (h₂ : Takes G (.seqs (f :: l)) t' s x₁ x₂) :
    Takes G (.seqs (e :: f :: l)) (t ++ t') s x x₂ := by
  obtain ⟨u₁, h₁⟩ := h₁
  obtain ⟨u₂, h₂⟩ := h₂
  refine ⟨u₁ ++ u₂, ?_⟩
  rw [List.append_assoc]
  exact .seq h₁ h₂

/-- One after the other, up to one of which anything may come. -/
theorem seqs_prepend {o : Result α} (h₁ : Takes G e t (t' ++ s) x x₁)
    (h₂ : ∃ u, Parses G (.seqs (f :: l)) (t' ++ s) x₁ (o.prepend t' u) x₂) :
    ∃ u, Parses G (.seqs (e :: f :: l)) (t ++ t' ++ s) x (o.prepend (t ++ t') u) x₂ := by
  obtain ⟨u₁, h₁⟩ := h₁
  obtain ⟨u₂, h₂⟩ := h₂
  refine ⟨u₁ ++ u₂, ?_⟩
  have hprepend : o.prepend (t ++ t') (u₁ ++ u₂) = (o.prepend t' u₂).prepend t u₁ := by
    cases o <;> simp only [Result.prepend, List.append_assoc]
  rw [hprepend, List.append_assoc]
  exact .seq h₁ h₂

/-- One after the other, the first of which takes nothing. -/
theorem seqs_nil (h₁ : Takes G e [] (t ++ s) x x₁) (h₂ : Takes G (.seqs (f :: l)) t s x₁ x₂) :
    Takes G (.seqs (e :: f :: l)) t s x x₂ :=
  seqs h₁ h₂

theorem choice (h : Takes G e t s x x') : Takes G (.choice e f) t s x x' := by
  obtain ⟨u, h⟩ := h
  exact ⟨u, .choice f h nofun⟩

theorem choice_failure (h₁ : Parses G e (t ++ s) x .failure x₁) (h₂ : Takes G f t s x₁ x₂) :
    Takes G (.choice e f) t s x x₂ := by
  obtain ⟨u, h₂⟩ := h₂
  exact ⟨u, .choice_failure h₁ h₂⟩

theorem opt (h : Takes G e t s x x') : Takes G (.opt e) t s x x' := h.choice

theorem opt_nil (h : Parses G e s x .failure x') : Takes G (.opt e) [] s x x' :=
  choice_failure h ⟨[], .empty s x'⟩

theorem star_nil (h : s ≠ [] → Parses G e s x .failure x) : Takes G (.star e) [] s x x := by
  by_cases hs : s = []
  · subst hs
    exact ⟨[], .star_nil e x⟩
  · exact ⟨[], .star_failure hs (h hs)⟩

/-- Nothing, of what begins like one. -/
theorem star_failure (hs : s ≠ []) (h : Parses G e s x .failure x') :
    Takes G (.star e) [] s x x' :=
  ⟨[], .star_failure hs h⟩

theorem star (ht : t ≠ []) (h₁ : Takes G e t (t' ++ s) x x₁)
    (h₂ : Takes G (.star e) t' s x₁ x₂) : Takes G (.star e) (t ++ t') s x x₂ := by
  obtain ⟨u₁, h₁⟩ := h₁
  obtain ⟨u₂, h₂⟩ := h₂
  refine ⟨u₁ ++ u₂, ?_⟩
  rw [List.append_assoc]
  exact .star (by simp [ht]) h₁ h₂

theorem plus (h₁ : Takes G e t (t' ++ s) x x₁) (h₂ : Takes G (.star e) t' s x₁ x₂) :
    Takes G (.plus e) (t ++ t') s x x₂ :=
  seqs (l := []) h₁ h₂

theorem token (h : Takes G e t s x x') : Takes G (.token e) t s x x' := by
  obtain ⟨u, h⟩ := h
  exact ⟨u ++ [t], h.token⟩

/-- A rule whose action does not depend on the text. -/
theorem rule (h : Takes G (G.body r) t s x x₁) (ha : ∀ t, G.action r t x₁ = some x₂) :
    Takes G (.rule r) t s x x₂ := by
  obtain ⟨u, h⟩ := h
  refine ⟨[], ?_⟩
  have hconclude : G.conclude r x₁ (.success t s u) = (.success t s [], x₂) := by
    simp only [Grammar.conclude, ha]
  have hrule := Parses.rule h
  rwa [hconclude] at hrule

/-- A rule without tokens. -/
theorem rule_text (h : Takes G (G.body r) t s x x₁) (hr : (G.body r).plain)
    (ha : G.action r t x₁ = some x₂) : Takes G (.rule r) t s x x₂ := by
  obtain ⟨u, h⟩ := h
  obtain rfl := h.tokens_eq_nil hr
  refine ⟨[], ?_⟩
  have hconclude : G.conclude r x₁ (.success t s []) = (.success t s [], x₂) := by
    simp only [Grammar.conclude, List.headD_nil, ha]
  have hrule := Parses.rule h
  rwa [hconclude] at hrule

/-- Each symbol by itself. -/
theorem star_each (h : ∀ c ∈ t, ∀ s', Takes G e [c] s' x x)
    (hs : s ≠ [] → Parses G e s x .failure x) : Takes G (.star e) t s x x := by
  induction t with
  | nil => exact star_nil hs
  | cons c t ih =>
    exact star (List.cons_ne_nil c []) (h c List.mem_cons_self (t ++ s))
      (ih fun c' hc' => h c' (List.mem_cons_of_mem c hc'))

end Takes

namespace Parses

variable {x₁ x₂ : σ} {l : List (Expr τ ν)} {r : ν}

theorem terminal_failure {a : τ} (h : G.terminal a s = .failure) :
    Parses G (.terminal a) s x .failure x := by
  have hread : G.read a s = .failure := by
    unfold Grammar.read
    rw [h]
  exact hread ▸ Parses.terminal a s x

theorem seqs_failure (h : Parses G e s x .failure x') (l : List (Expr τ ν)) :
    Parses G (.seqs (e :: l)) s x .failure x' := by
  cases l with
  | nil => exact h
  | cons f l => exact .seq_failure _ h

theorem seqs_failure_of_takes (h₁ : Takes G e t s x x₁)
    (h₂ : Parses G (.seqs (f :: l)) s x₁ .failure x₂) :
    Parses G (.seqs (e :: f :: l)) (t ++ s) x .failure x₂ := by
  obtain ⟨u, h₁⟩ := h₁
  exact .seq h₁ h₂

theorem rule_failure (h : Parses G (G.body r) s x .failure x') :
    Parses G (.rule r) s x .failure x' :=
  .rule h

theorem token_failure (h : Parses G e s x .failure x') : Parses G (.token e) s x .failure x' :=
  .token h

theorem plus_failure (h : Parses G e s x .failure x') : Parses G (.plus e) s x .failure x' :=
  .seq_failure _ h

end Parses

/-! ## Termination -/

namespace Expr

/-- Each match takes a symbol, if those of the terminals `d` and the rules `c` do. -/
def consumes (d : τ → Bool) (c : ν → Bool) : Expr τ ν → Bool
  | terminal a => d a
  | empty => false
  | seq e f => e.consumes d c || f.consumes d c
  | choice e f => e.consumes d c && f.consumes d c
  | star _ => false
  | not _ => false
  | token e => e.consumes d c
  | rule r => c r

/-- What is repeated takes a symbol each time. -/
def advances (d : τ → Bool) (c : ν → Bool) : Expr τ ν → Bool
  | terminal _ => true
  | empty => true
  | seq e f => e.advances d c && f.advances d c
  | choice e f => e.advances d c && f.advances d c
  | star e => e.consumes d c && e.advances d c
  | not e => e.advances d c
  | token e => e.advances d c
  | rule _ => true

/-- The rules are of ranks below `n`. -/
def under (rank : ν → ℕ) (n : ℕ) : Expr τ ν → Bool
  | terminal _ => true
  | empty => true
  | seq e f => e.under rank n && f.under rank n
  | choice e f => e.under rank n && f.under rank n
  | star e => e.under rank n
  | not e => e.under rank n
  | token e => e.under rank n
  | rule r => rank r < n

def size : Expr τ ν → ℕ
  | terminal _ => 1
  | empty => 1
  | seq e f => e.size + f.size + 1
  | choice e f => e.size + f.size + 1
  | star e => e.size + 1
  | not e => e.size + 1
  | token e => e.size + 1
  | rule _ => 1

theorem size_pos (e : Expr τ ν) : 0 < e.size := by
  cases e <;> exact Nat.succ_pos _

end Expr

/-- A grammar without recursion, whose repeated expressions take a symbol each time. -/
structure Terminating (G : Grammar α τ ν σ) (d : τ → Bool) (c : ν → Bool) (rank : ν → ℕ) (m : ℕ) :
    Prop where
  terminal : ∀ a s, d a → G.terminal a s ≠ .length 0
  consumes : ∀ r, c r → (G.body r).consumes d c
  advances : ∀ r, (G.body r).advances d c
  under : ∀ r, (G.body r).under rank (rank r)
  size : ∀ r, (G.body r).size ≤ m

namespace Terminating

variable {d : τ → Bool} {c : ν → Bool} {rank : ν → ℕ} {m n : ℕ}

theorem text_ne_nil (hG : Terminating G d c rank m) {s' : List α}
    (h : Parses G e s x (.success t s' u) x') (he : e.consumes d c) : t ≠ [] := by
  generalize ho : Result.success t s' u = o at h
  induction h generalizing t s' u with
  | terminal a s x =>
    obtain ⟨n, hn, hle, rfl, -, -⟩ := Grammar.read_eq_success ho.symm
    have hpos : n ≠ 0 := fun h0 => hG.terminal a s he (h0 ▸ hn)
    intro hnil
    have hlen := congrArg List.length hnil
    rw [List.length_take, List.length_nil, Nat.min_eq_left hle] at hlen
    exact hpos hlen
  | empty | star_nil | star_failure | star | not => cases he
  | seq _ _ ih₁ ih₂ =>
    obtain ⟨t₂, u₂, ho₂, rfl⟩ := Result.prepend_eq_success ho.symm
    rcases Bool.or_eq_true_iff.1 he with he | he
    · exact fun hnil => ih₁ he rfl (List.append_eq_nil_iff.1 hnil).1
    · exact fun hnil => ih₂ he ho₂.symm (List.append_eq_nil_iff.1 hnil).2
  | seq_failure | seq_undefined | star_undefined => cases ho
  | choice f h ho' ih => exact ih (Bool.and_eq_true_iff.1 he).1 ho
  | choice_failure h₁ h₂ ih₁ ih₂ => exact ih₂ (Bool.and_eq_true_iff.1 he).2 ho
  | token h ih =>
    obtain ⟨u₁, ho₁⟩ := Result.mark_eq_success ho.symm
    exact ih he ho₁.symm
  | rule h ih =>
    obtain ⟨⟨u', rfl⟩, -⟩ := Grammar.conclude_eq_success ho.symm
    exact ih (hG.consumes _ he) rfl

/-- What is left is shorter. -/
theorem length_lt (hG : Terminating G d c rank m) {s' : List α}
    (h : Parses G e s x (.success t s' u) x') (he : e.consumes d c) : s'.length < s.length := by
  have hpos := List.length_pos_iff.2 (hG.text_ne_nil h he)
  rw [← h.append_eq, List.length_append]
  omega

/-- How deep a computation has to be that anything comes of it. -/
theorem exists_run (hG : Terminating G d c rank m) (he : e.under rank n) (ha : e.advances d c)
    {l k : ℕ} (hs : s.length ≤ l) (hk : e.size + l + n * (m + l + 1) ≤ k + 1) (x : σ) :
    ∃ p, G.run (k + 1) e s x = some p := by
  induction n using Nat.strong_induction_on generalizing e s l k x with
  | _ n ihn =>
  induction l using Nat.strong_induction_on generalizing e s k x with
  | _ l ihl =>
  induction e generalizing s k x with
  | terminal a => exact ⟨_, rfl⟩
  | empty => exact ⟨_, rfl⟩
  | seq e f ihe ihf =>
    obtain ⟨⟨he, hf⟩, hae, haf⟩ := And.intro (Bool.and_eq_true_iff.1 he) (Bool.and_eq_true_iff.1 ha)
    have hposf := f.size_pos
    have hpose := e.size_pos
    simp only [Expr.size] at hk
    obtain ⟨k, rfl⟩ : ∃ j, k = j + 1 := Nat.exists_eq_add_of_le' (by omega)
    obtain ⟨⟨o₁, x₁⟩, h₁⟩ := ihe (k := k) he hae hs (by omega) x
    simp only [Grammar.run, h₁, Option.bind_some]
    cases o₁ with
    | success t s₁ u =>
      have hlen := (parses_of_run h₁).length_le
      obtain ⟨p, h₂⟩ := ihf (k := k) hf haf (hlen.trans hs) (by omega) x₁
      exact ⟨_, congrArg (Option.map _) h₂⟩
    | failure => exact ⟨_, rfl⟩
    | undefined => exact ⟨_, rfl⟩
  | choice e f ihe ihf =>
    obtain ⟨⟨he, hf⟩, hae, haf⟩ := And.intro (Bool.and_eq_true_iff.1 he) (Bool.and_eq_true_iff.1 ha)
    have hposf := f.size_pos
    have hpose := e.size_pos
    simp only [Expr.size] at hk
    obtain ⟨k, rfl⟩ : ∃ j, k = j + 1 := Nat.exists_eq_add_of_le' (by omega)
    obtain ⟨⟨o₁, x₁⟩, h₁⟩ := ihe (k := k) he hae hs (by omega) x
    simp only [Grammar.run, h₁, Option.bind_some]
    cases o₁ with
    | failure => exact ihf (k := k) hf haf hs (by omega) x₁
    | success t s₁ u => exact ⟨_, rfl⟩
    | undefined => exact ⟨_, rfl⟩
  | star e ihe =>
    cases s with
    | nil => exact ⟨_, rfl⟩
    | cons b s =>
      obtain ⟨hc, hae⟩ := Bool.and_eq_true_iff.1 ha
      have hpose := e.size_pos
      have hsize : (Expr.star e).size = e.size + 1 := rfl
      obtain ⟨k, rfl⟩ : ∃ j, k = j + 1 := Nat.exists_eq_add_of_le' (by omega)
      obtain ⟨⟨o₁, x₁⟩, h₁⟩ := ihe (k := k) he hae hs (by omega) x
      simp only [Grammar.run, h₁, Option.bind_some]
      cases o₁ with
      | success t s₁ u =>
        have hlen := hG.length_lt (parses_of_run h₁) hc
        have hmul : n * (m + s₁.length + 1) ≤ n * (m + l + 1) := Nat.mul_le_mul_left n (by omega)
        obtain ⟨p, h₂⟩ := ihl s₁.length (by omega) (k := k) he ha le_rfl (by omega) x₁
        exact ⟨_, congrArg (Option.map _) h₂⟩
      | failure => exact ⟨_, rfl⟩
      | undefined => exact ⟨_, rfl⟩
  | not e ih | token e ih =>
    have hpose := e.size_pos
    simp only [Expr.size] at hk
    obtain ⟨k, rfl⟩ : ∃ j, k = j + 1 := Nat.exists_eq_add_of_le' (by omega)
    obtain ⟨p, h⟩ := ih (k := k) he ha hs (by omega) x
    exact ⟨_, congrArg (Option.map _) h⟩
  | rule r =>
    have hr : rank r < n := of_decide_eq_true he
    have hmul := Nat.mul_le_mul_right (m + l + 1) (Nat.succ_le_of_lt hr)
    rw [Nat.succ_mul] at hmul
    have hsize := hG.size r
    have hpos := (G.body r).size_pos
    simp only [Expr.size] at hk
    obtain ⟨k, rfl⟩ : ∃ j, k = j + 1 := Nat.exists_eq_add_of_le' (by omega)
    obtain ⟨p, h⟩ := ihn (rank r) hr (k := k) (hG.under r) (hG.advances r) hs (by omega) x
    exact ⟨_, congrArg (Option.map _) h⟩

end Terminating

/-! ## Invariants -/

theorem Grammar.conclude_snd (r : ν) (x : σ) (o : Result α) :
    (G.conclude r x o).2 = x ∨ ∃ t, G.action r t x = some (G.conclude r x o).2 := by
  cases o with
  | success t s u =>
    simp only [Grammar.conclude]
    split
    · exact .inr ⟨_, ‹_›⟩
    · exact .inl rfl
  | failure => exact .inl rfl
  | undefined => exact .inl rfl

/-- The rules are in `S`. -/
def Expr.uses (S : ν → Bool) : Expr τ ν → Bool
  | terminal _ => true
  | empty => true
  | seq e f => e.uses S && f.uses S
  | choice e f => e.uses S && f.uses S
  | star e => e.uses S
  | not e => e.uses S
  | token e => e.uses S
  | rule r => S r

theorem Expr.uses_true (e : Expr τ ν) : e.uses fun _ => true := by
  induction e with
  | terminal | empty | rule => rfl
  | seq e f ihe ihf | choice e f ihe ihf => exact Bool.and_eq_true_iff.2 ⟨ihe, ihf⟩
  | star e ih | not e ih | token e ih => exact ih

/-- What the actions of some rules keep, which use no others, is kept. -/
theorem Parses.invariant {S : ν → Bool} (hS : ∀ r, S r → (G.body r).uses S) {I : σ → Prop}
    (hI : ∀ r t x x', S r → G.action r t x = some x' → I x → I x')
    (h : Parses G e s x o x') (he : e.uses S) (hx : I x) : I x' := by
  induction h with
  | terminal | empty | star_nil => exact hx
  | seq _ _ ih₁ ih₂ | choice_failure _ _ ih₁ ih₂ =>
    exact ih₂ (Bool.and_eq_true_iff.1 he).2 (ih₁ (Bool.and_eq_true_iff.1 he).1 hx)
  | seq_failure _ _ ih | seq_undefined _ _ ih | choice _ _ _ ih =>
    exact ih (Bool.and_eq_true_iff.1 he).1 hx
  | star _ _ _ ih₁ ih₂ => exact ih₂ he (ih₁ he hx)
  | star_failure _ _ ih | star_undefined _ _ ih | not _ ih | token _ ih => exact ih he hx
  | @rule r _ o₁ _ x₁ _ ih =>
    have hx₁ := ih (hS r he) hx
    rcases G.conclude_snd r x₁ o₁ with heq | ⟨t, ht⟩
    · rw [heq]
      exact hx₁
    · exact hI r t x₁ _ he ht hx₁

/-! ## Stacks -/

variable {ι : Type*}

/-- How much higher the stacks are after a match, if each rule `r` makes them `net r` higher, and
    those without `keeps r` may have cleared them before. -/
def Expr.gain (keeps : ν → Bool) (net : ν → ι → ℕ) : Expr τ ν → ι → ℕ
  | terminal _, _ => 0
  | empty, _ => 0
  | seq e f, i => (if f.uses keeps then e.gain keeps net i else 0) + f.gain keeps net i
  | choice e f, i => min (e.gain keeps net i) (f.gain keeps net i)
  | star _, _ => 0
  | not _, _ => 0
  | token e, i => e.gain keeps net i
  | rule r, i => net r i

/-- The terminals are in `d`. -/
def Expr.within (d : τ → Bool) : Expr τ ν → Bool
  | terminal a => d a
  | empty => true
  | seq e f => e.within d && f.within d
  | choice e f => e.within d && f.within d
  | star e => e.within d
  | not e => e.within d
  | token e => e.within d
  | rule _ => true

/-- Rules whose actions take `pops` from the stacks and put `pushes` there, or clear them; what they
    take has been put there by their own body. This holds until the state is `bad`, and the
    terminals `d` are defined for the inputs `P`. -/
structure Balanced (G : Grammar α τ ν σ) (d : τ → Bool) (P : List α → Prop) (bad : σ → Prop)
    (height : σ → ι → ℕ) (pops pushes net : ν → ι → ℕ) (clears keeps : ν → Bool) : Prop where
  within : ∀ r, (G.body r).within d
  read : ∀ a s, d a → P s → G.read a s ≠ .undefined
  rest : ∀ a s t s' u, d a → P s → G.read a s = .success t s' u → P s'
  stays : ∀ r t x x', G.action r t x = some x' → bad x → bad x'
  action : ∀ r t x, (∀ i, pops r i ≤ height x i) → ∃ x', G.action r t x = some x' ∧
    (bad x' ∨ clears r ∨ ∀ i, height x i - pops r i + pushes r i ≤ height x' i)
  covered : ∀ r i, pops r i ≤ (G.body r).gain keeps net i
  net_le : ∀ r i, net r i ≤
    if clears r then 0 else (G.body r).gain keeps net i - pops r i + pushes r i
  uses : ∀ r, keeps r → clears r = false ∧ (G.body r).uses keeps

namespace Balanced

variable {d : τ → Bool} {P : List α → Prop} {bad : σ → Prop} {height : σ → ι → ℕ}
  {pops pushes net : ν → ι → ℕ} {clears keeps : ν → Bool}

/-- What holds after an expression. -/
structure After (P : List α → Prop) (height : σ → ι → ℕ) (net : ν → ι → ℕ) (keeps : ν → Bool)
    (e : Expr τ ν) (x : σ) (o : Result α) (x' : σ) : Prop where
  defined : o ≠ .undefined
  rest : ∀ t s' u, o = .success t s' u → P s'
  le : e.uses keeps → ∀ i, height x i ≤ height x' i
  gain : ∀ t s' u, o = .success t s' u → ∀ i,
    (if e.uses keeps then height x i else 0) + e.gain keeps net i ≤ height x' i

theorem ite_zero_le {p : Prop} [Decidable p] {a b : ℕ} (h : p → a ≤ b) :
    (if p then a else 0) + 0 ≤ b := by
  split_ifs with hp
  · exact h hp
  · exact Nat.zero_le b

theorem bad_of_parses (hG : Balanced G d P bad height pops pushes net clears keeps)
    (h : Parses G e s x o x') (hx : bad x) : bad x' :=
  h.invariant (fun r _ => (G.body r).uses_true) (fun r t x x' _ => hG.stays r t x x')
    e.uses_true hx

/-- No stack runs out. -/
theorem parses (hG : Balanced G d P bad height pops pushes net clears keeps)
    (h : Parses G e s x o x') (hd : e.within d) (hs : P s) :
    bad x' ∨ After P height net keeps e x o x' := by
  induction h with
  | terminal a s x =>
    exact .inr ⟨hG.read a s hd hs, fun t s' u => hG.rest a s t s' u hd hs, fun _ _ => le_rfl,
      fun _ _ _ _ _ => le_rfl⟩
  | empty s x =>
    refine .inr ⟨nofun, fun t s' u ho => ?_, fun _ _ => le_rfl, fun _ _ _ _ _ => le_rfl⟩
    obtain ⟨-, rfl, -⟩ := Result.success.inj ho
    exact hs
  | @seq e f s t s₁ u o x x₁ x₂ h₁ h₂ ih₁ ih₂ =>
    obtain ⟨hd₁, hd₂⟩ := Bool.and_eq_true_iff.1 hd
    rcases ih₁ hd₁ hs with hbad | h₁'
    · exact .inl (hG.bad_of_parses h₂ hbad)
    rcases ih₂ hd₂ (h₁'.rest t s₁ u rfl) with hbad | h₂'
    · exact .inl hbad
    refine .inr ⟨fun ho => h₂'.defined (Result.prepend_eq_undefined ho), fun t' s' u' ho => ?_,
      fun hu i => ?_, fun t' s' u' ho i => ?_⟩
    · obtain ⟨t₂, u₂, ho₂, -⟩ := Result.prepend_eq_success ho
      exact h₂'.rest t₂ s' u₂ ho₂
    · obtain ⟨he, hf⟩ := Bool.and_eq_true_iff.1 hu
      exact (h₁'.le he i).trans (h₂'.le hf i)
    · obtain ⟨t₂, u₂, ho₂, -⟩ := Result.prepend_eq_success ho
      have h₁ := h₁'.gain t s₁ u rfl i
      have h₂ := h₂'.gain t₂ s' u₂ ho₂ i
      simp only [Expr.uses, Expr.gain, Bool.and_eq_true]
      split_ifs at h₁ h₂ ⊢ <;> grind
  | seq_failure f h ih =>
    refine (ih (Bool.and_eq_true_iff.1 hd).1 hs).imp_right fun h' =>
      ⟨nofun, nofun, fun hu => ?_, nofun⟩
    exact h'.le (Bool.and_eq_true_iff.1 hu).1
  | seq_undefined f h ih =>
    exact (ih (Bool.and_eq_true_iff.1 hd).1 hs).imp_right fun h' => absurd rfl h'.defined
  | @choice e f s o x x₁ h ho ih =>
    refine (ih (Bool.and_eq_true_iff.1 hd).1 hs).imp_right fun h' =>
      ⟨h'.defined, h'.rest, fun hu => ?_, fun t s' u ho i => ?_⟩
    · exact h'.le (Bool.and_eq_true_iff.1 hu).1
    · have h := h'.gain t s' u ho i
      simp only [Expr.uses, Expr.gain, Bool.and_eq_true]
      split_ifs at h ⊢ <;> grind
  | @choice_failure e f s o x x₁ x₂ h₁ h₂ ih₁ ih₂ =>
    obtain ⟨hd₁, hd₂⟩ := Bool.and_eq_true_iff.1 hd
    rcases ih₁ hd₁ hs with hbad | h₁'
    · exact .inl (hG.bad_of_parses h₂ hbad)
    refine (ih₂ hd₂ hs).imp_right fun h₂' => ⟨h₂'.defined, h₂'.rest, fun hu i => ?_,
      fun t s' u ho i => ?_⟩
    · obtain ⟨he, hf⟩ := Bool.and_eq_true_iff.1 hu
      exact (h₁'.le he i).trans (h₂'.le hf i)
    · have hle := fun he => h₁'.le he i
      have h := h₂'.gain t s' u ho i
      simp only [Expr.uses, Expr.gain, Bool.and_eq_true]
      split_ifs at h ⊢ <;> grind
  | star_nil e x =>
    refine .inr ⟨nofun, fun t s' u ho => ?_, fun _ _ => le_rfl, fun _ _ _ _ _ => ?_⟩
    · obtain ⟨-, rfl, -⟩ := Result.success.inj ho
      exact hs
    · exact ite_zero_le fun _ => le_rfl
  | @star e s t s₁ u o x x₁ x₂ _ h₁ h₂ ih₁ ih₂ =>
    rcases ih₁ hd hs with hbad | h₁'
    · exact .inl (hG.bad_of_parses h₂ hbad)
    rcases ih₂ hd (h₁'.rest t s₁ u rfl) with hbad | h₂'
    · exact .inl hbad
    have hle (hu : e.uses keeps) (i : ι) : height x i ≤ height x₂ i :=
      (h₁'.le hu i).trans (h₂'.le hu i)
    refine .inr ⟨fun ho => h₂'.defined (Result.prepend_eq_undefined ho), fun t' s' u' ho => ?_,
      hle, fun t' s' u' ho i => ?_⟩
    · obtain ⟨t₂, u₂, ho₂, -⟩ := Result.prepend_eq_success ho
      exact h₂'.rest t₂ s' u₂ ho₂
    · exact ite_zero_le fun hu => hle hu i
  | @star_failure e s x x₁ _ h ih =>
    refine (ih hd hs).imp_right fun h' => ⟨nofun, fun t s' u ho => ?_, h'.le, fun _ _ _ _ i => ?_⟩
    · obtain ⟨-, rfl, -⟩ := Result.success.inj ho
      exact hs
    · exact ite_zero_le fun hu => h'.le hu i
  | star_undefined _ h ih => exact (ih hd hs).imp_right fun h' => absurd rfl h'.defined
  | @not e s o x x₁ h ih =>
    refine (ih hd hs).imp_right fun h' => ⟨fun ho => h'.defined (Result.negate_eq_undefined ho),
      fun t s' u ho => ?_, h'.le, fun _ _ _ _ i => ?_⟩
    · obtain ⟨-, -, rfl⟩ := Result.negate_eq_success ho
      exact hs
    · exact ite_zero_le fun hu => h'.le hu i
  | token h ih =>
    refine (ih hd hs).imp_right fun h' => ⟨fun ho => h'.defined (Result.mark_eq_undefined ho),
      fun t s' u ho => ?_, h'.le, fun t s' u ho i => ?_⟩
    · obtain ⟨u₁, ho₁⟩ := Result.mark_eq_success ho
      exact h'.rest t s' u₁ ho₁
    · obtain ⟨u₁, ho₁⟩ := Result.mark_eq_success ho
      exact h'.gain t s' u₁ ho₁ i
  | @rule r s o x x₁ h ih =>
    rcases ih (hG.within r) hs with hbad | h'
    · rcases G.conclude_snd r x₁ o with heq | ⟨t, ht⟩
      · exact .inl (heq.symm ▸ hbad)
      · exact .inl (hG.stays r t x₁ _ ht hbad)
    cases o with
    | undefined => exact absurd rfl h'.defined
    | failure =>
      exact .inr ⟨nofun, nofun, fun hu => h'.le (hG.uses r hu).2, nofun⟩
    | success t₁ s₁ u₁ =>
      have hgain := h'.gain t₁ s₁ u₁ rfl
      have hpops (i : ι) : pops r i ≤ height x₁ i :=
        (hG.covered r i).trans ((Nat.le_add_left _ _).trans (hgain i))
      obtain ⟨x₂, hact, hx₂⟩ := hG.action r (u₁.headD t₁) x₁ hpops
      have heq : G.conclude r x₁ (.success t₁ s₁ u₁) = (.success t₁ s₁ [], x₂) := by
        simp only [Grammar.conclude, hact]
      rw [heq]
      refine hx₂.imp_right fun hx₂ => ⟨nofun, fun t s' u ho => ?_, fun hu i => ?_,
        fun t s' u ho i => ?_⟩
      · obtain ⟨-, rfl, -⟩ := Result.success.inj ho
        exact h'.rest t₁ s₁ u₁ rfl
      · obtain ⟨hclears, hbody⟩ := hG.uses r hu
        have hle := (hx₂.resolve_left (by simp [hclears])) i
        have hgain := hgain i
        rw [if_pos hbody] at hgain
        have hcov := hG.covered r i
        change height x i ≤ height x₂ i
        omega
      · have hnet := hG.net_le r i
        have hcov := hG.covered r i
        have hgain := hgain i
        have hpops := hpops i
        change (if keeps r then height x i else 0) + net r i ≤ height x₂ i
        by_cases hclears : clears r
        · have hkeeps : ¬ keeps r := fun hk => by simp [(hG.uses r hk).1] at hclears
          rw [if_pos hclears] at hnet
          rw [if_neg hkeeps]
          omega
        · have hle := hx₂.resolve_left hclears i
          rw [if_neg hclears] at hnet
          by_cases hk : keeps r
          · rw [if_pos (hG.uses r hk).2] at hgain
            rw [if_pos hk]
            omega
          · rw [if_neg hk]
            omega

end Balanced

end Peg

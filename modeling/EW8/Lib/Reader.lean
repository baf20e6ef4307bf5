import Mathlib

/-!
# Readers

A reader goes through a list from its beginning on. An `Input` is where it is, and a `Result` what it
has found up to some place, or an error there, or that its fuel is used up.

What lies between two places is what has been read (`Consumes`). `Reads P i r` says that the fuel has
sufficed, that the reader has not left the list, and that what has been found is `P` of what has been
read; its rules follow how readers are put together (`Reads.bind`).
-/

namespace Reader

variable {α ε β γ : Type*}

/-- Where a reader is. -/
structure Input (α : Type*) where
  pos : ℕ
  /-- What there is from `pos` on. -/
  rest : List α

/-- What a reader ends with. -/
inductive Result (α ε β : Type*)
  | ok (b : β) (i : Input α)
  | error (e : ε) (i : Input α)
  | exhausted

/-- The place `n` items further. -/
def Input.advance (i : Input α) (n : ℕ) : Input α := ⟨i.pos + n, i.rest.drop n⟩

namespace Result

/-- One reader after the other. -/
def bind (r : Result α ε β) (f : β → Input α → Result α ε γ) : Result α ε γ :=
  match r with
  | ok b i => f b i
  | error e i => error e i
  | exhausted => exhausted

/-- Where the reader is at the end. -/
def input? (r : Result α ε β) : Option (Input α) :=
  match r with
  | ok _ i => some i
  | error _ i => some i
  | exhausted => none

end Result

/-- What lies between `i` and `i'` is `s`. -/
structure Consumes (i : Input α) (s : List α) (i' : Input α) : Prop where
  rest : i.rest = s ++ i'.rest
  pos : i'.pos = i.pos + s.length

/-- What has been found is `P` of what has been read from `i` on. -/
inductive Reads (P : List α → β → Prop) (i : Input α) : Result α ε β → Prop
  | ok {s b i'} (h : Consumes i s i') (hp : P s b) : Reads P i (.ok b i')
  | error {e s i'} (h : Consumes i s i') : Reads P i (.error e i')

variable {i i' i'' : Input α} {s t : List α} {n m : ℕ} {b : β} {r : Result α ε β}
  {f : β → Input α → Result α ε γ} {P P' : List α → β → Prop} {Q : List α → γ → Prop}

theorem Input.advance_zero (i : Input α) : i.advance 0 = i := rfl

theorem Input.advance_advance : (i.advance n).advance m = i.advance (n + m) := by
  rw [advance, advance, advance, List.drop_drop, Nat.add_assoc]

theorem Input.advance_eq (h : i.rest = s ++ t) : i.advance s.length = ⟨i.pos + s.length, t⟩ := by
  rw [advance, h, List.drop_left]

theorem Input.rest_advance (h : i.rest = s ++ t) : (i.advance s.length).rest = t := by
  rw [advance_eq h]

theorem Input.rest_advance_one {a : α} (h : i.rest = a :: t) : (i.advance 1).rest = t := by
  rw [advance, h, List.drop_one, List.tail_cons]

theorem Result.bind_eq_ok {c : γ} :
    r.bind f = .ok c i ↔ ∃ b i', r = .ok b i' ∧ f b i' = .ok c i := by
  cases r with
  | ok b i' => simp [bind]
  | error e i' => simp [bind]
  | exhausted => simp [bind]

theorem Result.error_ne_ok {e : ε} : (error e i : Result α ε β) ≠ ok b i' := nofun

theorem Result.exhausted_ne_ok : (exhausted : Result α ε β) ≠ ok b i := nofun

namespace Consumes

theorem refl (i : Input α) : Consumes i [] i := ⟨rfl, rfl⟩

theorem trans (h : Consumes i s i') (h' : Consumes i' t i'') : Consumes i (s ++ t) i'' where
  rest := by rw [h.rest, h'.rest, List.append_assoc]
  pos := by rw [h'.pos, h.pos, List.length_append, Nat.add_assoc]

theorem advance (h : i.rest = s ++ t) : Consumes i s (i.advance s.length) where
  rest := by rw [Input.rest_advance h, h]
  pos := rfl

theorem advance_one {a : α} (h : i.rest = a :: t) : Consumes i [a] (i.advance 1) :=
  advance (s := [a]) h

theorem length_add (h : Consumes i s i') : s.length + i'.rest.length = i.rest.length := by
  rw [h.rest, List.length_append]

end Consumes

namespace Reads

theorem imp (h : Reads P i r) (hp : ∀ s b, P s b → P' s b) : Reads P' i r := by
  cases h with
  | ok h hb => exact ok h (hp _ _ hb)
  | error h => exact error h

/-- What is read from `i'` on, together with what has been read before. -/
theorem after (h : Consumes i s i') (h' : Reads (fun t b => P (s ++ t) b) i' r) : Reads P i r := by
  cases h' with
  | ok h' hb => exact ok (h.trans h') hb
  | error h' => exact error (h.trans h')

/-- One reader after the other. -/
theorem bind (h : Reads P i r)
    (hf : ∀ s b i', Consumes i s i' → P s b → Reads (fun t c => Q (s ++ t) c) i' (f b i')) :
    Reads Q i (r.bind f) := by
  cases h with
  | ok h hb => exact (hf _ _ _ h hb).after h
  | error h => exact error h

/-- The place at the end is not behind the end of the list. -/
theorem pos_le (h : Reads P i r) : ∃ i' ∈ r.input?, i'.pos ≤ i.pos + i.rest.length := by
  cases h with
  | ok h _ => exact ⟨_, rfl, by rw [h.pos]; have := h.length_add; omega⟩
  | error h => exact ⟨_, rfl, by rw [h.pos]; have := h.length_add; omega⟩

end Reads

end Reader

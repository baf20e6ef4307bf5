import Mathlib

/-!
# Codecs on a stream

A codec writes values to a stream and reads them from its front, and what it has written
is read back, whatever comes after it.

* `Codec.prod`: one value after the other;
* `Codec.list`: a list, with its length before it.
-/

/-- Values of `α` on a stream of `τ`. -/
structure Codec (τ α : Type*) where
  put : α → List τ
  get : List τ → Option (α × List τ)
  get_put : ∀ x rest, get (put x ++ rest) = some (x, rest)

namespace Codec

variable {τ α β : Type*}

/-- One value after the other. -/
def prod (c : Codec τ α) (d : Codec τ β) : Codec τ (α × β) where
  put x := c.put x.1 ++ d.put x.2
  get s := (c.get s).bind fun x => (d.get x.2).map fun y => ((x.1, y.1), y.2)
  get_put x rest := by
    rw [List.append_assoc, c.get_put, Option.bind_some, d.get_put]
    rfl

/-- Some values, one after the other. -/
def many (c : Codec τ α) : ℕ → List τ → Option (List α × List τ)
  | 0, s => some ([], s)
  | n + 1, s => (c.get s).bind fun x => (c.many n x.2).map fun y => (x.1 :: y.1, y.2)

theorem many_flatMap (c : Codec τ α) (l : List α) (rest : List τ) :
    c.many l.length (l.flatMap c.put ++ rest) = some (l, rest) := by
  induction l with
  | nil => rfl
  | cons x l ih =>
    rw [List.length_cons, many, List.flatMap_cons, List.append_assoc, c.get_put, Option.bind_some, ih]
    rfl

/-- A list, after its length. -/
def list (n : Codec τ ℕ) (c : Codec τ α) : Codec τ (List α) where
  put l := n.put l.length ++ l.flatMap c.put
  get s := (n.get s).bind fun x => c.many x.1 x.2
  get_put l rest := by
    rw [List.append_assoc, n.get_put, Option.bind_some, c.many_flatMap]

/-- What has been written, and nothing else, is read back. -/
theorem get_put_self (c : Codec τ α) (x : α) : c.get (c.put x) = some (x, []) := by
  have h := c.get_put x []
  rwa [List.append_nil] at h

end Codec

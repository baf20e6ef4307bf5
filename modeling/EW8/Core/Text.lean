import Mathlib

/-!
# Characters and strings

A `char` is a byte, and a `std::string` a list of them; the characters are classified as in the locale
`C`, in which a byte from 0x80 on is of no class.
-/

namespace EW8.Core

/-- The characters of a literal. -/
def chars (s : String) : List UInt8 := s.toList.map Char.toUInt8

/-- `isspace`. -/
def isspace (c : UInt8) : Bool := c = 32 ∨ 9 ≤ c.toNat ∧ c.toNat ≤ 13

/-- `isdigit`. -/
def isdigit (c : UInt8) : Bool := 48 ≤ c.toNat ∧ c.toNat ≤ 57

/-- `isalnum`. -/
def isalnum (c : UInt8) : Bool :=
  isdigit c ∨ 65 ≤ c.toNat ∧ c.toNat ≤ 90 ∨ 97 ≤ c.toNat ∧ c.toNat ≤ 122

/-- `isprint`. -/
def isprint (c : UInt8) : Bool := 32 ≤ c.toNat ∧ c.toNat ≤ 126

/-- What there is from the first character on that is not in `set`. -/
def trimStart (set s : List UInt8) : List UInt8 := s.dropWhile (· ∈ set)

/-- What there is up to the last character that is not in `set`. -/
def trimEnd (set s : List UInt8) : List UInt8 := s.rdropWhile (· ∈ set)

/-- The string neither begins nor ends with a character of `set`. -/
structure Trimmed (set s : List UInt8) : Prop where
  head : ∀ c ∈ s.head?, c ∉ set
  last : ∀ c ∈ s.getLast?, c ∉ set

variable {set s t : List UInt8} {c : UInt8}

theorem trimStart_of_head (h : ∀ c ∈ s.head?, c ∉ set) : trimStart set s = s := by
  cases s with
  | nil => rfl
  | cons c s => exact List.dropWhile_cons_of_neg (by simpa using h c rfl)

theorem trimEnd_of_last (h : ∀ c ∈ s.getLast?, c ∉ set) : trimEnd set s = s := by
  refine List.rdropWhile_eq_self_iff.2 fun hne => ?_
  simpa using h _ (List.getLast_mem_getLast? hne)

/-- Nothing is trimmed off. -/
theorem Trimmed.trim (h : Trimmed set s) : trimEnd set (trimStart set s) = s := by
  rw [trimStart_of_head h.head, trimEnd_of_last h.last]

end EW8.Core

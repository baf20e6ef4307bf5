import EW8.Core.JsonParser

/-!
# The serializer of JSON

`JsonDocument::Serializer` writes a document to an `ostringstream`, on one line or (unless `compact_`)
with a line for each element and member. `std::hex`, which is set for a control character, is never
taken back: the integers behind it are written in hexadecimal digits.
-/

namespace EW8.Core

open JsonParser

/-! ## The stream -/

/-- An `ostringstream`: what has been written, and whether integers are written in hexadecimal
    digits. -/
structure Stream where
  out : List UInt8
  hex : Bool

/-- The character of a digit. -/
def digitChar (d : ℕ) : UInt8 := if d < 10 then .ofNat (48 + d) else .ofNat (87 + d)

/-- The digits of a number to a base. -/
def natDigits (base n : ℕ) : List UInt8 :=
  if n = 0 then [digitChar 0] else (Nat.digits base n).reverse.map digitChar

/-- The decimal digits of an integer. -/
def intDigits (n : ℤ) : List UInt8 :=
  if n < 0 then '-'.toUInt8 :: natDigits 10 n.natAbs else natDigits 10 n.natAbs

namespace Stream

variable (ss : Stream)

/-- `<<` of a string. -/
def put (s : List UInt8) : Stream where
  out := ss.out ++ s
  hex := ss.hex

/-- `<<` of a `long long`. -/
def putInt (n : ℤ) : Stream :=
  ss.put (if ss.hex then natDigits 16 (n % 2 ^ 64).toNat else intDigits n)

/-- `<< std::hex << std::setw(4) << std::setfill('0')` of a number. -/
def putHex (n : ℕ) : Stream where
  out := ss.out ++ (List.replicate (4 - (natDigits 16 n).length) (digitChar 0) ++ natDigits 16 n)
  hex := true

@[simp] theorem put_out (s : List UInt8) : (ss.put s).out = ss.out ++ s := rfl

@[simp] theorem put_hex (s : List UInt8) : (ss.put s).hex = ss.hex := rfl

theorem put_put (s t : List UInt8) : (ss.put s).put t = ss.put (s ++ t) := by
  rw [put, put, put, List.append_assoc]

end Stream

namespace JsonSerializer

/-! ## Strings -/

/-- What is written behind a backslash for a character, if it is escaped by one. -/
def escape (c : UInt8) : Option UInt8 :=
  if c = quote then some quote
  else if c = backslash then some backslash
  else if c = 8 then some 'b'.toUInt8
  else if c = 12 then some 'f'.toUInt8
  else if c = 10 then some 'n'.toUInt8
  else if c = 13 then some 'r'.toUInt8
  else if c = 9 then some 't'.toUInt8
  else none

/-- One character of a string. -/
def writeChar (ss : Stream) (c : UInt8) : Stream :=
  match escape c with
  | some e => ss.put [backslash, e]
  | none => if c.toNat < 0x20 then (ss.put (chars "\\u")).putHex c.toNat else ss.put [c]

/-- `writeString`. -/
def writeString (ss : Stream) (str : List UInt8) : Stream :=
  (str.foldl writeChar (ss.put [quote])).put [quote]

/-! ## Values -/

variable (compact_ : Bool)

/-- `writeIndent`. -/
def writeIndent (ss : Stream) (indent_ : ℕ) : Stream :=
  ss.put (List.replicate indent_ (chars "  ")).flatten

/-- The end of a line, unless all is written on one. -/
def writeLine (ss : Stream) : Stream := if compact_ then ss else ss.put (chars "\n")

/-- What comes before an element or a member, but for the first one. -/
def writeComma (ss : Stream) (first : Bool) : Stream :=
  if first then ss else writeLine compact_ (ss.put (chars ","))

/-- What comes before an element or a member on its line. -/
def writeBegin (ss : Stream) (indent_ : ℕ) : Stream :=
  if compact_ then ss else writeIndent ss indent_

/-- Brackets, with what `body` writes in between. -/
def writeBrackets (a b : Char) (ss : Stream) (indent_ : ℕ) (body : Stream → ℕ → Stream) : Stream :=
  let ss := body (writeLine compact_ (ss.put [a.toUInt8])) (if compact_ then indent_ else indent_ + 1)
  (writeBegin compact_ (writeLine compact_ ss) indent_).put [b.toUInt8]

variable (formatDouble : ℚ → List UInt8)

mutual

/-- `writeValue`: `formatDouble` is `<<` of a `double` with `std::setprecision(15)`. -/
def writeValue (ss : Stream) (indent_ : ℕ) : JsonValue → Stream
  | .null => ss.put (chars "null")
  | .bool b => ss.put (chars (if b then "true" else "false"))
  | .double d => if ⌊d⌋ = d ∧ |d| < 10 ^ 15 then ss.putInt ⌊d⌋ else ss.put (formatDouble d)
  | .string s => writeString ss s
  | .array arr =>
    writeBrackets compact_ '[' ']' ss indent_ fun ss indent_ => writeElements ss indent_ true arr
  | .object obj =>
    writeBrackets compact_ '{' '}' ss indent_ fun ss indent_ => writeMembers ss indent_ true obj
  | .undefined => ss.put (chars "null")

/-- The loop of `writeArray`. -/
def writeElements (ss : Stream) (indent_ : ℕ) (first : Bool) : List JsonValue → Stream
  | [] => ss
  | val :: arr =>
    let ss := writeBegin compact_ (writeComma compact_ ss first) indent_
    writeElements (writeValue ss indent_ val) indent_ false arr

/-- The loop of `writeObject`. -/
def writeMembers (ss : Stream) (indent_ : ℕ) (first : Bool) :
    List (List UInt8 × JsonValue) → Stream
  | [] => ss
  | (key, val) :: obj =>
    let ss := writeBegin compact_ (writeComma compact_ ss first) indent_
    let ss := (writeString ss key).put (if compact_ then chars ":" else chars ": ")
    writeMembers (writeValue ss indent_ val) indent_ false obj

end

/-- `writeArray`. -/
def writeArray (ss : Stream) (indent_ : ℕ) (arr : JsonArray) : Stream :=
  writeBrackets compact_ '[' ']' ss indent_ fun ss indent_ =>
    writeElements compact_ formatDouble ss indent_ true arr

/-- `writeObject`. -/
def writeObject (ss : Stream) (indent_ : ℕ) (obj : JsonObject) : Stream :=
  writeBrackets compact_ '{' '}' ss indent_ fun ss indent_ =>
    writeMembers compact_ formatDouble ss indent_ true obj

end JsonSerializer

/-- `toJson`. -/
def JsonDocument.toJson (formatDouble : ℚ → List UInt8) (compact : Bool) :
    JsonDocument → List UInt8
  | .object object_ => (JsonSerializer.writeObject compact formatDouble ⟨[], false⟩ 0 object_).out
  | .array array_ => (JsonSerializer.writeArray compact formatDouble ⟨[], false⟩ 0 array_).out

end EW8.Core

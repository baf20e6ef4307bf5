import EW8.Core.JsonValue
import EW8.Lib.Binary64
import EW8.Lib.Reader

/-!
# The parser of JSON

`JsonDocument::Parser`: a parser by recursive descent. The functions for arrays and objects are given
that for values; it is called with one less of `depth` within a value, and a loop with one less of
its fuel in each round. What is parsed is the text from the place `pos_` on.
-/

namespace EW8.Core

open Reader SortedMap
open scoped SortedMap

/-- The errors of a `JsonParseError`. -/
inductive ParseError
  | UnterminatedObject
  | UnterminatedArray
  | UnterminatedString
  | IllegalValue
  | IllegalNumber
  | IllegalEscapeSequence
  | GarbageAtEnd
  deriving DecidableEq

/-- A `JsonParseError` other than `NoError`; the offset is an `int`. -/
structure JsonParseError where
  error_ : ParseError
  offset_ : ℤ

/-- The outcome of a function of the parser. -/
abbrev Parsed (β : Type) := Result UInt8 JsonParseError β

/-- The error at a place. -/
def errorAt (e : ParseError) (pos_ : ℕ) : JsonParseError := ⟨e, (pos_ : ℤ).bmod (2 ^ 32)⟩

/-- An error at the place where the parser is. -/
def fail {β : Type} (e : ParseError) (i : Input UInt8) : Parsed β := .error (errorAt e i.pos) i

/-! ## Numbers -/

/-- The number with the digits `s`. -/
def digitsValue (s : List UInt8) : ℕ := s.foldl (fun n c => 10 * n + (c.toNat - 48)) 0

/-- The digits and the sign of an exponent. -/
def exponentValue (s : List UInt8) : ℤ :=
  match s with
  | [] => 0
  | _ :: s =>
    if s.head? = some '-'.toUInt8 then -digitsValue s.tail
    else if s.head? = some '+'.toUInt8 then digitsValue s.tail
    else digitsValue s

/-- The decimal number with the text `s`. -/
def decimalValue (s : List UInt8) : ℚ :=
  let negative := s.head? = some '-'.toUInt8
  let s := if negative then s.tail else s
  let int := s.takeWhile isdigit
  let s := s.dropWhile isdigit
  let frac := if s.head? = some '.'.toUInt8 then s.tail.takeWhile isdigit else []
  let s := if s.head? = some '.'.toUInt8 then s.tail.dropWhile isdigit else s
  (if negative then -1 else 1) * digitsValue (int ++ frac) *
    10 ^ (exponentValue s - frac.length)

/-- The `double` with the text `s`. -/
def doubleValue (s : List UInt8) : ℚ := Binary64.nearest (decimalValue s)

variable (underflow : ℚ → Bool)

/-- The number is not out of the range of `stod`: `underflow` tells whether `ERANGE` is set for a
    number below the smallest normal one, which is up to the implementation. -/
def InRange (s : List UInt8) : Prop :=
  |doubleValue s| < 2 ^ 1024 ∧
    ¬(decimalValue s ≠ 0 ∧ |decimalValue s| < 2 ^ (-1022 : ℤ) ∧ underflow (decimalValue s))

instance (s : List UInt8) : Decidable (InRange underflow s) :=
  inferInstanceAs (Decidable (_ ∧ _))

/-- `stod` of the text of a number: `none` if it throws. -/
def stod (s : List UInt8) : Option ℚ :=
  if InRange underflow s then some (doubleValue s) else none

section

variable {underflow} {s : List UInt8} {m : ℤ}

/-- An integer with few digits is read as it is. -/
theorem doubleValue_of_int (h : decimalValue s = m) (hm : |m| < 2 ^ 53) : doubleValue s = m := by
  rw [doubleValue, h, Binary64.nearest_intCast hm]

theorem inRange_of_int (h : decimalValue s = m) (hm : |m| < 2 ^ 53) : InRange underflow s := by
  have hlt : |(m : ℚ)| < 2 ^ 53 := by exact_mod_cast hm
  rw [InRange, doubleValue_of_int h hm, h]
  refine ⟨hlt.trans_le (pow_le_pow_right₀ one_le_two (by norm_num)), fun ⟨hne, hsmall, _⟩ => ?_⟩
  have hone : (1 : ℚ) ≤ |(m : ℚ)| := by
    exact_mod_cast Int.one_le_abs fun hm => hne (by rw [hm, Int.cast_zero])
  have hle : (2 : ℚ) ^ (-1022 : ℤ) ≤ 1 := zpow_le_one_of_nonpos₀ one_le_two (by norm_num)
  exact absurd hsmall (not_lt.2 (hle.trans hone))

end

namespace JsonParser

section

variable (i : Input UInt8)

/-- `skipWhitespace`. -/
def skipWhitespace : Input UInt8 := i.advance (i.rest.takeWhile isspace).length

/-- A sequence of digits, and one at least. -/
def parseDigits : Parsed Unit :=
  if i.rest.head?.any isdigit then .ok () (i.advance (i.rest.takeWhile isdigit).length)
  else fail .IllegalNumber i

/-- The fraction of a number, if it has one. -/
def parseFraction : Parsed Unit :=
  if i.rest.head? = some '.'.toUInt8 then parseDigits (i.advance 1) else .ok () i

/-- The exponent of a number, if it has one. -/
def parseExponent : Parsed Unit :=
  if i.rest.head? = some 'e'.toUInt8 ∨ i.rest.head? = some 'E'.toUInt8 then
    let i := i.advance 1
    if i.rest.head? = some '+'.toUInt8 ∨ i.rest.head? = some '-'.toUInt8 then
      parseDigits (i.advance 1)
    else parseDigits i
  else .ok () i

/-- `parseNumber`. -/
def parseNumber : Parsed ℚ :=
  let start := i
  let i := if i.rest.head? = some '-'.toUInt8 then i.advance 1 else i
  (parseDigits i).bind fun _ i => (parseFraction i).bind fun _ i => (parseExponent i).bind fun _ i =>
    match stod underflow (start.rest.take (i.pos - start.pos)) with
    | some num => .ok num i
    | none => .error (errorAt .IllegalNumber start.pos) i

/-- `parseBool`. -/
def parseBool : Parsed Bool :=
  if i.rest.take 4 = chars "true" then .ok true (i.advance 4)
  else if i.rest.take 5 = chars "false" then .ok false (i.advance 5)
  else fail .IllegalValue i

/-- `parseNull`. -/
def parseNull : Parsed Unit :=
  if i.rest.take 4 = chars "null" then .ok () (i.advance 4) else fail .IllegalValue i

/-! ## Strings -/

/-- The character `"`. -/
def quote : UInt8 := '"'.toUInt8

/-- The character `\`. -/
def backslash : UInt8 := '\\'.toUInt8

/-- The character that is written as `c` behind a backslash. -/
def unescape (c : UInt8) : Option UInt8 :=
  if c = quote then some quote
  else if c = backslash then some backslash
  else if c = '/'.toUInt8 then some '/'.toUInt8
  else if c = 'b'.toUInt8 then some 8
  else if c = 'f'.toUInt8 then some 12
  else if c = 'n'.toUInt8 then some 10
  else if c = 'r'.toUInt8 then some 13
  else if c = 't'.toUInt8 then some 9
  else none

/-- The loop of `parseString`, where the string so far is `str`. -/
def parseStringLoop (str : List UInt8) (pos : ℕ) : List UInt8 → Parsed (List UInt8)
  | [] => fail .UnterminatedString ⟨pos, []⟩
  | c :: rest =>
    if c = quote then .ok str ⟨pos + 1, rest⟩
    else if c = backslash then
      match rest with
      | [] => fail .IllegalEscapeSequence ⟨pos + 1, []⟩
      | e :: rest =>
        if e = 'u'.toUInt8 then
          match rest with
          | x :: y :: z :: w :: rest =>
            parseStringLoop (str ++ [backslash, e, x, y, z, w]) (pos + 6) rest
          | rest => fail .IllegalEscapeSequence ⟨pos + 1, e :: rest⟩
        else
          match unescape e with
          | some c => parseStringLoop (str ++ [c]) (pos + 2) rest
          | none => fail .IllegalEscapeSequence ⟨pos + 1, e :: rest⟩
    else parseStringLoop (str ++ [c]) (pos + 1) rest

/-- `parseString`. -/
def parseString : Parsed (List UInt8) :=
  if i.rest.head? = some quote then
    let i := i.advance 1
    parseStringLoop [] i.pos i.rest
  else fail .IllegalValue i

end

/-! ## Arrays and objects -/

/-- The loop of `parseArray`. -/
def parseArrayLoop (parseValue : Input UInt8 → Parsed JsonValue) :
    ℕ → JsonArray → Input UInt8 → Parsed JsonArray
  | 0, _, _ => .exhausted
  | fuel + 1, arr, i => (parseValue i).bind fun val i =>
    let arr := arr ++ [val]
    let i := skipWhitespace i
    match i.rest.head? with
    | none => fail .UnterminatedArray i
    | some c =>
      if c = ']'.toUInt8 then .ok arr (i.advance 1)
      else if c ≠ ','.toUInt8 then fail .IllegalValue i
      else parseArrayLoop parseValue fuel arr (i.advance 1)

/-- `parseArray`. -/
def parseArray (parseValue : Input UInt8 → Parsed JsonValue) (i : Input UInt8) :
    Parsed JsonArray :=
  if i.rest.head? ≠ some '['.toUInt8 then fail .IllegalValue i
  else
    let i' := skipWhitespace (i.advance 1)
    if i'.rest.head? = some ']'.toUInt8 then .ok [] (i'.advance 1)
    else parseArrayLoop parseValue i.rest.length [] i'

/-- The loop of `parseObject`. -/
def parseObjectLoop (parseValue : Input UInt8 → Parsed JsonValue) :
    ℕ → JsonObject → Input UInt8 → Parsed JsonObject
  | 0, _, _ => .exhausted
  | fuel + 1, obj, i =>
    let i := skipWhitespace i
    if i.rest.head? ≠ some quote then fail .UnterminatedObject i
    else (parseString i).bind fun key i =>
      let i := skipWhitespace i
      if i.rest.head? ≠ some ':'.toUInt8 then fail .IllegalValue i
      else (parseValue (i.advance 1)).bind fun val i =>
        let obj := assign key val obj
        let i := skipWhitespace i
        match i.rest.head? with
        | none => fail .UnterminatedObject i
        | some c =>
          if c = '}'.toUInt8 then .ok obj (i.advance 1)
          else if c ≠ ','.toUInt8 then fail .IllegalValue i
          else parseObjectLoop parseValue fuel obj (i.advance 1)

/-- `parseObject`. -/
def parseObject (parseValue : Input UInt8 → Parsed JsonValue) (i : Input UInt8) :
    Parsed JsonObject :=
  if i.rest.head? ≠ some '{'.toUInt8 then fail .IllegalValue i
  else
    let i' := skipWhitespace (i.advance 1)
    if i'.rest.head? = some '}'.toUInt8 then .ok [] (i'.advance 1)
    else parseObjectLoop parseValue i.rest.length [] i'

/-- `parseValue`. -/
def parseValue : ℕ → Input UInt8 → Parsed JsonValue
  | 0, _ => .exhausted
  | depth + 1, i =>
    let i := skipWhitespace i
    match i.rest.head? with
    | none => fail .IllegalValue i
    | some c =>
      if c = quote then (parseString i).bind fun s i => .ok (.string s) i
      else if c = '{'.toUInt8 then
        (parseObject (parseValue depth) i).bind fun obj i => .ok (.object obj) i
      else if c = '['.toUInt8 then
        (parseArray (parseValue depth) i).bind fun arr i => .ok (.array arr) i
      else if c = 't'.toUInt8 ∨ c = 'f'.toUInt8 then
        (parseBool i).bind fun b i => .ok (.bool b) i
      else if c = 'n'.toUInt8 then (parseNull i).bind fun _ i => .ok .null i
      else if c = '-'.toUInt8 ∨ isdigit c then
        (parseNumber underflow i).bind fun n i => .ok (.double n) i
      else fail .IllegalValue i

/-- `parse`, without the document that is given. -/
def parse (json_ : List UInt8) : Parsed JsonDocument :=
  let i := skipWhitespace ⟨0, json_⟩
  let parsed : Parsed JsonDocument :=
    match i.rest.head? with
    | none => fail .IllegalValue i
    | some c =>
      if c = '{'.toUInt8 then
        (parseObject (parseValue underflow json_.length) i).bind fun obj i => .ok (.object obj) i
      else if c = '['.toUInt8 then
        (parseArray (parseValue underflow json_.length) i).bind fun arr i => .ok (.array arr) i
      else fail .IllegalValue i
  parsed.bind fun doc i =>
    let i := skipWhitespace i
    if i.rest = [] then .ok doc i else fail .GarbageAtEnd i

end JsonParser

/-- `fromJson`: the empty document if there is an error. -/
def JsonDocument.fromJson (json : List UInt8) : JsonDocument :=
  match JsonParser.parse underflow json with
  | .ok doc _ => doc
  | _ => .object []

end EW8.Core

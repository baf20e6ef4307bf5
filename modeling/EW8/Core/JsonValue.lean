import EW8.Core.Text
import EW8.Lib.SortedMap

/-!
# JSON values

A `JsonValue` holds one of the types of JSON. A number is a `double`, here by its value; an array is
the list of its values, and an object that of its entries in the order of the keys.
-/

namespace EW8.Core

open SortedMap
open scoped SortedMap

/-- A `JsonValue`. -/
inductive JsonValue
  | undefined
  | null
  | bool (b : Bool)
  | double (n : ℚ)
  | string (s : List UInt8)
  | array (values : List JsonValue)
  | object (values : List (List UInt8 × JsonValue))

/-- A `JsonArray`. -/
abbrev JsonArray := List JsonValue

/-- A `JsonObject`. -/
abbrev JsonObject := List (List UInt8 × JsonValue)

/-- A `JsonDocument`. -/
inductive JsonDocument
  | object (object_ : JsonObject)
  | array (array_ : JsonArray)

namespace JsonValue

variable (v : JsonValue)

def isString : Bool :=
  match v with
  | string _ => true
  | _ => false

def isArray : Bool :=
  match v with
  | array _ => true
  | _ => false

def toBool (defaultValue : Bool) : Bool :=
  match v with
  | bool b => b
  | _ => defaultValue

/-- The integral part of a number. -/
def truncate (n : ℚ) : ℤ := if 0 ≤ n then ⌊n⌋ else ⌈n⌉

/-- `toInt`: the conversion of a number that is not in the range of `int` is `overflow`. -/
def toInt (overflow : ℚ → ℤ) (defaultValue : ℤ) : ℤ :=
  match v with
  | double n =>
    if -2147483648 ≤ truncate n ∧ truncate n ≤ 2147483647 then truncate n else overflow n
  | _ => defaultValue

def toString (defaultValue : List UInt8) : List UInt8 :=
  match v with
  | string s => s
  | _ => defaultValue

def toArray : JsonArray :=
  match v with
  | array values => values
  | _ => []

def toObject : JsonObject :=
  match v with
  | object values => values
  | _ => []

end JsonValue

namespace JsonArray

/-- `operator[]`. -/
def value (values_ : JsonArray) (i : ℕ) : JsonValue := values_.getD i .undefined

end JsonArray

namespace JsonObject

variable (values_ : JsonObject) (key : List UInt8)

def contains : Bool := (find? key values_).isSome

/-- `operator[]`. -/
def value : JsonValue := (find? key values_).getD .undefined

end JsonObject

end EW8.Core

import EW8.Core.JsonParser

/-!
# The grammar of JSON

The grammar of RFC 8259, over tokens: `Derives` tells which sequences of tokens are a value, an
element of an array, and so on, and which value the parser is to make of them. What the tokens are is
apart from this: those of RFC 8259 (`Token.Rfc`), or the others too that the parser takes
(`Token.Loose`).

* Each token of RFC 8259 is one that the parser takes (`Token.Rfc.loose`);
* a text is divided into such tokens in one way at most (`tokens_unique`).
-/

set_option maxRecDepth 8000

namespace EW8.Core

open JsonParser SortedMap
open scoped SortedMap

/-- `isxdigit`. -/
def isxdigit (c : UInt8) : Bool :=
  isdigit c ∨ 65 ≤ c.toNat ∧ c.toNat ≤ 70 ∨ 97 ≤ c.toNat ∧ c.toNat ≤ 102

/-- The structural characters: brackets, braces, the colon and the comma. -/
def structurals : List UInt8 := chars "[]\x7b\x7d:,"

/-- The bytes are characters in UTF-8. -/
def IsUtf8 (s : List UInt8) : Prop := (ByteArray.mk s.toArray).IsValidUTF8

/-! ## Tokens -/

/-- An item of a string. -/
inductive Item
  | plain (c : UInt8)
  | escape (c : UInt8)
  | unicode (x y z w : UInt8)

namespace Item

def bytes : Item → List UInt8
  | plain c => [c]
  | escape c => [backslash, c]
  | unicode x y z w => [backslash, 'u'.toUInt8, x, y, z, w]

/-- What the parser makes of it. -/
def value : Item → List UInt8
  | plain c => [c]
  | escape c => (unescape c).toList
  | unicode x y z w => [backslash, 'u'.toUInt8, x, y, z, w]

/-- The parser takes it. -/
def Loose : Item → Prop
  | plain c => c ≠ quote ∧ c ≠ backslash
  | escape c => (unescape c).isSome
  | unicode _ _ _ _ => True

/-- It is one of RFC 8259; that the plain ones are characters is said of the whole string. -/
def Rfc : Item → Prop
  | plain c => 0x20 ≤ c.toNat ∧ c ≠ quote ∧ c ≠ backslash
  | escape c => c ∈ chars "\"\\/bfnrt"
  | unicode x y z w => isxdigit x ∧ isxdigit y ∧ isxdigit z ∧ isxdigit w

end Item

/-- Digits, and one at least. -/
def IsDigits (s : List UInt8) : Prop := s ≠ [] ∧ ∀ c ∈ s, isdigit c

/-- Digits without a leading zero. -/
def IsInteger (s : List UInt8) : Prop := IsDigits s ∧ (s.head? = some '0'.toUInt8 → s.length = 1)

/-- A fraction. -/
def IsFraction (s : List UInt8) : Prop := ∃ ds, IsDigits ds ∧ s = '.'.toUInt8 :: ds

/-- An exponent. -/
def IsExponent (s : List UInt8) : Prop :=
  ∃ e sign ds, e ∈ chars "eE" ∧ sign ∈ [[], chars "+", chars "-"] ∧ IsDigits ds ∧
    s = e :: (sign ++ ds)

/-- A number, with what there may be before the fraction. -/
def IsNumber (P : List UInt8 → Prop) (s : List UInt8) : Prop :=
  ∃ sign int frac exp, (sign = [] ∨ sign = chars "-") ∧ P int ∧ (frac = [] ∨ IsFraction frac) ∧
    (exp = [] ∨ IsExponent exp) ∧ s = sign ++ (int ++ (frac ++ exp))

/-- A token. -/
inductive Token
  | space (c : UInt8)
  | structural (c : UInt8)
  | literal (s : List UInt8)
  | number (s : List UInt8)
  | string (items : List Item)

namespace Token

def bytes : Token → List UInt8
  | space c => [c]
  | structural c => [c]
  | literal s => s
  | number s => s
  | string items => quote :: (items.flatMap Item.bytes ++ [quote])

def isNumber : Token → Bool
  | number _ => true
  | _ => false

def isSpace : Token → Bool
  | space _ => true
  | _ => false

/-- The parser takes it. -/
def Loose : Token → Prop
  | space c => isspace c
  | structural c => c ∈ structurals
  | literal s => s ∈ [chars "true", chars "false", chars "null"]
  | number s => IsNumber IsDigits s
  | string items => ∀ item ∈ items, item.Loose

/-- It is one of RFC 8259. -/
def Rfc : Token → Prop
  | space c => c ∈ chars " \t\n\r"
  | structural c => c ∈ structurals
  | literal s => s ∈ [chars "true", chars "false", chars "null"]
  | number s => IsNumber IsInteger s
  | string items => (∀ item ∈ items, item.Rfc) ∧ IsUtf8 (items.flatMap Item.bytes)

/-- If it is a number, it is one in the range of `stod`. -/
def InRange (underflow : ℚ → Bool) : Token → Prop
  | number s => EW8.Core.InRange underflow s
  | _ => True

/-- A structural character. -/
abbrev sym (c : Char) : Token := structural c.toUInt8

end Token

/-- The text of a sequence of tokens. -/
def text (ts : List Token) : List UInt8 := ts.flatMap Token.bytes

/-! ## Values -/

/-- A part of a text, with what the parser is to make of it. -/
inductive Phrase
  | value (v : JsonValue)
  /-- A value with white space around. -/
  | element (v : JsonValue)
  | member (x : List UInt8 × JsonValue)
  | elements (l : List JsonValue)
  | members (l : List (List UInt8 × JsonValue))

/-- White space. -/
def Spaces (w : List Token) : Prop := ∀ t ∈ w, t.isSpace

open Token

/-- The sequence of tokens is the phrase. -/
inductive Derives : Phrase → List Token → Prop
  | null : Derives (.value .null) [literal (chars "null")]
  | bool (b : Bool) : Derives (.value (.bool b)) [literal (chars (if b then "true" else "false"))]
  | number (s : List UInt8) : Derives (.value (.double (doubleValue s))) [number s]
  | string (items : List Item) : Derives (.value (.string (items.flatMap Item.value))) [string items]
  | emptyArray {w} (hw : Spaces w) : Derives (.value (.array [])) (sym '[' :: (w ++ [sym ']']))
  | array {l ts} (h : Derives (.elements l) ts) :
    Derives (.value (.array l)) (sym '[' :: (ts ++ [sym ']']))
  | emptyObject {w} (hw : Spaces w) : Derives (.value (.object [])) (sym '{' :: (w ++ [sym '}']))
  | object {l ts} (h : Derives (.members l) ts) :
    Derives (.value (.object (assignAll [] l))) (sym '{' :: (ts ++ [sym '}']))
  | element {w v ts w'} (hw : Spaces w) (h : Derives (.value v) ts) (hw' : Spaces w') :
    Derives (.element v) (w ++ (ts ++ w'))
  | member {w items w' v ts} (hw : Spaces w) (hw' : Spaces w') (h : Derives (.element v) ts) :
    Derives (.member (items.flatMap Item.value, v))
      (w ++ string items :: (w' ++ sym ':' :: ts))
  | lastElement {v ts} (h : Derives (.element v) ts) : Derives (.elements [v]) ts
  | elements {v ts l us} (h : Derives (.element v) ts) (h' : Derives (.elements l) us) :
    Derives (.elements (v :: l)) (ts ++ sym ',' :: us)
  | lastMember {x ts} (h : Derives (.member x) ts) : Derives (.members [x]) ts
  | members {x ts l us} (h : Derives (.member x) ts) (h' : Derives (.members l) us) :
    Derives (.members (x :: l)) (ts ++ sym ',' :: us)

/-- The object or the array at the top of a document. -/
def JsonDocument.toValue : JsonDocument → JsonValue
  | object object_ => .object object_
  | array array_ => .array array_

/-- The text is an object or an array of RFC 8259, with white space around. -/
def RfcText (s : List UInt8) : Prop :=
  ∃ (doc : JsonDocument) (ts : List Token), Derives (.element doc.toValue) ts ∧
    (∀ t ∈ ts, t.Rfc) ∧ text ts = s

section

variable {w w' ts : List Token} {v : JsonValue} {x : List UInt8 × JsonValue} {l : JsonArray}
  {l' : List (List UInt8 × JsonValue)}

theorem Spaces.nil : Spaces [] := fun _ ht => absurd ht List.not_mem_nil

theorem Spaces.append (hw : Spaces w) (hw' : Spaces w') : Spaces (w ++ w') :=
  List.forall_mem_append.2 ⟨hw, hw'⟩

/-- A value without white space around. -/
theorem Derives.value_element (h : Derives (.value v) ts) : Derives (.element v) ts := by
  simpa using Derives.element .nil h .nil

/-! White space before a phrase. -/

theorem Derives.spaces_element (hw : Spaces w) (h : Derives (.element v) ts) :
    Derives (.element v) (w ++ ts) := by
  cases h with
  | element hw₀ h hw' =>
    rw [← List.append_assoc]
    exact .element (hw.append hw₀) h hw'

theorem Derives.spaces_member (hw : Spaces w) (h : Derives (.member x) ts) :
    Derives (.member x) (w ++ ts) := by
  cases h with
  | member hw₀ hw' h =>
    rw [← List.append_assoc]
    exact .member (hw.append hw₀) hw' h

theorem Derives.spaces_elements (hw : Spaces w) (h : Derives (.elements l) ts) :
    Derives (.elements l) (w ++ ts) := by
  cases h with
  | lastElement h => exact .lastElement (h.spaces_element hw)
  | elements h h' =>
    rw [← List.append_assoc]
    exact .elements (h.spaces_element hw) h'

theorem Derives.spaces_members (hw : Spaces w) (h : Derives (.members l') ts) :
    Derives (.members l') (w ++ ts) := by
  cases h with
  | lastMember h => exact .lastMember (h.spaces_member hw)
  | members h h' =>
    rw [← List.append_assoc]
    exact .members (h.spaces_member hw) h'

/-! White space behind a phrase. -/

theorem Derives.element_spaces (hw : Spaces w) (h : Derives (.element v) ts) :
    Derives (.element v) (ts ++ w) := by
  cases h with
  | element hw₀ h hw' =>
    rw [List.append_assoc, List.append_assoc]
    exact .element hw₀ h (hw'.append hw)

theorem Derives.member_spaces (hw : Spaces w) (h : Derives (.member x) ts) :
    Derives (.member x) (ts ++ w) := by
  cases h with
  | member hw₀ hw' h =>
    rw [List.append_assoc, List.cons_append, List.append_assoc, List.cons_append]
    exact .member hw₀ hw' (h.element_spaces hw)

theorem Derives.elements_spaces (hw : Spaces w) (h : Derives (.elements l) ts) :
    Derives (.elements l) (ts ++ w) := by
  induction l generalizing ts with
  | nil => cases h
  | cons v l ih =>
    cases h with
    | lastElement h => exact .lastElement (h.element_spaces hw)
    | elements h h' =>
      rw [List.append_assoc, List.cons_append]
      exact .elements h (ih h')

theorem Derives.members_spaces (hw : Spaces w) (h : Derives (.members l') ts) :
    Derives (.members l') (ts ++ w) := by
  induction l' generalizing ts with
  | nil => cases h
  | cons x l' ih =>
    cases h with
    | lastMember h => exact .lastMember (h.member_spaces hw)
    | members h h' =>
      rw [List.append_assoc, List.cons_append]
      exact .members h (ih h')

end

/-! ## The tokens of RFC 8259 -/

theorem Item.Rfc.loose {item : Item} (h : item.Rfc) : item.Loose := by
  cases item with
  | plain c => exact h.2
  | escape c =>
    have hall : ∀ c ∈ chars "\"\\/bfnrt", (unescape c).isSome := by decide
    exact hall c h
  | unicode x y z w => trivial

theorem IsNumber.imp {P P' : List UInt8 → Prop} {s : List UInt8} (h : IsNumber P s)
    (hp : ∀ s, P s → P' s) : IsNumber P' s := by
  obtain ⟨sign, int, frac, exp, hsign, hint, h⟩ := h
  exact ⟨sign, int, frac, exp, hsign, hp _ hint, h⟩

/-- Each token of RFC 8259 is one that the parser takes. -/
theorem Token.Rfc.loose {t : Token} (h : t.Rfc) : t.Loose := by
  cases t with
  | space c =>
    have hall : ∀ c ∈ chars " \t\n\r", isspace c := by decide
    exact hall c h
  | structural c => exact h
  | literal s => exact h
  | number s => exact IsNumber.imp h fun _ h => h.1
  | string items => exact fun item hitem => (h.1 item hitem).loose

/-! ## The division into tokens -/

/-- No number follows right after another one. -/
def Separated (ts : List Token) : Prop := ts.IsChain fun t u => ¬(t.isNumber ∧ u.isNumber)

section

variable {s x : List UInt8} {t : Token} {ts us w : List Token} {p : Phrase}

theorem Separated.cons (ht : ¬t.isNumber) (h : Separated ts) : Separated (t :: ts) := by
  refine List.isChain_cons.2 ⟨fun u _ htu => ht htu.1, h⟩

theorem Separated.append_cons (h : Separated ts) (ht : ¬t.isNumber) (h' : Separated us) :
    Separated (ts ++ t :: us) := by
  refine List.isChain_append.2 ⟨h, h'.cons ht, fun u _ v hv huv => ?_⟩
  obtain rfl := Option.some.inj hv
  exact ht huv.2

theorem not_isNumber_of_isSpace (ht : t.isSpace) : ¬t.isNumber := by
  cases t with
  | space c => exact Bool.false_ne_true
  | _ => exact absurd ht Bool.false_ne_true

theorem Separated.spaces_append (hw : Spaces w) (h : Separated ts) : Separated (w ++ ts) := by
  induction w with
  | nil => exact h
  | cons t w ih =>
    obtain ⟨ht, hw⟩ := List.forall_mem_cons.1 hw
    exact (ih hw).cons (not_isNumber_of_isSpace ht)

theorem Separated.append_spaces (h : Separated ts) (hw : Spaces w) : Separated (ts ++ w) := by
  cases w with
  | nil => rwa [List.append_nil]
  | cons t w =>
    obtain ⟨ht, hw⟩ := List.forall_mem_cons.1 hw
    have hw' : Separated w := List.append_nil w ▸ Separated.spaces_append hw .nil
    exact h.append_cons (not_isNumber_of_isSpace ht) hw'

/-- What the grammar derives is separated. -/
theorem Derives.separated (h : Derives p ts) : Separated ts := by
  have hsym : ∀ c, ¬(sym c).isNumber := fun _ => Bool.false_ne_true
  have hstring : ∀ items, ¬(Token.string items).isNumber := fun _ => Bool.false_ne_true
  have hnil : Separated [] := .nil
  induction h with
  | null => exact .singleton _
  | bool b => exact .singleton _
  | number s => exact .singleton _
  | string items => exact .singleton _
  | emptyArray hw => exact ((hnil.cons (hsym _)).spaces_append hw).cons (hsym _)
  | array _ ih => exact (ih.append_cons (hsym _) hnil).cons (hsym _)
  | emptyObject hw => exact ((hnil.cons (hsym _)).spaces_append hw).cons (hsym _)
  | object _ ih => exact (ih.append_cons (hsym _) hnil).cons (hsym _)
  | element hw _ hw' ih => exact (ih.append_spaces hw').spaces_append hw
  | member hw hw' _ ih =>
    exact (((ih.cons (hsym _)).spaces_append hw').cons (hstring _)).spaces_append hw
  | lastElement _ ih => exact ih
  | elements _ _ ih ih' => exact ih.append_cons (hsym _) ih'
  | lastMember _ ih => exact ih
  | members _ _ ih ih' => exact ih.append_cons (hsym _) ih'

end

/-- A character of a number. -/
def isNumberChar (c : UInt8) : Bool := isdigit c ∨ c ∈ chars ".eE+-"

/-- The items that a string begins with. -/
def firstItems : List UInt8 → List Item
  | [] => []
  | c :: s =>
    if c = quote then []
    else if c = backslash then
      match s with
      | [] => []
      | e :: s =>
        if e = 'u'.toUInt8 then
          match s with
          | x :: y :: z :: w :: s => .unicode x y z w :: firstItems s
          | _ => []
        else .escape e :: firstItems s
    else .plain c :: firstItems s

/-- The token that a text begins with. -/
def firstToken : List UInt8 → Token
  | [] => .literal []
  | c :: s =>
    if isspace c then .space c
    else if c ∈ structurals then .structural c
    else if c = quote then .string (firstItems s)
    else if c = 't'.toUInt8 then .literal (chars "true")
    else if c = 'f'.toUInt8 then .literal (chars "false")
    else if c = 'n'.toUInt8 then .literal (chars "null")
    else .number ((c :: s).takeWhile isNumberChar)

section

variable {s x : List UInt8} {t : Token} {ts us : List Token} {p : Phrase}

theorem takeWhile_append_of_head {f : UInt8 → Bool} (hs : ∀ c ∈ s, f c)
    (hx : ∀ c ∈ x.head?, ¬f c) : (s ++ x).takeWhile f = s := by
  rw [List.takeWhile_append_of_pos hs]
  cases x with
  | nil => exact List.append_nil _
  | cons c x => rw [List.takeWhile_cons_of_neg (hx c rfl), List.append_nil]

theorem IsDigits.forall_isNumberChar (h : IsDigits s) : ∀ c ∈ s, isNumberChar c := by
  intro c hc
  simp [isNumberChar, h.2 c hc]

theorem IsNumber.forall_isNumberChar (h : IsNumber IsDigits s) : ∀ c ∈ s, isNumberChar c := by
  obtain ⟨sign, int, frac, exp, hsign, hint, hfrac, hexp, rfl⟩ := h
  have hother : ∀ c ∈ chars ".eE+-", isNumberChar c := by decide
  rw [List.forall_mem_append, List.forall_mem_append, List.forall_mem_append]
  refine ⟨?_, hint.forall_isNumberChar, ?_, ?_⟩
  · rcases hsign with rfl | rfl
    · exact fun c hc => absurd hc List.not_mem_nil
    · decide
  · rcases hfrac with rfl | ⟨ds, hds, rfl⟩
    · exact fun c hc => absurd hc List.not_mem_nil
    · exact List.forall_mem_cons.2 ⟨hother _ (by decide), hds.forall_isNumberChar⟩
  · rcases hexp with rfl | ⟨e, sign, ds, he, hsign, hds, rfl⟩
    · exact fun c hc => absurd hc List.not_mem_nil
    · have he' : ∀ c ∈ chars "eE", isNumberChar c := by decide
      have hsign' : ∀ s ∈ [[], chars "+", chars "-"], ∀ c ∈ s, isNumberChar c := by
        decide
      exact List.forall_mem_cons.2 ⟨he' e he,
        List.forall_mem_append.2 ⟨hsign' sign hsign, hds.forall_isNumberChar⟩⟩

/-- A number begins with a digit or a minus sign. -/
theorem IsNumber.head (h : IsNumber IsDigits s) :
    ∃ c s', s = c :: s' ∧ (isdigit c ∨ c = '-'.toUInt8) := by
  obtain ⟨sign, int, frac, exp, hsign, ⟨hne, hint⟩, -, -, rfl⟩ := h
  rcases hsign with rfl | rfl
  · obtain ⟨c, int, rfl⟩ := List.exists_cons_of_ne_nil hne
    exact ⟨c, _, rfl, .inl (hint c List.mem_cons_self)⟩
  · exact ⟨_, _, rfl, .inr rfl⟩

theorem firstItems_bytes {item : Item} (h : item.Loose) (s : List UInt8) :
    firstItems (item.bytes ++ s) = item :: firstItems s := by
  cases item with
  | plain c =>
    rw [Item.bytes, List.singleton_append, firstItems.eq_def]
    simp only [if_neg h.1, if_neg h.2]
  | escape c =>
    have hne : c ≠ 'u'.toUInt8 := by
      rintro rfl
      have hnone : unescape 'u'.toUInt8 = none := by decide
      exact absurd h (by rw [Item.Loose, hnone]; exact Bool.false_ne_true)
    have hbackslash : backslash ≠ quote := by decide
    rw [Item.bytes, firstItems.eq_def]
    simp only [List.cons_append, List.nil_append, if_neg hbackslash, if_true, if_neg hne]
  | unicode x y z w =>
    have hbackslash : backslash ≠ quote := by decide
    rw [Item.bytes, firstItems.eq_def]
    simp only [List.cons_append, List.nil_append, if_neg hbackslash, if_true]

theorem firstItems_eq {items : List Item} (h : ∀ item ∈ items, item.Loose) (x : List UInt8) :
    firstItems (items.flatMap Item.bytes ++ quote :: x) = items := by
  induction items with
  | nil =>
    rw [List.flatMap_nil, List.nil_append, firstItems.eq_def]
    exact if_pos rfl
  | cons item items ih =>
    obtain ⟨hitem, h⟩ := List.forall_mem_cons.1 h
    rw [List.flatMap_cons, List.append_assoc, firstItems_bytes hitem, ih h]

theorem mem_of_isdigit {c : UInt8} (h : isdigit c) : c ∈ chars "0123456789" := by
  obtain ⟨hle, hge⟩ := of_decide_eq_true h
  rw [← UInt8.ofNat_toNat (x := c)]
  interval_cases c.toNat <;> decide

theorem mem_of_number_head {c : UInt8} (h : isdigit c ∨ c = '-'.toUInt8) :
    c ∈ chars "-0123456789" :=
  h.elim (fun h => List.mem_cons_of_mem _ (mem_of_isdigit h)) (fun h => h ▸ List.mem_cons_self)

theorem mem_of_isspace {c : UInt8} (h : isspace c) : c ∈ [32, 9, 10, 11, 12, 13] := by
  rcases of_decide_eq_true h with rfl | ⟨hle, hge⟩
  · exact List.mem_cons_self
  · rw [← UInt8.ofNat_toNat (x := c)]
    interval_cases c.toNat <;> decide

/-- A text that begins with a token. -/
theorem firstToken_eq (ht : t.Loose) (hx : t.isNumber → ∀ c ∈ x.head?, ¬isNumberChar c) :
    firstToken (t.bytes ++ x) = t := by
  cases t with
  | space c => exact if_pos ht
  | structural c =>
    have hall : ∀ c ∈ structurals, ¬isspace c := by decide
    exact (if_neg (hall c ht)).trans (if_pos ht)
  | literal s =>
    have hs : s = chars "true" ∨ s = chars "false" ∨ s = chars "null" := by
      simpa [Token.Loose] using ht
    rcases hs with rfl | rfl | rfl <;> rfl
  | number s =>
    obtain ⟨c, s', rfl, hc⟩ := IsNumber.head ht
    have hall : ∀ c ∈ chars "-0123456789", ¬isspace c ∧ c ∉ structurals ∧ c ≠ quote ∧
        c ≠ 't'.toUInt8 ∧ c ≠ 'f'.toUInt8 ∧ c ≠ 'n'.toUInt8 := by
      decide
    obtain ⟨h₁, h₂, h₃, h₄, h₅, h₆⟩ := hall c (mem_of_number_head hc)
    have htake := takeWhile_append_of_head (IsNumber.forall_isNumberChar ht) (hx rfl)
    rw [Token.bytes, List.cons_append, firstToken, if_neg h₁, if_neg h₂, if_neg h₃, if_neg h₄,
      if_neg h₅, if_neg h₆, ← List.cons_append, htake]
  | string items =>
    have hquote : ¬isspace quote ∧ quote ∉ structurals := by decide
    rw [Token.bytes, List.cons_append, firstToken, if_neg hquote.1, if_neg hquote.2, if_pos rfl,
      List.append_assoc, List.singleton_append, firstItems_eq ht]

theorem Token.Loose.bytes_ne_nil (ht : t.Loose) : t.bytes ≠ [] := by
  cases t with
  | space c => exact List.cons_ne_nil _ _
  | structural c => exact List.cons_ne_nil _ _
  | literal s =>
    have hall : ∀ s ∈ [chars "true", chars "false", chars "null"], s ≠ [] := by decide
    exact hall s ht
  | number s =>
    obtain ⟨c, s', rfl, -⟩ := IsNumber.head ht
    exact List.cons_ne_nil _ _
  | string items => exact List.cons_ne_nil _ _

/-- What is no number does not begin as if it went on with one. -/
theorem head_of_not_isNumber (ht : t.Loose) (hn : ¬t.isNumber) :
    ∀ c ∈ (t.bytes ++ x).head?, ¬isNumberChar c := by
  cases t with
  | space c =>
    have hall : ∀ c ∈ [32, 9, 10, 11, 12, 13], ¬isNumberChar c := by decide
    rintro d ⟨⟩
    exact hall c (mem_of_isspace ht)
  | structural c =>
    have hall : ∀ c ∈ structurals, ¬isNumberChar c := by decide
    rintro d ⟨⟩
    exact hall c ht
  | literal s =>
    have hs : s = chars "true" ∨ s = chars "false" ∨ s = chars "null" := by
      simpa [Token.Loose] using ht
    rcases hs with rfl | rfl | rfl <;> rintro d ⟨⟩ <;> decide
  | number s => exact absurd rfl hn
  | string items =>
    rintro d ⟨⟩
    decide

/-- The first token of a text. -/
theorem firstToken_text (hts : Separated (t :: ts)) (h : ∀ u ∈ t :: ts, u.Loose) :
    firstToken (text (t :: ts)) = t := by
  obtain ⟨ht, h⟩ := List.forall_mem_cons.1 h
  refine firstToken_eq ht fun hnumber => ?_
  cases ts with
  | nil => exact fun c hc => absurd hc (Option.not_mem_none c)
  | cons u ts =>
    have hu : ¬u.isNumber := fun hu => (List.isChain_cons_cons.1 hts).1 ⟨hnumber, hu⟩
    exact head_of_not_isNumber (List.forall_mem_cons.1 h).1 hu

/-- A text is divided into tokens in one way at most. -/
theorem tokens_unique (hts : Separated ts) (hus : Separated us) (h : ∀ t ∈ ts, t.Loose)
    (h' : ∀ t ∈ us, t.Loose) (heq : text ts = text us) : ts = us := by
  have hne : ∀ (t : Token) (ts : List Token), t.Loose → text (t :: ts) ≠ [] :=
    fun t ts ht hnil => ht.bytes_ne_nil (List.append_eq_nil_iff.1 hnil).1
  induction ts generalizing us with
  | nil =>
    cases us with
    | nil => rfl
    | cons u us => exact absurd heq.symm (hne u us (List.forall_mem_cons.1 h').1)
  | cons t ts ih =>
    cases us with
    | nil => exact absurd heq (hne t ts (List.forall_mem_cons.1 h).1)
    | cons u us =>
      obtain rfl : t = u := by rw [← firstToken_text hts h, heq, firstToken_text hus h']
      have hrest : text ts = text us := List.append_cancel_left heq
      have heq' : ts = us :=
        ih hts.tail hus.tail (List.forall_mem_cons.1 h).2 (List.forall_mem_cons.1 h').2 hrest
      rw [heq']

end

end EW8.Core

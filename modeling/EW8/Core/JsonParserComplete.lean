import EW8.Core.JsonParserSound

/-!
# What the parser has to take

A text of the grammar, in tokens that the parser takes, is read to its end, and what is found is what
it means (`parse_text`): each function takes just its phrase when what follows cannot belong to it.
-/

set_option maxRecDepth 8000

namespace EW8.Core

open Reader SortedMap
open scoped SortedMap

namespace JsonParser

variable {underflow : ℚ → Bool} {i : Input UInt8} {s x : List UInt8} {c : UInt8}

/-- White space is skipped to its end. -/
theorem skipWhitespace_text {w : List Token} (hw : Spaces w) (hw' : Accepts underflow w)
    (hx : ∀ c ∈ x.head?, ¬isspace c) (h : i.rest = text w ++ x) :
    skipWhitespace i = i.advance (text w).length := by
  have hall : ∀ c ∈ text w, isspace c := by
    intro c hc
    obtain ⟨t, ht, hct⟩ := List.mem_flatMap.1 hc
    cases t with
    | space d => exact List.mem_singleton.1 hct ▸ (hw' _ ht).1
    | _ => exact absurd (hw _ ht) Bool.false_ne_true
  rw [skipWhitespace, h, takeWhile_append_of_head hall hx]

/-! ## Numbers -/

theorem parseDigits_text (hs : IsDigits s) (hx : ∀ c ∈ x.head?, ¬isdigit c) (h : i.rest = s ++ x) :
    parseDigits i = .ok () (i.advance s.length) := by
  have htake := takeWhile_append_of_head hs.2 hx
  obtain ⟨c, s', rfl⟩ := List.exists_cons_of_ne_nil hs.1
  rw [parseDigits, h, if_pos, htake]
  exact hs.2 c List.mem_cons_self

theorem parseFraction_text (hs : s = [] ∨ IsFraction s) (hx : ∀ c ∈ x.head?, ¬isdigit c)
    (hdot : s = [] → x.head? ≠ some '.'.toUInt8) (h : i.rest = s ++ x) :
    parseFraction i = .ok () (i.advance s.length) := by
  rw [parseFraction]
  rcases hs with rfl | ⟨ds, hds, rfl⟩
  · rw [if_neg]
    · rfl
    · rw [h]
      exact hdot rfl
  · rw [if_pos (by rw [h]; rfl), parseDigits_text hds hx (Input.rest_advance_one h),
      Input.advance_advance, List.length_cons, Nat.add_comm]

theorem not_isdigit_of_not_isNumberChar (hx : ∀ c ∈ x.head?, ¬isNumberChar c) :
    ∀ c ∈ x.head?, ¬isdigit c := by
  intro c hc hd
  exact hx c hc (by simp [isNumberChar, hd])

theorem not_sign_of_isdigit (hc : isdigit c) : c ≠ '+'.toUInt8 ∧ c ≠ '-'.toUInt8 := by
  have hall : ∀ c ∈ chars "0123456789", c ≠ '+'.toUInt8 ∧ c ≠ '-'.toUInt8 := by decide
  exact hall c (mem_of_isdigit hc)

theorem parseExponent_text (hs : s = [] ∨ IsExponent s) (hx : ∀ c ∈ x.head?, ¬isNumberChar c)
    (h : i.rest = s ++ x) : parseExponent i = .ok () (i.advance s.length) := by
  have hdigit := not_isdigit_of_not_isNumberChar hx
  rw [parseExponent]
  rcases hs with rfl | ⟨e, sign, ds, he, hsign, hds, rfl⟩
  · rw [if_neg]
    · rfl
    · rw [h]
      rintro (hhead | hhead)
      · exact hx _ hhead (by decide)
      · exact hx _ hhead (by decide)
  · have he' : ∀ e ∈ chars "eE", e = 'e'.toUInt8 ∨ e = 'E'.toUInt8 := by decide
    have hhead : i.rest.head? = some e := by rw [h]; rfl
    have hrest : (i.advance 1).rest = sign ++ (ds ++ x) := by
      rw [Input.rest_advance_one h]
      exact List.append_assoc ..
    rw [if_pos (by rw [hhead]; exact (he' e he).imp (congrArg some) (congrArg some))]
    have hsign' : sign = [] ∨ ∃ c, (c = '+'.toUInt8 ∨ c = '-'.toUInt8) ∧ sign = [c] := by
      have hall : sign = [] ∨ sign = chars "+" ∨ sign = chars "-" := by simpa using hsign
      rcases hall with rfl | rfl | rfl
      · exact .inl rfl
      · exact .inr ⟨_, .inl rfl, rfl⟩
      · exact .inr ⟨_, .inr rfl, rfl⟩
    dsimp only
    rcases hsign' with rfl | ⟨c, hc, rfl⟩
    · obtain ⟨d, ds', rfl⟩ := List.exists_cons_of_ne_nil hds.1
      obtain ⟨hplus, hminus⟩ := not_sign_of_isdigit (hds.2 d List.mem_cons_self)
      have hhead' : (i.advance 1).rest.head? = some d := by rw [hrest]; rfl
      have hneg : ¬((i.advance 1).rest.head? = some '+'.toUInt8 ∨
          (i.advance 1).rest.head? = some '-'.toUInt8) := by
        rw [hhead', Option.some_inj, Option.some_inj]
        exact fun h => h.elim hplus hminus
      rw [if_neg hneg, parseDigits_text hds hdigit hrest, Input.advance_advance, List.nil_append,
        List.length_cons (a := e), Nat.add_comm]
    · have hhead' : (i.advance 1).rest.head? = some c := by rw [hrest]; rfl
      rw [if_pos (by rw [hhead']; exact hc.imp (congrArg some) (congrArg some)),
        parseDigits_text hds hdigit (Input.rest_advance_one hrest), Input.advance_advance,
        Input.advance_advance, List.length_cons, List.length_append, List.length_singleton]
      congr 2
      omega

/-- Behind a fraction. -/
theorem head_exponent (hs : s = [] ∨ IsExponent s) (hx : ∀ c ∈ x.head?, ¬isNumberChar c) :
    ∀ c ∈ (s ++ x).head?, ¬isdigit c ∧ c ≠ '.'.toUInt8 := by
  rcases hs with rfl | ⟨e, sign, ds, he, -, -, rfl⟩
  · intro c hc
    refine ⟨not_isdigit_of_not_isNumberChar hx c hc, ?_⟩
    rintro rfl
    exact hx _ hc (by decide)
  · have hall : ∀ c ∈ chars "eE", ¬isdigit c ∧ c ≠ '.'.toUInt8 := by decide
    intro c hc
    obtain rfl : e = c := Option.some.inj hc
    exact hall e he

/-- Behind the digits before a fraction. -/
theorem head_fraction (hs : s = [] ∨ IsFraction s)
    (hx : ∀ c ∈ x.head?, ¬isdigit c ∧ c ≠ '.'.toUInt8) : ∀ c ∈ (s ++ x).head?, ¬isdigit c := by
  rcases hs with rfl | ⟨ds, -, rfl⟩
  · exact fun c hc => (hx c hc).1
  · rintro c ⟨⟩
    decide

theorem parseNumber_text (hs : IsNumber IsDigits s) (hrange : InRange underflow s)
    (hx : ∀ c ∈ x.head?, ¬isNumberChar c) (h : i.rest = s ++ x) :
    parseNumber underflow i = .ok (doubleValue s) (i.advance s.length) := by
  obtain ⟨sign, int, frac, exp, hsign, hint, hfrac, hexp, hs⟩ := hs
  have h₀ : i.rest = sign ++ (int ++ (frac ++ (exp ++ x))) := by
    rw [h, hs]
    simp only [List.append_assoc]
  have hstart : (if i.rest.head? = some '-'.toUInt8 then i.advance 1 else i) =
      i.advance sign.length := by
    rcases hsign with rfl | rfl
    · obtain ⟨d, ds', rfl⟩ := List.exists_cons_of_ne_nil hint.1
      rw [if_neg, List.length_nil, Input.advance_zero]
      rw [h₀]
      exact fun hd => (not_sign_of_isdigit (hint.2 d List.mem_cons_self)).2 (Option.some.inj hd)
    · rw [h₀]
      rfl
  have hbehind := head_exponent hexp hx
  have h₁ := Input.rest_advance h₀
  have h₂ := Input.rest_advance h₁
  have h₃ := Input.rest_advance h₂
  have hlength : s.length = sign.length + (int.length + (frac.length + exp.length)) := by
    rw [hs]
    simp only [List.length_append]
  rw [parseNumber]
  simp only [hstart]
  rw [parseDigits_text hint (head_fraction hfrac hbehind) h₁, Result.bind,
    parseFraction_text hfrac (fun c hc => (hbehind c hc).1) (fun _ hc => (hbehind _ hc).2 rfl) h₂,
    Result.bind, parseExponent_text hexp hx h₃, Result.bind, Input.advance_advance,
    Input.advance_advance, Input.advance_advance, ← hlength]
  -- what is given to `stod` is the text of the number
  have htake : i.rest.take ((i.advance s.length).pos - i.pos) = s := by
    rw [Input.advance, Nat.add_sub_cancel_left, h, List.take_left]
  rw [htake, stod, if_pos hrange]

/-! ## Strings and literals -/

theorem parseStringLoop_item {item : Item} (hitem : item.Loose) (str : List UInt8) (pos : ℕ)
    (rest : List UInt8) :
    parseStringLoop str pos (item.bytes ++ rest) =
      parseStringLoop (str ++ item.value) (pos + item.bytes.length) rest := by
  have hbackslash : backslash ≠ quote := by decide
  rw [parseStringLoop.eq_def]
  cases item with
  | plain c => simp only [Item.bytes, List.singleton_append, if_neg hitem.1, if_neg hitem.2]; rfl
  | escape c =>
    obtain ⟨d, hd⟩ := Option.isSome_iff_exists.1 hitem
    have hne : c ≠ 'u'.toUInt8 := by
      rintro rfl
      have hnone : unescape 'u'.toUInt8 = none := by decide
      exact absurd (hd.symm.trans hnone) (Option.some_ne_none d)
    simp only [Item.bytes, List.cons_append, List.nil_append, if_neg hbackslash, if_true,
      if_neg hne, hd, Item.value]
    rfl
  | unicode x y z w =>
    simp only [Item.bytes, List.cons_append, List.nil_append, if_neg hbackslash, if_true]
    rfl

theorem parseStringLoop_text {items : List Item} (h : ∀ item ∈ items, item.Loose)
    (str : List UInt8) (pos : ℕ) (x : List UInt8) :
    parseStringLoop str pos (items.flatMap Item.bytes ++ quote :: x) =
      .ok (str ++ items.flatMap Item.value) ⟨pos + (items.flatMap Item.bytes).length + 1, x⟩ := by
  induction items generalizing str pos with
  | nil =>
    rw [List.flatMap_nil, List.nil_append, parseStringLoop.eq_def, List.flatMap_nil,
      List.append_nil]
    exact if_pos rfl
  | cons item items ih =>
    obtain ⟨hitem, h⟩ := List.forall_mem_cons.1 h
    rw [List.flatMap_cons, List.append_assoc, parseStringLoop_item hitem, ih h, List.flatMap_cons,
      List.append_assoc, List.length_append, Nat.add_assoc pos]

theorem parseString_text {items : List Item} (hitems : (Token.string items).Loose)
    (h : i.rest = (Token.string items).bytes ++ x) :
    parseString i =
      .ok (items.flatMap Item.value) (i.advance (Token.string items).bytes.length) := by
  have hrest : (i.advance 1).rest = items.flatMap Item.bytes ++ quote :: x := by
    rw [Input.rest_advance_one h]
    exact List.append_assoc ..
  have hlength : (Token.string items).bytes.length = (items.flatMap Item.bytes).length + 2 := by
    rw [Token.bytes, List.length_cons, List.length_append, List.length_singleton]
  rw [parseString, if_pos (by rw [h]; rfl)]
  dsimp only
  rw [hrest, parseStringLoop_text hitems, List.nil_append, Input.advance_eq h, hlength]
  have hpos : (i.advance 1).pos = i.pos + 1 := rfl
  congr 2
  omega

theorem parseBool_text {b : Bool} (h : i.rest = chars (if b then "true" else "false") ++ x) :
    parseBool i = .ok b (i.advance (chars (if b then "true" else "false")).length) := by
  rw [parseBool, h]
  cases b <;> rfl

theorem parseNull_text (h : i.rest = chars "null" ++ x) : parseNull i = .ok () (i.advance 4) := by
  rw [parseNull, h]
  rfl

/-! ## Values -/

theorem skipWhitespace_idem (i : Input UInt8) :
    skipWhitespace (skipWhitespace i) = skipWhitespace i := by
  have hrest : (skipWhitespace i).rest = i.rest.dropWhile isspace := by
    obtain ⟨s, hs⟩ : ∃ s, i.rest.takeWhile isspace = s := ⟨_, rfl⟩
    rw [skipWhitespace, hs]
    exact Input.rest_advance (hs ▸ List.takeWhile_append_dropWhile.symm)
  have hnil : (i.rest.dropWhile isspace).takeWhile isspace = [] := by
    induction i.rest with
    | nil => rfl
    | cons c s ih => by_cases hc : isspace c <;> simp [hc, ih]
  rw [skipWhitespace, hrest, hnil]
  rfl

section

variable {depth fuel : ℕ}

/-! What `parseValue` does depends on the first character behind white space. -/

theorem parseValue_skipWhitespace :
    parseValue underflow depth (skipWhitespace i) = parseValue underflow depth i := by
  cases depth with
  | zero => rfl
  | succ depth => rw [parseValue, skipWhitespace_idem, ← parseValue]

theorem parseValue_string (h : (skipWhitespace i).rest.head? = some quote) :
    parseValue underflow (depth + 1) i =
      (parseString (skipWhitespace i)).bind fun s i => .ok (.string s) i := by
  rw [parseValue, h]
  rfl

theorem parseValue_object (h : (skipWhitespace i).rest.head? = some '{'.toUInt8) :
    parseValue underflow (depth + 1) i =
      (parseObject (parseValue underflow depth) (skipWhitespace i)).bind
        fun obj i => .ok (.object obj) i := by
  rw [parseValue, h]
  rfl

theorem parseValue_array (h : (skipWhitespace i).rest.head? = some '['.toUInt8) :
    parseValue underflow (depth + 1) i =
      (parseArray (parseValue underflow depth) (skipWhitespace i)).bind
        fun arr i => .ok (.array arr) i := by
  rw [parseValue, h]
  rfl

theorem parseValue_bool (b : Bool)
    (h : (skipWhitespace i).rest.head? = (chars (if b then "true" else "false")).head?) :
    parseValue underflow (depth + 1) i =
      (parseBool (skipWhitespace i)).bind fun b i => .ok (.bool b) i := by
  rw [parseValue, h]
  cases b <;> rfl

theorem parseValue_null (h : (skipWhitespace i).rest.head? = some 'n'.toUInt8) :
    parseValue underflow (depth + 1) i =
      (parseNull (skipWhitespace i)).bind fun _ i => .ok .null i := by
  rw [parseValue, h]
  rfl

theorem parseValue_number (h : (skipWhitespace i).rest.head? = some c)
    (hc : isdigit c ∨ c = '-'.toUInt8) :
    parseValue underflow (depth + 1) i =
      (parseNumber underflow (skipWhitespace i)).bind fun n i => .ok (.double n) i := by
  have hall : ∀ c ∈ chars "-0123456789", c ≠ quote ∧ c ≠ '{'.toUInt8 ∧ c ≠ '['.toUInt8 ∧
      ¬(c = 't'.toUInt8 ∨ c = 'f'.toUInt8) ∧ c ≠ 'n'.toUInt8 := by
    decide
  obtain ⟨h₁, h₂, h₃, h₄, h₅⟩ := hall c (mem_of_number_head hc)
  rw [parseValue, h]
  simp only [if_neg h₁, if_neg h₂, if_neg h₃, if_neg h₄, if_neg h₅, if_pos hc.symm]

/-! Where an array or an object is closed, there is no value and no member. -/

theorem parseArrayLoop_close {arr l : JsonArray} {i' : Input UInt8}
    (h : (skipWhitespace i).rest.head? = some ']'.toUInt8) :
    parseArrayLoop (parseValue underflow depth) fuel arr i ≠ .ok l i' := by
  cases fuel with
  | zero => exact Result.exhausted_ne_ok
  | succ fuel =>
    rw [parseArrayLoop]
    cases depth with
    | zero => exact Result.exhausted_ne_ok
    | succ depth =>
      rw [parseValue, h]
      exact Result.error_ne_ok

theorem parseObjectLoop_close {obj l : JsonObject} {i' : Input UInt8}
    (h : (skipWhitespace i).rest.head? = some '}'.toUInt8) :
    parseObjectLoop (parseValue underflow depth) fuel obj i ≠ .ok l i' := by
  cases fuel with
  | zero => exact Result.exhausted_ne_ok
  | succ fuel =>
    rw [parseObjectLoop, h]
    exact Result.error_ne_ok

theorem parseArrayLoop_skipWhitespace (arr : JsonArray) :
    parseArrayLoop (parseValue underflow depth) fuel arr (skipWhitespace i) =
      parseArrayLoop (parseValue underflow depth) fuel arr i := by
  cases fuel with
  | zero => rfl
  | succ fuel => rw [parseArrayLoop, parseValue_skipWhitespace, ← parseArrayLoop]

theorem parseObjectLoop_skipWhitespace (obj : JsonObject) :
    parseObjectLoop (parseValue underflow depth) fuel obj (skipWhitespace i) =
      parseObjectLoop (parseValue underflow depth) fuel obj i := by
  cases fuel with
  | zero => rfl
  | succ fuel => rw [parseObjectLoop, skipWhitespace_idem, ← parseObjectLoop]

end

/-- Neither white space nor a number goes on with `x`. -/
def Ends (x : List UInt8) : Prop := ∀ c ∈ x.head?, ¬isspace c ∧ ¬isNumberChar c

/-- What the parser makes of the tokens `ts` when they are followed by some text `x`. -/
def Parses (underflow : ℚ → Bool) (ts : List Token) : Phrase → Prop
  | .value v => ∀ depth i w x, ts.length ≤ depth → Spaces w → Accepts underflow w →
    (∀ c ∈ x.head?, ¬isNumberChar c) → i.rest = text w ++ (text ts ++ x) →
      parseValue underflow depth i = .ok v (i.advance (text w ++ text ts).length)
  | .element v => ∀ depth i x, ts.length ≤ depth → Ends x → i.rest = text ts ++ x →
    ∃ i', parseValue underflow depth i = .ok v i' ∧
      skipWhitespace i' = i.advance (text ts).length
  | .member (key, v) => ∀ depth i x, ts.length ≤ depth → Ends x → i.rest = text ts ++ x →
    ∃ i₁ i₂, (skipWhitespace i).rest.head? = some quote ∧
      parseString (skipWhitespace i) = .ok key i₁ ∧
      (skipWhitespace i₁).rest.head? = some ':'.toUInt8 ∧
      parseValue underflow depth ((skipWhitespace i₁).advance 1) = .ok v i₂ ∧
      skipWhitespace i₂ = i.advance (text ts).length
  | .elements l => ∀ depth fuel arr i x, ts.length ≤ depth → ts.length < fuel →
    i.rest = text ts ++ ']'.toUInt8 :: x →
      parseArrayLoop (parseValue underflow depth) fuel arr i =
        .ok (arr ++ l) (i.advance ((text ts).length + 1))
  | .members l => ∀ depth fuel obj i x, ts.length ≤ depth → ts.length < fuel →
    i.rest = text ts ++ '}'.toUInt8 :: x →
      parseObjectLoop (parseValue underflow depth) fuel obj i =
        .ok (assignAll obj l) (i.advance ((text ts).length + 1))

section

variable {ts us w w' : List Token} {t : Token} {v : JsonValue} {l : JsonArray} {depth : ℕ}
  {l' : List (List UInt8 × JsonValue)}

theorem ends_cons {c : Char} (hc : ¬isspace c.toUInt8 ∧ ¬isNumberChar c.toUInt8) (x : List UInt8) :
    Ends (c.toUInt8 :: x) := by
  intro d hd
  obtain rfl : c.toUInt8 = d := Option.some.inj hd
  exact hc

/-- For a value, the white space before it may be taken as skipped. -/
theorem parses_value (hts : ts ≠ []) (hhead : ∀ x, ∀ c ∈ (text ts ++ x).head?, ¬isspace c)
    (h : ∀ depth i x, ts.length ≤ depth + 1 → (∀ c ∈ x.head?, ¬isNumberChar c) →
      (skipWhitespace i).rest = text ts ++ x → parseValue underflow (depth + 1) i =
        .ok v ((skipWhitespace i).advance (text ts).length)) :
    Parses underflow ts (.value v) := by
  intro depth i w x hdepth hw hw' hx hrest
  have hpos := List.length_pos_of_ne_nil hts
  obtain ⟨depth, rfl⟩ := Nat.exists_eq_add_one_of_ne_zero (by omega : depth ≠ 0)
  have hskip := skipWhitespace_text hw hw' (hhead x) hrest
  have hrest' := Input.rest_advance hrest
  rw [h depth i x hdepth hx (by rw [hskip, hrest']), hskip, Input.advance_advance,
    List.length_append]

theorem parseArray_text (hl : Parses underflow ts (.elements l)) (hdepth : ts.length ≤ depth)
    (hts : ts.length ≤ (text ts).length)
    (h : i.rest = '['.toUInt8 :: (text ts ++ ']'.toUInt8 :: x)) :
    parseArray (parseValue underflow depth) i = .ok l (i.advance ((text ts).length + 2)) := by
  have hrest := Input.rest_advance_one h
  have hlength : i.rest.length = (text ts).length + x.length + 2 := by
    rw [h, List.length_cons, List.length_append, List.length_cons]
    omega
  have hloop := hl depth i.rest.length [] (i.advance 1) x hdepth (by omega) hrest
  have hclose : (skipWhitespace (i.advance 1)).rest.head? ≠ some ']'.toUInt8 :=
    fun hclose => parseArrayLoop_close hclose hloop
  rw [parseArray, if_neg (by rw [h]; exact not_not.2 rfl)]
  dsimp only
  rw [if_neg hclose, parseArrayLoop_skipWhitespace, hloop, List.nil_append, Input.advance_advance,
    Nat.add_comm 1]

theorem parseObject_text (hl : Parses underflow ts (.members l')) (hdepth : ts.length ≤ depth)
    (hts : ts.length ≤ (text ts).length)
    (h : i.rest = '{'.toUInt8 :: (text ts ++ '}'.toUInt8 :: x)) :
    parseObject (parseValue underflow depth) i =
      .ok (assignAll [] l') (i.advance ((text ts).length + 2)) := by
  have hrest := Input.rest_advance_one h
  have hlength : i.rest.length = (text ts).length + x.length + 2 := by
    rw [h, List.length_cons, List.length_append, List.length_cons]
    omega
  have hloop := hl depth i.rest.length [] (i.advance 1) x hdepth (by omega) hrest
  have hclose : (skipWhitespace (i.advance 1)).rest.head? ≠ some '}'.toUInt8 :=
    fun hclose => parseObjectLoop_close hclose hloop
  rw [parseObject, if_neg (by rw [h]; exact not_not.2 rfl)]
  dsimp only
  rw [if_neg hclose, parseObjectLoop_skipWhitespace, hloop, Input.advance_advance, Nat.add_comm 1]

/-- Brackets with nothing but white space in between. -/
theorem parseArray_empty (parseValue : Input UInt8 → Parsed JsonValue) (hw : Spaces w)
    (hw' : Accepts underflow w) (h : i.rest = '['.toUInt8 :: (text w ++ ']'.toUInt8 :: x)) :
    parseArray parseValue i = .ok [] (i.advance ((text w).length + 2)) := by
  have hrest := Input.rest_advance_one h
  have hskip :=
    skipWhitespace_text hw hw' (fun c hc => (ends_cons (by decide) x c hc).1) hrest
  rw [parseArray, if_neg (by rw [h]; exact not_not.2 rfl)]
  dsimp only
  rw [hskip, if_pos (by rw [Input.rest_advance hrest]; rfl), Input.advance_advance,
    Input.advance_advance]
  congr 2
  omega

theorem parseObject_empty (parseValue : Input UInt8 → Parsed JsonValue) (hw : Spaces w)
    (hw' : Accepts underflow w) (h : i.rest = '{'.toUInt8 :: (text w ++ '}'.toUInt8 :: x)) :
    parseObject parseValue i = .ok [] (i.advance ((text w).length + 2)) := by
  have hrest := Input.rest_advance_one h
  have hskip :=
    skipWhitespace_text hw hw' (fun c hc => (ends_cons (by decide) x c hc).1) hrest
  rw [parseObject, if_neg (by rw [h]; exact not_not.2 rfl)]
  dsimp only
  rw [hskip, if_pos (by rw [Input.rest_advance hrest]; rfl), Input.advance_advance,
    Input.advance_advance]
  congr 2
  omega

theorem length_le_text (h : Accepts underflow ts) : ts.length ≤ (text ts).length := by
  induction ts with
  | nil => exact le_rfl
  | cons t ts ih =>
    obtain ⟨⟨ht, -⟩, h⟩ := accepts_cons.1 h
    have hpos := List.length_pos_of_ne_nil ht.bytes_ne_nil
    rw [text_cons, List.length_append, List.length_cons]
    have := ih h
    omega

/-- Behind a value. -/
theorem head_spaces (hw : Spaces w) (hw' : Accepts underflow w) (hx : Ends x) :
    ∀ c ∈ (text w ++ x).head?, ¬isNumberChar c := by
  cases w with
  | nil => exact fun c hc => (hx c hc).2
  | cons t w =>
    have ht := not_isNumber_of_isSpace (List.forall_mem_cons.1 hw).1
    rw [text_cons, List.append_assoc]
    exact head_of_not_isNumber (accepts_cons.1 hw').1.1 ht

theorem text_singleton (t : Token) : text [t] = t.bytes := by
  rw [text_cons, text_nil, List.append_nil]

/-- The text of a phrase in brackets. -/
theorem text_bracket (a b : Char) :
    text (.sym a :: (ts ++ [.sym b])) ++ x = a.toUInt8 :: (text ts ++ b.toUInt8 :: x) := by
  rw [text_cons, text_append, text_singleton, List.append_assoc, List.append_assoc]
  rfl

theorem length_bracket (a b : Char) :
    (text (.sym a :: (ts ++ [.sym b]))).length = (text ts).length + 2 := by
  rw [text_cons, text_append, text_singleton, List.length_append, List.length_append]
  exact Nat.add_comm ..

namespace Parses

theorem number (hs : IsNumber IsDigits s) (hrange : InRange underflow s) :
    Parses underflow [.number s] (.value (.double (doubleValue s))) := by
  obtain ⟨c, s', rfl, hc⟩ := IsNumber.head hs
  have hall : ∀ c ∈ chars "-0123456789", ¬isspace c := by decide
  have hspace := hall c (mem_of_number_head hc)
  refine parses_value (List.cons_ne_nil _ _) (by rintro x c ⟨⟩; exact hspace)
    fun depth i x _ hx h => ?_
  rw [text_singleton] at h ⊢
  rw [parseValue_number (by rw [h]; rfl) hc, parseNumber_text hs hrange hx h, Result.bind]
  rfl

theorem array (hl : Parses underflow ts (.elements l)) (hts : Accepts underflow ts) :
    Parses underflow (.sym '[' :: (ts ++ [.sym ']'])) (.value (.array l)) := by
  refine parses_value (List.cons_ne_nil _ _) (by rintro x c ⟨⟩; decide)
    fun depth i x hdepth _ h => ?_
  rw [List.length_cons, List.length_append, List.length_singleton] at hdepth
  rw [text_bracket] at h
  rw [parseValue_array (by rw [h]; rfl), parseArray_text hl (by omega) (length_le_text hts) h,
    Result.bind, length_bracket]

theorem object (hl : Parses underflow ts (.members l')) (hts : Accepts underflow ts) :
    Parses underflow (.sym '{' :: (ts ++ [.sym '}'])) (.value (.object (assignAll [] l'))) := by
  refine parses_value (List.cons_ne_nil _ _) (by rintro x c ⟨⟩; decide)
    fun depth i x hdepth _ h => ?_
  rw [List.length_cons, List.length_append, List.length_singleton] at hdepth
  rw [text_bracket] at h
  rw [parseValue_object (by rw [h]; rfl), parseObject_text hl (by omega) (length_le_text hts) h,
    Result.bind, length_bracket]

theorem element (h : Parses underflow ts (.value v)) (hw : Spaces w) (ha : Accepts underflow w)
    (hw' : Spaces w') (ha' : Accepts underflow w') :
    Parses underflow (w ++ (ts ++ w')) (.element v) := by
  intro depth i x hdepth hx hrest
  simp only [List.length_append] at hdepth
  have hrest' : i.rest = (text w ++ text ts) ++ (text w' ++ x) := by
    rw [hrest]
    simp only [text_append, List.append_assoc]
  refine ⟨_, h depth i w (text w' ++ x) (by omega) hw ha (head_spaces hw' ha' hx)
    (hrest'.trans (List.append_assoc ..)), ?_⟩
  rw [skipWhitespace_text hw' ha' (fun c hc => (hx c hc).1) (Input.rest_advance hrest'),
    Input.advance_advance, text_append, text_append, List.length_append, List.length_append,
    List.length_append, Nat.add_assoc]

theorem member {items : List Item} (hitems : (Token.string items).Loose)
    (h : Parses underflow ts (.element v)) (hw : Spaces w) (ha : Accepts underflow w)
    (hw' : Spaces w') (ha' : Accepts underflow w') :
    Parses underflow (w ++ .string items :: (w' ++ .sym ':' :: ts))
      (.member (items.flatMap Item.value, v)) := by
  intro depth i x hdepth hx hrest
  simp only [List.length_append, List.length_cons] at hdepth
  have h₀ : i.rest = text w ++ ((Token.string items).bytes ++ (text w' ++
      ':'.toUInt8 :: (text ts ++ x))) := by
    rw [hrest]
    simp only [text_append, text_cons, List.append_assoc]
    rfl
  have h₁ := Input.rest_advance h₀
  have h₂ := Input.rest_advance h₁
  have h₃ := Input.rest_advance h₂
  have hskip₁ := skipWhitespace_text hw ha (by rintro c ⟨⟩; decide) h₀
  have hskip₂ := skipWhitespace_text hw' ha' (by rintro c ⟨⟩; decide) h₂
  obtain ⟨i₂, hv, hskip₃⟩ := h depth _ x (by omega) hx (Input.rest_advance_one h₃)
  refine ⟨(i.advance (text w).length).advance (Token.string items).bytes.length, i₂,
    ?_, ?_, ?_, ?_, ?_⟩
  · rw [hskip₁, h₁]
    rfl
  · rw [hskip₁]
    exact parseString_text hitems h₁
  · rw [hskip₂, h₃]
    rfl
  · rw [hskip₂]
    exact hv
  · simp only [hskip₃, Input.advance_advance, text_append, text_cons, List.length_append,
      Nat.add_assoc]
    rfl

theorem lastElement (h : Parses underflow ts (.element v)) :
    Parses underflow ts (.elements [v]) := by
  intro depth fuel arr i x hdepth hfuel hrest
  obtain ⟨fuel, rfl⟩ := Nat.exists_eq_add_one_of_ne_zero (by omega : fuel ≠ 0)
  obtain ⟨i', hv, hskip⟩ := h depth i _ hdepth (ends_cons (by decide) x) hrest
  rw [parseArrayLoop, hv, Result.bind]
  dsimp only
  rw [hskip, Input.rest_advance hrest, ← Input.advance_advance]
  rfl

theorem elements (h : Parses underflow ts (.element v)) (h' : Parses underflow us (.elements l)) :
    Parses underflow (ts ++ .sym ',' :: us) (.elements (v :: l)) := by
  intro depth fuel arr i x hdepth hfuel hrest
  obtain ⟨fuel, rfl⟩ := Nat.exists_eq_add_one_of_ne_zero (by omega : fuel ≠ 0)
  simp only [List.length_append, List.length_cons] at hdepth hfuel
  have hrest' : i.rest = text ts ++ ','.toUInt8 :: (text us ++ ']'.toUInt8 :: x) := by
    rw [hrest, text_append, text_cons, List.append_assoc]
    rfl
  obtain ⟨i', hv, hskip⟩ := h depth i _ (by omega) (ends_cons (by decide) _) hrest'
  have hcomma := Input.rest_advance hrest'
  have hloop := h' depth fuel (arr ++ [v]) _ x (by omega) (by omega)
    (Input.rest_advance_one hcomma)
  rw [parseArrayLoop, hv, Result.bind]
  dsimp only
  rw [hskip, hcomma]
  refine hloop.trans ?_
  rw [List.append_assoc, List.singleton_append]
  simp only [Input.advance_advance, text_append, text_cons, List.length_append, Nat.add_assoc]
  rfl

theorem lastMember {y : List UInt8 × JsonValue} (h : Parses underflow ts (.member y)) :
    Parses underflow ts (.members [y]) := by
  intro depth fuel obj i x hdepth hfuel hrest
  obtain ⟨fuel, rfl⟩ := Nat.exists_eq_add_one_of_ne_zero (by omega : fuel ≠ 0)
  obtain ⟨i₁, i₂, hquote, hkey, hcolon, hv, hskip⟩ :=
    h depth i _ hdepth (ends_cons (by decide) x) hrest
  rw [parseObjectLoop]
  dsimp only
  rw [if_neg (not_not.2 hquote), hkey, Result.bind]
  rw [if_neg (not_not.2 hcolon), hv, Result.bind]
  rw [hskip, Input.rest_advance hrest, ← Input.advance_advance]
  rfl

theorem members {y : List UInt8 × JsonValue} (h : Parses underflow ts (.member y))
    (h' : Parses underflow us (.members l')) :
    Parses underflow (ts ++ .sym ',' :: us) (.members (y :: l')) := by
  intro depth fuel obj i x hdepth hfuel hrest
  obtain ⟨fuel, rfl⟩ := Nat.exists_eq_add_one_of_ne_zero (by omega : fuel ≠ 0)
  simp only [List.length_append, List.length_cons] at hdepth hfuel
  have hrest' : i.rest = text ts ++ ','.toUInt8 :: (text us ++ '}'.toUInt8 :: x) := by
    rw [hrest, text_append, text_cons, List.append_assoc]
    rfl
  obtain ⟨i₁, i₂, hquote, hkey, hcolon, hv, hskip⟩ :=
    h depth i _ (by omega) (ends_cons (by decide) _) hrest'
  have hcomma := Input.rest_advance hrest'
  have hloop := h' depth fuel (assign y.1 y.2 obj) _ x (by omega) (by omega)
    (Input.rest_advance_one hcomma)
  rw [parseObjectLoop]
  dsimp only
  rw [if_neg (not_not.2 hquote), hkey, Result.bind]
  rw [if_neg (not_not.2 hcolon), hv, Result.bind]
  rw [hskip, hcomma]
  refine hloop.trans ?_
  simp only [Input.advance_advance, text_append, text_cons, List.length_append, Nat.add_assoc]
  rfl

end Parses

/-- Each phrase in tokens that the parser takes is parsed. -/
theorem parses {p : Phrase} (h : Derives p ts) (ha : Accepts underflow ts) :
    Parses underflow ts p := by
  induction h with
  | null =>
    refine parses_value (List.cons_ne_nil _ _) (by rintro x c ⟨⟩; decide)
      fun depth i x _ _ h => ?_
    rw [text_singleton] at h ⊢
    rw [parseValue_null (by rw [h]; rfl), parseNull_text h, Result.bind]
    rfl
  | bool b =>
    refine parses_value (List.cons_ne_nil _ _) (by cases b <;> rintro x c ⟨⟩ <;> decide)
      fun depth i x _ _ h => ?_
    rw [text_singleton] at h ⊢
    rw [parseValue_bool b (by rw [h]; cases b <;> rfl), parseBool_text h, Result.bind]
    rfl
  | number s =>
    obtain ⟨⟨hs, hrange⟩, -⟩ := accepts_cons.1 ha
    exact .number hs hrange
  | string items =>
    refine parses_value (List.cons_ne_nil _ _) (by rintro x c ⟨⟩; decide)
      fun depth i x _ _ h => ?_
    rw [text_singleton] at h ⊢
    rw [parseValue_string (by rw [h]; rfl), parseString_text (accepts_cons.1 ha).1.1 h, Result.bind]
  | emptyArray hw =>
    refine parses_value (List.cons_ne_nil _ _) (by rintro x c ⟨⟩; decide)
      fun depth i x _ _ h => ?_
    rw [text_bracket] at h
    have hw' := (accepts_append.1 (accepts_cons.1 ha).2).1
    rw [parseValue_array (by rw [h]; rfl), parseArray_empty _ hw hw' h, Result.bind, length_bracket]
  | array _ ih =>
    have hts := (accepts_append.1 (accepts_cons.1 ha).2).1
    exact (ih hts).array hts
  | emptyObject hw =>
    refine parses_value (List.cons_ne_nil _ _) (by rintro x c ⟨⟩; decide)
      fun depth i x _ _ h => ?_
    rw [text_bracket] at h
    have hw' := (accepts_append.1 (accepts_cons.1 ha).2).1
    rw [parseValue_object (by rw [h]; rfl), parseObject_empty _ hw hw' h, Result.bind,
      length_bracket]
  | object _ ih =>
    have hts := (accepts_append.1 (accepts_cons.1 ha).2).1
    exact (ih hts).object hts
  | element hw _ hw' ih =>
    obtain ⟨ha₁, ha₂⟩ := accepts_append.1 ha
    obtain ⟨ha₂, ha₃⟩ := accepts_append.1 ha₂
    exact (ih ha₂).element hw ha₁ hw' ha₃
  | member hw hw' _ ih =>
    obtain ⟨ha₁, ha₂⟩ := accepts_append.1 ha
    obtain ⟨⟨hitems, -⟩, ha₂⟩ := accepts_cons.1 ha₂
    obtain ⟨ha₂, ha₃⟩ := accepts_append.1 ha₂
    exact .member hitems (ih (accepts_cons.1 ha₃).2) hw ha₁ hw' ha₂
  | lastElement _ ih => exact (ih ha).lastElement
  | elements _ _ ih ih' =>
    obtain ⟨ha₁, ha₂⟩ := accepts_append.1 ha
    exact (ih ha₁).elements (ih' (accepts_cons.1 ha₂).2)
  | lastMember _ ih => exact (ih ha).lastMember
  | members _ _ ih ih' =>
    obtain ⟨ha₁, ha₂⟩ := accepts_append.1 ha
    exact (ih ha₁).members (ih' (accepts_cons.1 ha₂).2)

/-- The text of a value, with white space around it, is read to its end. -/
theorem parseValue_whole {w w' : List Token} (h : Derives (.value v) ts) (hw : Spaces w)
    (hw' : Spaces w') (ha : Accepts underflow (w ++ (ts ++ w'))) {json : List UInt8}
    (hjson : text (w ++ (ts ++ w')) = json) :
    ∃ i, parseValue underflow (json.length + 1) ⟨0, json⟩ = .ok v i ∧
      (skipWhitespace i).rest = [] := by
  obtain ⟨ha₁, ha₂⟩ := accepts_append.1 ha
  obtain ⟨ha₂, ha₃⟩ := accepts_append.1 ha₂
  have hrest : (Input.mk 0 json).rest = text w ++ (text ts ++ text w') := by
    rw [← text_append, ← text_append, hjson]
  have hlength : ts.length ≤ json.length + 1 := by
    have hle := length_le_text ha
    rw [hjson, List.length_append, List.length_append] at hle
    omega
  have hx : ∀ c ∈ (text w').head?, ¬isNumberChar c := by
    simpa using head_spaces (x := []) hw' ha₃ fun c hc => absurd hc (Option.not_mem_none c)
  refine ⟨_, parses h ha₂ (json.length + 1) ⟨0, json⟩ w _ hlength hw ha₁ hx hrest, ?_⟩
  have hrest' : ((Input.mk 0 json).advance (text w ++ text ts).length).rest = text w' ++ [] := by
    rw [List.append_nil]
    exact Input.rest_advance (hrest.trans (List.append_assoc ..).symm)
  rw [skipWhitespace_text (x := []) hw' ha₃ (fun c hc => absurd hc (Option.not_mem_none c)) hrest']
  exact Input.rest_advance hrest'

/-- The bracket at the beginning of the text, behind white space. -/
theorem head_bracket {w us : List Token} {a : Char} (hw : Spaces w) (ha : Accepts underflow w)
    (hspace : ¬isspace a.toUInt8) {json : List UInt8} (hjson : text (w ++ .sym a :: us) = json) :
    (skipWhitespace ⟨0, json⟩).rest.head? = some a.toUInt8 := by
  have hrest : (Input.mk 0 json).rest = text w ++ a.toUInt8 :: text us := by
    rw [← hjson, text_append, text_cons]
    rfl
  rw [skipWhitespace_text hw ha (by rintro c ⟨⟩; exact hspace) hrest, Input.rest_advance hrest]
  rfl

/-- The text of an object or an array, in tokens that the parser takes, is parsed. -/
theorem parse_text {doc : JsonDocument} (h : Derives (.element doc.toValue) ts)
    (ha : Accepts underflow ts) : ∃ i, parse underflow (text ts) = .ok doc i := by
  cases h with
  | @element w v ts w' hw hts hw' =>
    obtain ⟨json, hjson⟩ : ∃ json, text (w ++ (ts ++ w')) = json := ⟨_, rfl⟩
    have haw := (accepts_append.1 ha).1
    obtain ⟨i', hvalue, hend⟩ := parseValue_whole hts hw hw' ha hjson
    rw [hjson, parse]
    refine ⟨skipWhitespace i', ?_⟩
    cases doc with
    | object obj =>
      obtain ⟨us, rfl⟩ : ∃ us, ts = .sym '{' :: us := by
        cases hts with
        | emptyObject => exact ⟨_, rfl⟩
        | object => exact ⟨_, rfl⟩
      have hc := head_bracket hw haw (by decide) hjson
      rw [parseValue_object hc] at hvalue
      obtain ⟨_, _, hobj, hok⟩ := Result.bind_eq_ok.1 hvalue
      cases hok
      dsimp only
      rw [hc]
      dsimp only
      rw [if_pos rfl, hobj, Result.bind, Result.bind]
      exact if_pos hend
    | array arr =>
      obtain ⟨us, rfl⟩ : ∃ us, ts = .sym '[' :: us := by
        cases hts with
        | emptyArray => exact ⟨_, rfl⟩
        | array => exact ⟨_, rfl⟩
      have hc := head_bracket hw haw (by decide) hjson
      rw [parseValue_array hc] at hvalue
      obtain ⟨_, _, harr, hok⟩ := Result.bind_eq_ok.1 hvalue
      cases hok
      dsimp only
      rw [hc]
      dsimp only
      rw [if_neg (by decide), if_pos rfl, harr, Result.bind, Result.bind]
      exact if_pos hend

end

end JsonParser

end EW8.Core

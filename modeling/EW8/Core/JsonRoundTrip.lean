import EW8.Core.JsonParserComplete
import EW8.Core.JsonSerializer

/-!
# Documents that are written and read

What the serializer writes for a document is a text of the grammar, as long as there is no character
to be written in hexadecimal digits; so it is read back as the same document. Of such a character
the parser leaves the digits as they are. And since no such character is in the text itself, nor is
what an escape sequence stands for, no document with one is read back.
-/

set_option maxRecDepth 8000

namespace EW8.Core

open Reader SortedMap JsonParser
open scoped SortedMap

/-- A value of JSON that is built from integers of less than 16 digits. -/
inductive Plain : JsonValue → Prop
  | null : Plain .null
  | bool (b : Bool) : Plain (.bool b)
  | int {n : ℤ} (hn : |n| < 10 ^ 15) : Plain (.double n)
  | string (s : List UInt8) : Plain (.string s)
  | array {l : JsonArray} (h : ∀ v ∈ l, Plain v) : Plain (.array l)
  | object {l : JsonObject} (hl : Sorted l) (h : ∀ x ∈ l, Plain x.2) : Plain (.object l)

/-- A character that is in a string or in a key of a value. -/
inductive Occurs (c : UInt8) : JsonValue → Prop
  | string {s : List UInt8} (h : c ∈ s) : Occurs c (.string s)
  | element {l : JsonArray} {v : JsonValue} (hv : v ∈ l) (h : Occurs c v) : Occurs c (.array l)
  | key {l : JsonObject} {x : List UInt8 × JsonValue} (hx : x ∈ l) (h : c ∈ x.1) :
    Occurs c (.object l)
  | member {l : JsonObject} {x : List UInt8 × JsonValue} (hx : x ∈ l) (h : Occurs c x.2) :
    Occurs c (.object l)

/-- A character that is not written in hexadecimal digits. -/
def IsWritable (c : UInt8) : Prop := 0x20 ≤ c.toNat ∨ c ∈ [8, 9, 10, 12, 13]

instance (c : UInt8) : Decidable (IsWritable c) := inferInstanceAs (Decidable (_ ∨ _))

/-! ## Numbers -/

theorem isdigit_digitChar {d : ℕ} (h : d < 10) : isdigit (digitChar d) := by
  interval_cases d <;> decide

theorem digitChar_toNat {d : ℕ} (h : d < 10) : (digitChar d).toNat = 48 + d := by
  interval_cases d <;> decide

theorem digitsValue_reverse {l : List ℕ} (h : ∀ d ∈ l, d < 10) :
    digitsValue (l.reverse.map digitChar) = Nat.ofDigits 10 l := by
  induction l with
  | nil => rfl
  | cons d l ih =>
    obtain ⟨hd, h⟩ := List.forall_mem_cons.1 h
    have hl := ih h
    rw [digitsValue] at hl ⊢
    rw [List.reverse_cons, List.map_append, List.foldl_append, hl, Nat.ofDigits_cons,
      List.map_singleton, List.foldl_cons, List.foldl_nil, digitChar_toNat hd]
    omega

theorem isDigits_natDigits (n : ℕ) : IsDigits (natDigits 10 n) := by
  rw [natDigits]
  split_ifs with hn
  · exact ⟨List.cons_ne_nil _ _, by decide⟩
  · refine ⟨?_, ?_⟩
    · simpa using Nat.digits_ne_nil_iff_ne_zero.2 hn
    · refine List.forall_mem_map.2 fun d hd => isdigit_digitChar ?_
      exact Nat.digits_lt_base (by norm_num) (List.mem_reverse.1 hd)

theorem digitsValue_natDigits (n : ℕ) : digitsValue (natDigits 10 n) = n := by
  rw [natDigits]
  split_ifs with hn
  · rw [hn]
    decide
  · rw [digitsValue_reverse fun d hd => Nat.digits_lt_base (by norm_num) hd, Nat.ofDigits_digits]

theorem isNumber_intDigits (n : ℤ) : IsNumber IsDigits (intDigits n) := by
  have hdigits := isDigits_natDigits n.natAbs
  rw [intDigits]
  split_ifs
  · refine ⟨chars "-", _, [], [], .inr rfl, hdigits, .inl rfl, .inl rfl, ?_⟩
    rw [List.append_nil, List.append_nil]
    rfl
  · refine ⟨[], _, [], [], .inl rfl, hdigits, .inl rfl, .inl rfl, ?_⟩
    rw [List.append_nil, List.append_nil, List.nil_append]

/-- The number with nothing but digits, and with a sign before them. -/
theorem decimalValue_of_isDigits {s : List UInt8} (hs : IsDigits s) :
    decimalValue s = digitsValue s ∧ decimalValue ('-'.toUInt8 :: s) = -digitsValue s := by
  have htake : s.takeWhile isdigit = s := List.takeWhile_eq_self_iff.2 hs.2
  have hdrop : s.dropWhile isdigit = [] := List.dropWhile_eq_nil_iff.2 hs.2
  have hhead : s.head? ≠ some '-'.toUInt8 := by
    intro h
    obtain ⟨s', rfl⟩ := List.head?_eq_some_iff.1 h
    exact (not_sign_of_isdigit (hs.2 _ List.mem_cons_self)).2 rfl
  constructor
  · rw [decimalValue]
    simp [hhead, htake, hdrop, exponentValue]
  · rw [decimalValue]
    simp [htake, hdrop, exponentValue]

theorem decimalValue_intDigits (n : ℤ) : decimalValue (intDigits n) = n := by
  obtain ⟨hpos, hneg⟩ := decimalValue_of_isDigits (isDigits_natDigits n.natAbs)
  rw [digitsValue_natDigits] at hpos hneg
  rw [intDigits]
  split_ifs with hn
  · rw [hneg, Nat.cast_natAbs, abs_of_neg hn, Int.cast_neg, neg_neg]
  · rw [hpos, Nat.cast_natAbs, abs_of_nonneg (not_lt.1 hn)]

namespace JsonSerializer

/-! ## Strings -/

theorem unescape_of_escape {c e : UInt8} (h : escape c = some e) : unescape e = some c := by
  unfold escape at h
  split_ifs at h <;> (obtain rfl := Option.some.inj h; subst_vars; decide)

theorem ne_of_escape {c : UInt8} (h : escape c = none) :
    c ≠ quote ∧ c ≠ backslash ∧ c ∉ [8, 9, 10, 12, 13] := by
  refine ⟨?_, ?_, fun hc => ?_⟩
  · rintro rfl
    exact absurd h (by decide)
  · rintro rfl
    exact absurd h (by decide)
  · have hall : ∀ c ∈ [8, 9, 10, 12, 13], escape c ≠ none := by decide
    exact hall c hc h

theorem writeChar_eq {c : UInt8} (hc : IsWritable c) (ss : Stream) :
    ∃ item : Item, item.Loose ∧ item.value = [c] ∧ writeChar ss c = ss.put item.bytes := by
  rw [writeChar]
  cases h : escape c with
  | some e =>
    have he := unescape_of_escape h
    refine ⟨.escape e, ?_, ?_, rfl⟩
    · rw [Item.Loose, he, Option.isSome_some]
    · rw [Item.value, he, Option.toList_some]
  | none =>
    obtain ⟨hquote, hbackslash, hmem⟩ := ne_of_escape h
    have hle : ¬c.toNat < 0x20 := not_lt.2 (hc.resolve_right hmem)
    exact ⟨.plain c, ⟨hquote, hbackslash⟩, rfl, if_neg hle⟩

theorem writeString_eq {str : List UInt8} (h : ∀ c ∈ str, IsWritable c) (ss : Stream) :
    ∃ s, IsString s str ∧ writeString ss str = ss.put s := by
  have hloop : ∀ ss, ∃ items : List Item, (∀ item ∈ items, item.Loose) ∧
      items.flatMap Item.value = str ∧ str.foldl writeChar ss = ss.put (items.flatMap Item.bytes) := by
    induction str with
    | nil => exact fun ss => ⟨[], fun _ h => absurd h List.not_mem_nil, rfl, by
        rw [List.flatMap_nil, Stream.put, List.append_nil]; rfl⟩
    | cons c str ih =>
      intro ss
      obtain ⟨hc, h⟩ := List.forall_mem_cons.1 h
      obtain ⟨item, hitem, hvalue, hput⟩ := writeChar_eq hc ss
      obtain ⟨items, hitems, hvalues, hputs⟩ := ih h (ss.put item.bytes)
      refine ⟨item :: items, List.forall_mem_cons.2 ⟨hitem, hitems⟩, ?_, ?_⟩
      · rw [List.flatMap_cons, hvalue, hvalues, List.singleton_append]
      · rw [List.foldl_cons, hput, hputs, Stream.put_put, List.flatMap_cons]
  obtain ⟨items, hitems, hvalues, hputs⟩ := hloop (ss.put [quote])
  refine ⟨_, ⟨items, hitems, rfl, hvalues.symm⟩, ?_⟩
  rw [writeString, hputs, Stream.put_put, Stream.put_put]
  rfl

/-! ## White space -/

variable {underflow : ℚ → Bool} {compact : Bool} {formatDouble : ℚ → List UInt8} {ss : Stream}
  {indent : ℕ}

theorem exists_spaces (underflow : ℚ → Bool) {s : List UInt8} (h : ∀ c ∈ s, isspace c) :
    ∃ w, Spaces w ∧ Accepts underflow w ∧ text w = s :=
  ⟨s.map .space, List.forall_mem_map.2 fun _ _ => rfl,
    List.forall_mem_map.2 fun c hc => ⟨h c hc, trivial⟩, text_spaces s⟩

theorem put_nil (ss : Stream) : ss.put [] = ss := by
  rw [Stream.put, List.append_nil]

theorem writeLine_eq (ss : Stream) :
    ∃ w, Spaces w ∧ Accepts underflow w ∧ writeLine compact ss = ss.put (text w) := by
  rw [writeLine]
  split_ifs
  · exact ⟨[], .nil, accepts_nil, (put_nil ss).symm⟩
  · obtain ⟨w, hw, hw', htext⟩ := exists_spaces underflow (s := chars "\n") (by decide)
    exact ⟨w, hw, hw', by rw [htext]⟩

theorem writeBegin_eq (ss : Stream) (indent : ℕ) :
    ∃ w, Spaces w ∧ Accepts underflow w ∧ writeBegin compact ss indent = ss.put (text w) := by
  rw [writeBegin]
  split_ifs
  · exact ⟨[], .nil, accepts_nil, (put_nil ss).symm⟩
  · have hspace : ∀ c ∈ (List.replicate indent (chars "  ")).flatten, isspace c := by
      intro c hc
      obtain ⟨s, hs, hc⟩ := List.mem_flatten.1 hc
      obtain rfl := List.eq_of_mem_replicate hs
      have hall : ∀ c ∈ chars "  ", isspace c := by decide
      exact hall c hc
    obtain ⟨w, hw, hw', htext⟩ := exists_spaces underflow hspace
    exact ⟨w, hw, hw', by rw [htext, writeIndent]⟩

/-! ## Values -/

variable {p q : Phrase} {l : JsonArray} {l' : JsonObject} {s : List UInt8}

/-- What is written for `v` is a text of the grammar for `v`. -/
def WritesText (underflow : ℚ → Bool) (compact : Bool) (formatDouble : ℚ → List UInt8)
    (v : JsonValue) : Prop :=
  ∀ (ss : Stream) (indent : ℕ), ss.hex = false → ∃ s, IsText underflow (.value v) s ∧
    writeValue compact formatDouble ss indent v = ss.put s

theorem writeComma_hex (ss : Stream) (first : Bool) :
    (writeComma compact ss first).hex = ss.hex := by
  rw [writeComma, writeLine]
  split_ifs <;> rfl

theorem writeComma_eq (ss : Stream) : ∃ w, Spaces w ∧ Accepts underflow w ∧
    writeComma compact ss false = ss.put ([','.toUInt8] ++ text w) := by
  obtain ⟨w, hw, hw', hline⟩ := @writeLine_eq underflow compact (ss.put (chars ","))
  exact ⟨w, hw, hw', hline.trans (ss.put_put _ _)⟩

/-- White space before a phrase, or behind it. -/
theorem isText_spaces {w : List Token} (hd : ∀ {ts}, Derives p ts → Derives p (w ++ ts))
    (hw' : Accepts underflow w) (h : IsText underflow p s) :
    IsText underflow p (text w ++ s) := by
  obtain ⟨ts, hts, hts', rfl⟩ := h
  exact ⟨_, hd hts, accepts_append.2 ⟨hw', hts'⟩, text_append.symm⟩

theorem isText_append_spaces {w : List Token} (hd : ∀ {ts}, Derives p ts → Derives p (ts ++ w))
    (hw' : Accepts underflow w) (h : IsText underflow p s) :
    IsText underflow p (s ++ text w) := by
  obtain ⟨ts, hts, hts', rfl⟩ := h
  exact ⟨_, hd hts, accepts_append.2 ⟨hts', hw'⟩, text_append.symm⟩

theorem isText_element {v : JsonValue} (h : IsText underflow (.value v) s) :
    IsText underflow (.element v) s := by
  obtain ⟨ts, hts, h⟩ := h
  exact ⟨ts, hts.value_element, h⟩

/-- Elements, one after the other. -/
theorem writes_elements (hne : l ≠ [])
    (h : ∀ v ∈ l, WritesText underflow compact formatDouble v) (indent : ℕ) (first : Bool)
    (hss : ss.hex = false) :
    ∃ s, IsText underflow (.elements l) s ∧
      writeElements compact formatDouble ss indent first l = (writeComma compact ss first).put s := by
  induction l generalizing ss first with
  | nil => exact absurd rfl hne
  | cons v l ih =>
    obtain ⟨hv, h⟩ := List.forall_mem_cons.1 h
    have hcomma := (@writeComma_hex compact ss first).trans hss
    obtain ⟨w, hw, hw', hbegin⟩ :=
      @writeBegin_eq underflow compact (writeComma compact ss first) indent
    obtain ⟨s, hs, hvalue⟩ := hv ((writeComma compact ss first).put (text w)) indent hcomma
    obtain ⟨ts, hts, hts'⟩ := isText_spaces (fun h => h.spaces_element hw) hw' (isText_element hs)
    rw [writeElements, hbegin, hvalue, Stream.put_put]
    cases l with
    | nil => exact ⟨_, ⟨ts, .lastElement hts, hts'⟩, rfl⟩
    | cons v' l =>
      obtain ⟨s', hs', hrest⟩ :=
        @ih ((writeComma compact ss first).put (text w ++ s)) (List.cons_ne_nil _ _) h false hcomma
      obtain ⟨w₂, hw₂, hw₂', hline⟩ :=
        @writeComma_eq underflow compact ((writeComma compact ss first).put (text w ++ s))
      refine ⟨_, .comma .elements ⟨ts, hts, hts'⟩
        (isText_spaces (fun h => h.spaces_elements hw₂) hw₂' hs'), ?_⟩
      rw [hrest, hline, Stream.put_put, Stream.put_put]
      simp only [List.append_assoc]

/-- What is written between a key and a value. -/
theorem writeColon_eq : ∃ w, Spaces w ∧ Accepts underflow w ∧
    (if compact then chars ":" else chars ": ") = [':'.toUInt8] ++ text w := by
  split_ifs
  · exact ⟨[], .nil, accepts_nil, rfl⟩
  · obtain ⟨w, hw, hw', htext⟩ := exists_spaces underflow (s := chars " ") (by decide)
    exact ⟨w, hw, hw', by rw [htext]; rfl⟩

/-- Members, one after the other. -/
theorem writes_members (hne : l' ≠ [])
    (h : ∀ x ∈ l', WritesText underflow compact formatDouble x.2)
    (hkey : ∀ x ∈ l', ∀ c ∈ x.1, IsWritable c) (indent : ℕ) (first : Bool)
    (hss : ss.hex = false) :
    ∃ s, IsText underflow (.members l') s ∧
      writeMembers compact formatDouble ss indent first l' = (writeComma compact ss first).put s := by
  induction l' generalizing ss first with
  | nil => exact absurd rfl hne
  | cons x l ih =>
    obtain ⟨key, v⟩ := x
    obtain ⟨hv, h⟩ := List.forall_mem_cons.1 h
    obtain ⟨hx, hkey⟩ := List.forall_mem_cons.1 hkey
    have hcomma := (@writeComma_hex compact ss first).trans hss
    obtain ⟨w, hw, hw', hbegin⟩ :=
      @writeBegin_eq underflow compact (writeComma compact ss first) indent
    obtain ⟨str, hstr, hstring⟩ := writeString_eq hx ((writeComma compact ss first).put (text w))
    obtain ⟨w₁, hw₁, hw₁', hcolon⟩ := @writeColon_eq underflow compact
    obtain ⟨s, hs, hvalue⟩ : ∃ s, IsText underflow (.value v) s ∧ _ := hv
      ((((writeComma compact ss first).put (text w)).put str).put ([':'.toUInt8] ++ text w₁)) indent
      hcomma
    obtain ⟨ts, hts, hts'⟩ := hstr.member hw hw' .nil accepts_nil
      (isText_spaces (fun h => h.spaces_element hw₁) hw₁' (isText_element hs))
    obtain ⟨t, ht⟩ : ∃ t, text w ++ (str ++ (text [] ++ ([':'.toUInt8] ++ (text w₁ ++ s)))) = t :=
      ⟨_, rfl⟩
    have hput : ((((writeComma compact ss first).put (text w)).put str).put
        ([':'.toUInt8] ++ text w₁)).put s = (writeComma compact ss first).put t := by
      rw [← ht]
      simp only [Stream.put_put, List.append_assoc, text_nil, List.nil_append]
    rw [ht] at hts'
    rw [writeMembers, hbegin, hstring, hcolon, hvalue, hput]
    cases l with
    | nil => exact ⟨_, ⟨ts, .lastMember hts, hts'⟩, rfl⟩
    | cons x l =>
      obtain ⟨s', hs', hrest⟩ :=
        @ih ((writeComma compact ss first).put t) (List.cons_ne_nil _ _) h hkey false hcomma
      obtain ⟨w₂, hw₂, hw₂', hline⟩ :=
        @writeComma_eq underflow compact ((writeComma compact ss first).put t)
      refine ⟨_, .comma .members ⟨ts, hts, hts'⟩
        (isText_spaces (fun h => h.spaces_members hw₂) hw₂' hs'), ?_⟩
      rw [hrest, hline, Stream.put_put, Stream.put_put]
      simp only [List.append_assoc]

theorem writeBrackets_eq (a b : Char) {body : Stream → ℕ → Stream} {P : List UInt8 → Prop}
    (hbody : ∀ ss indent, ss.hex = false → ∃ s, P s ∧ body ss indent = ss.put s)
    (hss : ss.hex = false) (indent : ℕ) :
    ∃ w s w', (Spaces w ∧ Accepts underflow w) ∧ P s ∧ (Spaces w' ∧ Accepts underflow w') ∧
      writeBrackets compact a b ss indent body =
        ss.put ([a.toUInt8] ++ text w ++ (s ++ text w' ++ [b.toUInt8])) := by
  obtain ⟨w, hw, hw', hline⟩ := @writeLine_eq underflow compact (ss.put [a.toUInt8])
  obtain ⟨s, hs, hput⟩ := hbody ((ss.put [a.toUInt8]).put (text w))
    (if compact then indent else indent + 1) hss
  obtain ⟨w₁, hw₁, hw₁', hline'⟩ :=
    @writeLine_eq underflow compact (((ss.put [a.toUInt8]).put (text w)).put s)
  obtain ⟨w₂, hw₂, hw₂', hbegin⟩ := @writeBegin_eq underflow compact
    ((((ss.put [a.toUInt8]).put (text w)).put s).put (text w₁)) indent
  refine ⟨w, s, w₁ ++ w₂, ⟨hw, hw'⟩, hs, ⟨hw₁.append hw₂, accepts_append.2 ⟨hw₁', hw₂'⟩⟩, ?_⟩
  rw [writeBrackets, hline, hput, hline', hbegin]
  simp only [Stream.put_put, text_append, List.append_assoc]

theorem writesText_array (h : ∀ v ∈ l, WritesText underflow compact formatDouble v) :
    WritesText underflow compact formatDouble (.array l) := by
  intro ss indent hss
  rw [writeValue]
  cases l with
  | nil =>
    obtain ⟨w, s, w', ⟨hw, ha⟩, rfl, ⟨hw', ha'⟩, heq⟩ := @writeBrackets_eq underflow
      compact ss '[' ']' _ (· = []) (fun ss indent _ => ⟨[], rfl, (put_nil ss).symm⟩) hss indent
    refine ⟨_, .emptyBracket (by decide) (by decide) (.emptyArray (hw.append hw'))
      (accepts_append.2 ⟨ha, ha'⟩), heq.trans ?_⟩
    simp only [text_append, List.append_assoc, List.nil_append]
  | cons v l =>
    obtain ⟨w, s, w', ⟨hw, ha⟩, hs, ⟨hw', ha'⟩, heq⟩ := @writeBrackets_eq _ compact ss '[' ']' _ _
      (fun ss indent hss => writes_elements (List.cons_ne_nil v l) h indent true hss) hss indent
    exact ⟨_, .bracket (by decide) (by decide) .array (fun h => h.spaces_elements hw) ha
      (isText_append_spaces (fun h => h.elements_spaces hw') ha' hs), heq⟩

theorem writesText_object (hl : Sorted l')
    (h : ∀ x ∈ l', WritesText underflow compact formatDouble x.2)
    (hkey : ∀ x ∈ l', ∀ c ∈ x.1, IsWritable c) :
    WritesText underflow compact formatDouble (.object l') := by
  intro ss indent hss
  rw [writeValue]
  cases l' with
  | nil =>
    obtain ⟨w, s, w', ⟨hw, ha⟩, rfl, ⟨hw', ha'⟩, heq⟩ := @writeBrackets_eq underflow
      compact ss '{' '}' _ (· = []) (fun ss indent _ => ⟨[], rfl, (put_nil ss).symm⟩) hss indent
    refine ⟨_, .emptyBracket (by decide) (by decide) (.emptyObject (hw.append hw'))
      (accepts_append.2 ⟨ha, ha'⟩), heq.trans ?_⟩
    simp only [text_append, List.append_assoc, List.nil_append]
  | cons x l =>
    obtain ⟨w, s, w', ⟨hw, ha⟩, hs, ⟨hw', ha'⟩, heq⟩ := @writeBrackets_eq _ compact ss '{' '}' _ _
      (fun ss indent hss => writes_members (List.cons_ne_nil x l) h hkey indent true hss) hss indent
    have hsorted : assignAll [] (x :: l) = x :: l := assignAll_of_sorted hl
    have htext : IsText underflow (.value (.object (assignAll [] (x :: l)))) _ :=
      .bracket (by decide) (by decide) .object (fun h => h.spaces_members hw) ha
        (isText_append_spaces (fun h => h.members_spaces hw') ha' hs)
    exact ⟨_, hsorted ▸ htext, heq⟩

/-- A value without characters to be written in hexadecimal digits. -/
theorem writesText {v : JsonValue} (hv : Plain v) (h : ∀ c, Occurs c v → IsWritable c) :
    WritesText underflow compact formatDouble v := by
  induction hv with
  | null =>
    intro ss indent _
    have hnull : chars "null" ∈ [chars "true", chars "false", chars "null"] := by decide
    exact ⟨_, isText_token .null hnull trivial, by rw [writeValue]; rfl⟩
  | bool b =>
    intro ss indent _
    have hb : ∀ b : Bool, chars (if b then "true" else "false") ∈
        [chars "true", chars "false", chars "null"] := by decide
    exact ⟨_, isText_token (.bool b) (hb b) trivial, by rw [writeValue]; rfl⟩
  | @int n hn =>
    intro ss indent hss
    have hlt : |n| < 2 ^ 53 := hn.trans (by norm_num)
    have hvalue := decimalValue_intDigits n
    have hrange : InRange underflow (intDigits n) := inRange_of_int hvalue hlt
    have htext := isText_token (.number (intDigits n)) (isNumber_intDigits n) hrange
    rw [doubleValue_of_int hvalue hlt] at htext
    refine ⟨_, htext, ?_⟩
    have habs : |(n : ℚ)| < 10 ^ 15 := by exact_mod_cast hn
    rw [writeValue, Int.floor_intCast, if_pos ⟨rfl, habs⟩, Stream.putInt, hss]
    rfl
  | string s =>
    intro ss indent _
    obtain ⟨_, ⟨items, hitems, rfl, rfl⟩, hput⟩ := writeString_eq (fun c hc => h c (.string hc)) ss
    exact ⟨_, isText_token (.string items) hitems trivial, by rw [writeValue, hput]⟩
  | array _ ih => exact writesText_array fun v hv => ih v hv fun c hc => h c (.element hv hc)
  | object hl _ ih =>
    exact writesText_object hl (fun x hx => ih x hx fun c hc => h c (.member hx hc))
      fun x hx c hc => h c (.key hx hc)

/-! ## The characters of the text -/

/-- There is no control character but for line ends. -/
def IsPrintable (s : List UInt8) : Prop := ∀ c ∈ s, 0x20 ≤ c.toNat ∨ c = 10

instance (s : List UInt8) : Decidable (IsPrintable s) := inferInstanceAs (Decidable (∀ c ∈ s, _))

/-- What is written of every document. -/
theorem isPrintable_literals : ∀ s ∈ [chars "null", chars "true", chars "false", chars ",", chars ":",
    chars ": ", chars "\n", chars "  ", chars "-", chars "\\u", [quote], [backslash]],
    IsPrintable s := by
  decide

theorem IsPrintable.put {s : List UInt8} (h : IsPrintable ss.out) (hs : IsPrintable s) :
    IsPrintable (ss.put s).out :=
  List.forall_mem_append.2 ⟨h, hs⟩

theorem isPrintable_natDigits {base : ℕ} (hbase : 1 < base) (hle : base ≤ 16) (n : ℕ) :
    IsPrintable (natDigits base n) := by
  have hdigit : ∀ d < 16, 0x20 ≤ (digitChar d).toNat := by decide
  rw [natDigits]
  split_ifs
  · exact List.forall_mem_singleton.2 (.inl (hdigit 0 (by norm_num)))
  · refine List.forall_mem_map.2 fun d hd => .inl (hdigit d ?_)
    exact (Nat.digits_lt_base hbase (List.mem_reverse.1 hd)).trans_le hle

theorem isPrintable_intDigits (n : ℤ) : IsPrintable (intDigits n) := by
  have hdigits := isPrintable_natDigits (by norm_num : 1 < 10) (by norm_num) n.natAbs
  rw [intDigits]
  split_ifs
  · exact List.forall_mem_append.2 ⟨isPrintable_literals (chars "-") (by simp), hdigits⟩
  · exact hdigits

theorem isPrintable_writeString (h : IsPrintable ss.out) (str : List UInt8) :
    IsPrintable (writeString ss str).out := by
  have hquote : IsPrintable [quote] := isPrintable_literals _ (by simp)
  have hchar : ∀ (ss : Stream) (c : UInt8),
      IsPrintable ss.out → IsPrintable (writeChar ss c).out := by
    intro ss c h
    rw [writeChar]
    cases he : escape c with
    | some e =>
      have hle : 0x20 ≤ e.toNat := by
        unfold escape at he
        split_ifs at he <;> (obtain rfl := Option.some.inj he; decide)
      exact h.put (List.forall_mem_append.2
        ⟨isPrintable_literals [backslash] (by simp), List.forall_mem_singleton.2 (.inl hle)⟩)
    | none =>
      dsimp only
      split_ifs with hlt
      · have hu : IsPrintable (chars "\\u") := isPrintable_literals _ (by simp)
        have hdigits := isPrintable_natDigits (by norm_num : 1 < 16) le_rfl
        refine List.forall_mem_append.2
          ⟨h.put hu, List.forall_mem_append.2 ⟨fun d hd => ?_, hdigits _⟩⟩
        rw [List.eq_of_mem_replicate hd]
        exact hdigits 0 _ List.mem_cons_self
      · exact h.put (List.forall_mem_singleton.2 (.inl (not_lt.1 hlt)))
  have hfold : ∀ ss : Stream, IsPrintable ss.out → IsPrintable (str.foldl writeChar ss).out := by
    induction str with
    | nil => exact fun ss h => h
    | cons c str ih => exact fun ss h => ih _ (hchar ss c h)
  exact (hfold _ (h.put hquote)).put hquote

theorem isPrintable_writeLine (h : IsPrintable ss.out) :
    IsPrintable (writeLine compact ss).out := by
  rw [writeLine]
  split_ifs
  · exact h
  · exact h.put (isPrintable_literals _ (by simp))

theorem isPrintable_writeComma (h : IsPrintable ss.out) (first : Bool) :
    IsPrintable (writeComma compact ss first).out := by
  rw [writeComma]
  split_ifs
  · exact h
  · exact isPrintable_writeLine (h.put (isPrintable_literals _ (by simp)))

theorem isPrintable_writeBegin (h : IsPrintable ss.out) (indent : ℕ) :
    IsPrintable (writeBegin compact ss indent).out := by
  rw [writeBegin]
  split_ifs
  · exact h
  · refine h.put fun c hc => ?_
    obtain ⟨s, hs, hc⟩ := List.mem_flatten.1 hc
    obtain rfl := List.eq_of_mem_replicate hs
    exact isPrintable_literals (chars "  ") (by simp) c hc

theorem isPrintable_writeBrackets {a b : Char} (ha : 0x20 ≤ a.toUInt8.toNat)
    (hb : 0x20 ≤ b.toUInt8.toNat) {body : Stream → ℕ → Stream}
    (hbody : ∀ ss indent, IsPrintable ss.out → IsPrintable (body ss indent).out)
    (h : IsPrintable ss.out) (indent : ℕ) :
    IsPrintable (writeBrackets compact a b ss indent body).out := by
  have hopen := h.put (List.forall_mem_singleton.2 (.inl ha))
  have hinner := hbody _ (if compact then indent else indent + 1)
    (@isPrintable_writeLine compact _ hopen)
  exact (isPrintable_writeBegin (isPrintable_writeLine hinner) indent).put
    (List.forall_mem_singleton.2 (.inl hb))

/-- The elements of an array, and the members of an object. -/
theorem isPrintable_writeElements
    (h : ∀ v ∈ l, ∀ ss indent, IsPrintable ss.out →
      IsPrintable (writeValue compact formatDouble ss indent v).out)
    (first : Bool) (hss : IsPrintable ss.out) :
    IsPrintable (writeElements compact formatDouble ss indent first l).out := by
  induction l generalizing ss first with
  | nil => exact hss
  | cons v l ih =>
    obtain ⟨hv, h⟩ := List.forall_mem_cons.1 h
    rw [writeElements]
    exact ih h _ (hv _ _ (isPrintable_writeBegin (isPrintable_writeComma hss first) indent))

theorem isPrintable_writeMembers
    (h : ∀ x ∈ l', ∀ ss indent, IsPrintable ss.out →
      IsPrintable (writeValue compact formatDouble ss indent x.2).out)
    (first : Bool) (hss : IsPrintable ss.out) :
    IsPrintable (writeMembers compact formatDouble ss indent first l').out := by
  induction l' generalizing ss first with
  | nil => exact hss
  | cons x l ih =>
    obtain ⟨key, v⟩ := x
    obtain ⟨hv, h⟩ := List.forall_mem_cons.1 h
    have hbegin :=
      @isPrintable_writeBegin compact _ (@isPrintable_writeComma compact ss hss first) indent
    have hcolon : IsPrintable (if compact then chars ":" else chars ": ") := by
      split_ifs <;> exact isPrintable_literals _ (by simp)
    rw [writeMembers]
    exact ih h _ (hv _ _ ((isPrintable_writeString hbegin key).put hcolon))

/-- What is written for a value is printable, whatever its strings are. -/
theorem isPrintable_writeValue {v : JsonValue} (hv : Plain v) (indent : ℕ)
    (hss : IsPrintable ss.out) :
    IsPrintable (writeValue compact formatDouble ss indent v).out := by
  induction hv generalizing ss indent with
  | null =>
    rw [writeValue]
    exact hss.put (isPrintable_literals _ (by simp))
  | bool b =>
    rw [writeValue]
    exact hss.put (isPrintable_literals _ (by cases b <;> simp))
  | @int n hn =>
    have habs : |(n : ℚ)| < 10 ^ 15 := by exact_mod_cast hn
    rw [writeValue, Int.floor_intCast, if_pos ⟨rfl, habs⟩, Stream.putInt]
    refine hss.put ?_
    split_ifs
    · exact isPrintable_natDigits (by norm_num) le_rfl _
    · exact isPrintable_intDigits n
  | string s =>
    rw [writeValue]
    exact isPrintable_writeString hss s
  | array _ ih =>
    rw [writeValue]
    exact isPrintable_writeBrackets (by decide) (by decide)
      (fun ss indent hss => isPrintable_writeElements (fun v hv _ _ => ih v hv _) true hss)
      hss indent
  | object _ _ ih =>
    rw [writeValue]
    exact isPrintable_writeBrackets (by decide) (by decide)
      (fun ss indent hss => isPrintable_writeMembers (fun x hx _ _ => ih x hx _) true hss)
      hss indent

end JsonSerializer

/-! ## The characters of a document -/

/-- A character of what is read as the phrase. -/
def OccursIn (c : UInt8) : Phrase → Prop
  | .value v => Occurs c v
  | .element v => Occurs c v
  | .member x => c ∈ x.1 ∨ Occurs c x.2
  | .elements l => ∃ v ∈ l, Occurs c v
  | .members l => ∃ x ∈ l, c ∈ x.1 ∨ Occurs c x.2

theorem mem_value_items {items : List Item} {c : UInt8} (h : c ∈ items.flatMap Item.value) :
    c ∈ (Token.string items).bytes ∨ ∃ e, unescape e = some c := by
  obtain ⟨item, hitem, hc⟩ := List.mem_flatMap.1 h
  have hraw : c ∈ item.bytes → c ∈ (Token.string items).bytes := fun hc =>
    List.mem_cons_of_mem _ (List.mem_append_left _ (List.mem_flatMap.2 ⟨item, hitem, hc⟩))
  cases item with
  | plain d => exact .inl (hraw hc)
  | escape d => exact .inr ⟨d, Option.mem_toList.1 hc⟩
  | unicode x y z w => exact .inl (hraw hc)

theorem text_subset {us ts : List Token} (h : us ⊆ ts) : text us ⊆ text ts := fun _ hc =>
  let ⟨t, ht, hc⟩ := List.mem_flatMap.1 hc
  List.mem_flatMap.2 ⟨t, h ht, hc⟩

/-- Each character of what is read is in the text, or an escape sequence stands for it. -/
theorem Derives.occurs {p : Phrase} {ts : List Token} {c : UInt8} (h : Derives p ts)
    (hc : OccursIn c p) : c ∈ text ts ∨ ∃ e, unescape e = some c := by
  induction h with
  | null => cases hc
  | bool b => cases hc
  | number s => cases hc
  | string items =>
    cases hc with
    | string h => simpa [text_singleton] using mem_value_items h
  | emptyArray hw =>
    cases hc with
    | element hv _ => exact absurd hv List.not_mem_nil
  | array _ ih =>
    cases hc with
    | element hv h =>
      exact (ih ⟨_, hv, h⟩).imp_left fun hmem => text_subset (by simp) hmem
  | emptyObject hw =>
    cases hc with
    | key hx _ => exact absurd hx List.not_mem_nil
    | member hx _ => exact absurd hx List.not_mem_nil
  | @object l ts _ ih =>
    have hall : ∃ x ∈ l, c ∈ x.1 ∨ Occurs c x.2 := by
      cases hc with
      | key hx h => exact ⟨_, (mem_of_mem_assignAll hx).resolve_left List.not_mem_nil, .inl h⟩
      | member hx h => exact ⟨_, (mem_of_mem_assignAll hx).resolve_left List.not_mem_nil, .inr h⟩
    exact (ih hall).imp_left fun hmem => text_subset (by simp) hmem
  | element _ _ _ ih => exact (ih hc).imp_left fun hmem => text_subset (by simp) hmem
  | @member w items w' v ts _ _ _ ih =>
    rcases hc with hc | hc
    · refine (mem_value_items hc).imp_left fun hmem => ?_
      rw [← text_singleton] at hmem
      exact text_subset (by simp) hmem
    · exact (ih hc).imp_left fun hmem => text_subset (fun _ ht => by simp [ht]) hmem
  | lastElement _ ih =>
    obtain ⟨v, hv, hc⟩ := hc
    obtain rfl := List.mem_singleton.1 hv
    exact ih hc
  | elements _ _ ih ih' =>
    obtain ⟨v, hv, hc⟩ := hc
    rcases List.mem_cons.1 hv with rfl | hv
    · exact (ih hc).imp_left fun hmem => text_subset (by simp) hmem
    · exact (ih' ⟨v, hv, hc⟩).imp_left fun hmem => text_subset (by simp) hmem
  | lastMember _ ih =>
    obtain ⟨x, hx, hc⟩ := hc
    obtain rfl := List.mem_singleton.1 hx
    exact ih hc
  | members _ _ ih ih' =>
    obtain ⟨x, hx, hc⟩ := hc
    rcases List.mem_cons.1 hx with rfl | hx
    · exact (ih hc).imp_left fun hmem => text_subset (by simp) hmem
    · exact (ih' ⟨x, hx, hc⟩).imp_left fun hmem => text_subset (by simp) hmem

/-! ## Documents -/

section

variable {underflow : ℚ → Bool} {formatDouble : ℚ → List UInt8} {doc : JsonDocument}

/-- What is written for a document is what is written for its object or array. -/
theorem toJson_eq (compact : Bool) : doc.toJson formatDouble compact =
    (JsonSerializer.writeValue compact formatDouble ⟨[], false⟩ 0 doc.toValue).out := by
  cases doc <;> rfl

/-- What is written for a character that an escape sequence stands for. -/
theorem isWritable_of_unescape {c e : UInt8} (h : unescape e = some c) : IsWritable c := by
  have hall : ∀ c ∈ [quote, backslash, '/'.toUInt8, 8, 12, 10, 13, 9], 0x20 ≤ c.toNat ∨
      c ∈ [8, 9, 10, 12, 13] := by decide
  refine hall c ?_
  unfold unescape at h
  split_ifs at h <;> (obtain rfl := Option.some.inj h; decide)

/-- A document is read back just if none of its characters is written in hexadecimal digits. -/
theorem fromJson_toJson_iff (hdoc : Plain doc.toValue) (compact : Bool) :
    JsonDocument.fromJson underflow (doc.toJson formatDouble compact) = doc ↔
      ∀ c, Occurs c doc.toValue → IsWritable c := by
  rw [toJson_eq]
  constructor
  · intro h c hc
    rw [JsonDocument.fromJson] at h
    have hreads := @parse_reads underflow
      (JsonSerializer.writeValue compact formatDouble ⟨[], false⟩ 0 doc.toValue).out
    have hprintable := @JsonSerializer.isPrintable_writeValue compact formatDouble ⟨[], false⟩ _
      hdoc 0 fun c hc => absurd hc List.not_mem_nil
    split at h
    · next doc' i hok =>
      subst h
      rw [hok] at hreads
      cases hreads with
      | ok _ hp =>
        obtain ⟨rfl, ts, hts, -, htext⟩ := hp
        rcases hts.occurs hc with hmem | ⟨e, he⟩
        · rw [← htext] at hmem
          refine (hprintable c hmem).imp_right ?_
          rintro rfl
          decide
        · exact isWritable_of_unescape he
    · subst h
      cases hc with
      | key hx _ => exact absurd hx List.not_mem_nil
      | member hx _ => exact absurd hx List.not_mem_nil
  · intro h
    obtain ⟨s, ⟨ts, hts, hts', rfl⟩, hput⟩ :=
      @JsonSerializer.writesText underflow compact formatDouble _ hdoc h ⟨[], false⟩ 0 rfl
    obtain ⟨i, hok⟩ := parse_text hts.value_element hts'
    rw [hput, Stream.put_out, List.nil_append, JsonDocument.fromJson, hok]

/-- A string with a quote and the end of a line, and a negative number. -/
theorem fromJson_toJson_line :
    JsonDocument.fromJson (fun _ => true) (JsonDocument.toJson (fun _ => []) false
      (.array [.string (chars "\"a\n"), .double (-3 : ℤ)])) =
        .array [.string (chars "\"a\n"), .double (-3 : ℤ)] := by
  have hplain : Plain (JsonDocument.array [.string (chars "\"a\n"), .double (-3 : ℤ)]).toValue :=
    .array (List.forall_mem_cons.2 ⟨.string _, List.forall_mem_singleton.2 (.int (by norm_num))⟩)
  refine (fromJson_toJson_iff hplain false).2 fun c hc => ?_
  have hall : ∀ c ∈ chars "\"a\n", IsWritable c := by decide +kernel
  cases hc with
  | element hv h =>
    rcases List.mem_cons.1 hv with rfl | hv
    · cases h with
      | string h => exact hall c h
    · obtain rfl := List.mem_singleton.1 hv
      cases h

/-- A control character is read back as the escape sequence that has been written for it. -/
theorem fromJson_toJson_fails_of_control :
    JsonDocument.fromJson (fun _ => true)
      (JsonDocument.toJson (fun _ => []) true (.array [.string [1]])) ≠ .array [.string [1]] := by
  have hread : JsonDocument.fromJson (fun _ => true)
      (JsonDocument.toJson (fun _ => []) true (.array [.string [1]])) =
        .array [.string (chars "\\u0001")] := rfl
  rw [hread]
  intro h
  have hstring := JsonValue.string.inj (List.cons.inj (JsonDocument.array.inj h)).1
  exact absurd hstring (by decide)

end

end EW8.Core

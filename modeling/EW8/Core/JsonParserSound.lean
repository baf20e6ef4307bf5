import EW8.Core.JsonGrammar

/-!
# What the parser takes

The parser always comes to an end, within the text; and if it succeeds, what it has read is a phrase
of the grammar, and what it has found is what this phrase means (`parse_reads`). There is a lemma for
each of its functions, about what is between the places where the function begins and ends.
-/

namespace EW8.Core

open Reader SortedMap
open scoped SortedMap

/-- Tokens that the parser takes. -/
def Accepts (underflow : ℚ → Bool) (ts : List Token) : Prop :=
  ∀ t ∈ ts, t.Loose ∧ t.InRange underflow

section

variable {underflow : ℚ → Bool} {t : Token} {ts us : List Token} {s s' : List UInt8}

theorem accepts_nil : Accepts underflow [] := fun _ ht => absurd ht List.not_mem_nil

theorem accepts_cons :
    Accepts underflow (t :: ts) ↔ (t.Loose ∧ t.InRange underflow) ∧ Accepts underflow ts :=
  List.forall_mem_cons

theorem accepts_append :
    Accepts underflow (ts ++ us) ↔ Accepts underflow ts ∧ Accepts underflow us :=
  List.forall_mem_append

theorem sym_loose {c : Char} (hc : c.toUInt8 ∈ structurals) : (Token.sym c).Loose := hc

theorem accepts_sym {c : Char} (hc : c.toUInt8 ∈ structurals) :
    (Token.sym c).Loose ∧ (Token.sym c).InRange underflow := ⟨sym_loose hc, trivial⟩

theorem text_append : text (ts ++ us) = text ts ++ text us := List.flatMap_append

theorem text_cons : text (t :: ts) = t.bytes ++ text ts := List.flatMap_cons

theorem text_nil : text [] = [] := rfl

theorem text_spaces (s : List UInt8) : text (s.map Token.space) = s := by
  induction s with
  | nil => rfl
  | cons c s ih => rw [List.map_cons, text_cons, ih, Token.bytes, List.singleton_append]

end

namespace JsonParser

variable {underflow : ℚ → Bool} {β : Type} {P : List UInt8 → β → Prop} {i i' : Input UInt8}
  {s : List UInt8} {c : UInt8}

theorem reads_fail (e : ParseError) (h : Consumes i s i') : Reads P i (fail e i') := .error h

theorem consumes_head (h : i.rest.head? = some c) : Consumes i [c] (i.advance 1) := by
  obtain ⟨s, hs⟩ := List.head?_eq_some_iff.1 h
  exact .advance_one hs

theorem consumes_takeWhile (p : UInt8 → Bool) :
    Consumes i (i.rest.takeWhile p) (i.advance (i.rest.takeWhile p).length) :=
  .advance List.takeWhile_append_dropWhile.symm

/-- White space is skipped. -/
theorem skipWhitespace_consumes (i : Input UInt8) :
    ∃ w, Spaces w ∧ Accepts underflow w ∧ Consumes i (text w) (skipWhitespace i) := by
  refine ⟨(i.rest.takeWhile isspace).map .space, ?_, ?_, ?_⟩
  · exact List.forall_mem_map.2 fun _ _ => rfl
  · exact List.forall_mem_map.2 fun _ hc => ⟨List.mem_takeWhile_imp hc, trivial⟩
  · rw [text_spaces]
    exact consumes_takeWhile isspace

/-! ## Numbers -/

theorem parseDigits_reads : Reads (fun s _ => IsDigits s) i (parseDigits i) := by
  rw [parseDigits]
  split_ifs with h
  · obtain ⟨c, hc, hdigit⟩ := (Option.any_eq_true ..).1 h
    obtain ⟨s, hs⟩ := List.head?_eq_some_iff.1 hc
    refine .ok (consumes_takeWhile isdigit) ⟨?_, fun c hc => List.mem_takeWhile_imp hc⟩
    rw [hs, List.takeWhile_cons_of_pos hdigit]
    exact List.cons_ne_nil _ _
  · exact reads_fail _ (.refl i)

theorem parseFraction_reads :
    Reads (fun s _ => s = [] ∨ IsFraction s) i (parseFraction i) := by
  rw [parseFraction]
  split_ifs with h
  · exact (parseDigits_reads.imp fun s _ hs => .inr ⟨s, hs, rfl⟩).after (consumes_head h)
  · exact .ok (.refl i) (.inl rfl)

theorem parseExponent_reads :
    Reads (fun s _ => s = [] ∨ IsExponent s) i (parseExponent i) := by
  have hexponent : ∀ {e : UInt8} (sign : List UInt8) {ds : List UInt8}, e ∈ chars "eE" →
      sign ∈ [[], chars "+", chars "-"] → IsDigits ds → IsExponent ([e] ++ (sign ++ ds)) :=
    fun _ _ he hsign hds => ⟨_, _, _, he, hsign, hds, rfl⟩
  rw [parseExponent]
  split_ifs with h
  · obtain ⟨e, he, hhead⟩ : ∃ e ∈ chars "eE", i.rest.head? = some e :=
      h.elim (fun h => ⟨_, by decide, h⟩) (fun h => ⟨_, by decide, h⟩)
    refine Reads.after (consumes_head hhead) ?_
    dsimp only
    split_ifs with h'
    · obtain ⟨c, hc, hhead'⟩ : ∃ c : UInt8, [c] ∈ [[], chars "+", chars "-"] ∧
          (i.advance 1).rest.head? = some c :=
        h'.elim (fun h => ⟨'+'.toUInt8, by decide, h⟩) (fun h => ⟨'-'.toUInt8, by decide, h⟩)
      exact (parseDigits_reads.imp fun ds _ hds => .inr (hexponent [c] he hc hds)).after
        (consumes_head hhead')
    · exact parseDigits_reads.imp fun ds _ hds => .inr (hexponent [] he (by decide) hds)
  · exact .ok (.refl i) (.inl rfl)

theorem parseNumber_reads :
    Reads (fun s n => IsNumber IsDigits s ∧ stod underflow s = some n) i
      (parseNumber underflow i) := by
  rw [parseNumber]
  obtain ⟨sign, hsign, hconsumes⟩ : ∃ sign, (sign = [] ∨ sign = chars "-") ∧ Consumes i sign
      (if i.rest.head? = some '-'.toUInt8 then i.advance 1 else i) := by
    split_ifs with h
    · exact ⟨_, .inr rfl, consumes_head h⟩
    · exact ⟨_, .inl rfl, .refl i⟩
  refine Reads.after hconsumes ?_
  refine parseDigits_reads.bind fun int _ i₁ h₁ hint => ?_
  refine parseFraction_reads.bind fun frac _ i₂ h₂ hfrac => ?_
  refine parseExponent_reads.bind fun exp _ i₃ h₃ hexp => ?_
  -- the text of the number is what has been read
  have hall : Consumes i (sign ++ (int ++ (frac ++ exp))) i₃ :=
    hconsumes.trans (h₁.trans (h₂.trans h₃))
  have htake : i.rest.take (i₃.pos - i.pos) = sign ++ (int ++ (frac ++ exp)) := by
    rw [hall.pos, Nat.add_sub_cancel_left, hall.rest, List.take_left]
  simp only [htake]
  cases hstod : stod underflow (sign ++ (int ++ (frac ++ exp))) with
  | none => exact .error (.refl i₃)
  | some n =>
    refine .ok (.refl i₃) ?_
    rw [List.append_nil]
    exact ⟨⟨sign, int, frac, exp, hsign, hint, hfrac, hexp, rfl⟩, hstod⟩

/-! ## Literals -/

theorem consumes_take {n : ℕ} (h : i.rest.take n = s) (hn : s.length = n) :
    Consumes i s (i.advance n) := by
  have hrest : i.rest = s ++ i.rest.drop n := by rw [← h, List.take_append_drop]
  exact hn ▸ .advance hrest

theorem parseBool_reads :
    Reads (fun s b => s = chars (if b then "true" else "false")) i (parseBool i) := by
  rw [parseBool]
  split_ifs with h h'
  · exact .ok (consumes_take h rfl) rfl
  · exact .ok (consumes_take h' rfl) rfl
  · exact reads_fail _ (.refl i)

theorem parseNull_reads : Reads (fun s _ => s = chars "null") i (parseNull i) := by
  rw [parseNull]
  split_ifs with h
  · exact .ok (consumes_take h rfl) rfl
  · exact reads_fail _ (.refl i)

/-! ## Strings -/

/-- What there is of a string from some item on, when `str` has been before. -/
def IsItems (str s str' : List UInt8) : Prop :=
  ∃ items : List Item, (∀ item ∈ items, item.Loose) ∧
    s = items.flatMap Item.bytes ++ [quote] ∧ str' = str ++ items.flatMap Item.value

theorem IsItems.cons {item : Item} (hitem : item.Loose) {str s str' : List UInt8}
    (h : IsItems (str ++ item.value) s str') : IsItems str (item.bytes ++ s) str' := by
  obtain ⟨items, hitems, rfl, rfl⟩ := h
  refine ⟨item :: items, List.forall_mem_cons.2 ⟨hitem, hitems⟩, ?_, ?_⟩
  · rw [List.flatMap_cons, List.append_assoc]
  · rw [List.flatMap_cons, List.append_assoc]

/-- An item is read. -/
theorem reads_item (item : Item) (hitem : item.Loose) {str rest : List UInt8} {pos : ℕ}
    {r : Parsed (List UInt8)}
    (h : Reads (IsItems (str ++ item.value)) ⟨pos + item.bytes.length, rest⟩ r) :
    Reads (IsItems str) ⟨pos, item.bytes ++ rest⟩ r :=
  (h.imp fun _ _ hs => hs.cons hitem).after ⟨rfl, rfl⟩

theorem parseStringLoop_reads (str : List UInt8) (pos : ℕ) (rest : List UInt8) :
    Reads (IsItems str) ⟨pos, rest⟩ (parseStringLoop str pos rest) := by
  fun_induction parseStringLoop str pos rest with
  | case1 str pos => exact reads_fail _ (.refl _)
  | case2 str pos rest =>
    refine .ok (s := [quote]) ⟨rfl, rfl⟩ ⟨[], fun _ h => absurd h List.not_mem_nil, rfl, ?_⟩
    rw [List.flatMap_nil, List.append_nil]
  | case3 str pos _ => exact reads_fail (s := [backslash]) _ ⟨rfl, rfl⟩
  | case4 str pos x y z w rest _ ih => exact reads_item (.unicode x y z w) trivial ih
  | case5 str pos rest _ _ => exact reads_fail (s := [backslash]) _ ⟨rfl, rfl⟩
  | case6 str pos e rest _ c hc _ ih =>
    have hvalue : (Item.escape e).value = [c] := by rw [Item.value, hc, Option.toList_some]
    have hloose : (Item.escape e).Loose := by rw [Item.Loose, hc, Option.isSome_some]
    exact reads_item _ hloose (hvalue ▸ ih)
  | case7 str pos e rest _ _ _ => exact reads_fail (s := [backslash]) _ ⟨rfl, rfl⟩
  | case8 str pos c rest hquote hbackslash ih =>
    exact reads_item (.plain c) ⟨hquote, hbackslash⟩ ih

/-- A string, with what it is. -/
def IsString (s str : List UInt8) : Prop :=
  ∃ items : List Item, (Token.string items).Loose ∧ s = (Token.string items).bytes ∧
    str = items.flatMap Item.value

theorem parseString_reads : Reads IsString i (parseString i) := by
  rw [parseString]
  split_ifs with h
  · refine Reads.after (consumes_head h) ((parseStringLoop_reads _ _ _).imp ?_)
    rintro s str ⟨items, hitems, rfl, rfl⟩
    exact ⟨items, hitems, rfl, rfl⟩
  · exact reads_fail _ (.refl i)

/-! ## Values -/

/-- The text of a phrase, in tokens that the parser takes. -/
def IsText (underflow : ℚ → Bool) (p : Phrase) (s : List UInt8) : Prop :=
  ∃ ts, Derives p ts ∧ Accepts underflow ts ∧ s = text ts

/-- The text of a value with white space before it. -/
def IsValue (underflow : ℚ → Bool) (s : List UInt8) (v : JsonValue) : Prop :=
  ∃ w s', Spaces w ∧ Accepts underflow w ∧ IsText underflow (.value v) s' ∧ s = text w ++ s'

namespace IsText

variable {s' : List UInt8} {v : JsonValue} {x : List UInt8 × JsonValue} {l : JsonArray}
  {l' : List (List UInt8 × JsonValue)} {w : List Token} {p p' q : Phrase}

/-- Two phrases with a comma in between. -/
theorem comma (hd : ∀ {ts us}, Derives p ts → Derives p' us → Derives q (ts ++ .sym ',' :: us))
    (h : IsText underflow p s) (h' : IsText underflow p' s') :
    IsText underflow q (s ++ ([','.toUInt8] ++ s')) := by
  obtain ⟨ts, hts, hts', rfl⟩ := h
  obtain ⟨us, hus, hus', rfl⟩ := h'
  refine ⟨_, hd hts hus, accepts_append.2 ⟨hts', accepts_cons.2 ⟨?_, hus'⟩⟩, ?_⟩
  · exact accepts_sym (by decide)
  · rw [text_append, text_cons]
    rfl

/-- A phrase in brackets, with white space at its beginning. -/
theorem bracket {a b : Char} (ha : a.toUInt8 ∈ structurals) (hb : b.toUInt8 ∈ structurals)
    (hd : ∀ {ts}, Derives p ts → Derives q (.sym a :: (ts ++ [.sym b])))
    (hw : ∀ {ts}, Derives p ts → Derives p (w ++ ts)) (hw' : Accepts underflow w)
    (h : IsText underflow p s) :
    IsText underflow q ([a.toUInt8] ++ text w ++ (s ++ [b.toUInt8])) := by
  obtain ⟨ts, hts, hts', rfl⟩ := h
  refine ⟨_, hd (hw hts), accepts_cons.2 ⟨accepts_sym ha, ?_⟩, ?_⟩
  · exact accepts_append.2 ⟨accepts_append.2 ⟨hw', hts'⟩,
      accepts_cons.2 ⟨accepts_sym hb, accepts_nil⟩⟩
  · simp only [text_cons, text_append, text_nil, Token.bytes, List.append_assoc, List.append_nil]

/-- Brackets with nothing but white space in between. -/
theorem emptyBracket {a b : Char} (ha : a.toUInt8 ∈ structurals)
    (hb : b.toUInt8 ∈ structurals) (hd : Derives q (.sym a :: (w ++ [.sym b])))
    (hw' : Accepts underflow w) : IsText underflow q ([a.toUInt8] ++ text w ++ [b.toUInt8]) := by
  refine ⟨_, hd, accepts_cons.2 ⟨accepts_sym ha, ?_⟩, ?_⟩
  · exact accepts_append.2 ⟨hw', accepts_cons.2 ⟨accepts_sym hb, accepts_nil⟩⟩
  · simp only [text_cons, text_append, text_nil, Token.bytes, List.append_assoc, List.append_nil]

end IsText

/-- The white space behind a value. -/
theorem IsValue.element {v : JsonValue} {w : List Token} (h : IsValue underflow s v)
    (hw : Spaces w) (hw' : Accepts underflow w) :
    IsText underflow (.element v) (s ++ text w) := by
  obtain ⟨w₀, _, hw₀, hw₀', ⟨ts, hts, hts', rfl⟩, rfl⟩ := h
  refine ⟨_, .element hw₀ hts hw, accepts_append.2 ⟨hw₀', accepts_append.2 ⟨hts', hw'⟩⟩, ?_⟩
  rw [text_append, text_append, List.append_assoc]

/-- A member of an object, by its parts. -/
theorem IsString.member {str key : List UInt8} {v : JsonValue} {w w' : List Token}
    (h : IsString str key) (hw : Spaces w) (hw' : Accepts underflow w) (hw₁ : Spaces w')
    (hw₁' : Accepts underflow w') (h' : IsText underflow (.element v) s) :
    IsText underflow (.member (key, v)) (text w ++ (str ++ (text w' ++ ([':'.toUInt8] ++ s)))) := by
  obtain ⟨items, hitems, rfl, rfl⟩ := h
  obtain ⟨ts, hts, hts', rfl⟩ := h'
  refine ⟨_, .member hw hw₁ hts, ?_, ?_⟩
  · exact accepts_append.2 ⟨hw', accepts_cons.2 ⟨⟨hitems, trivial⟩, accepts_append.2
      ⟨hw₁', accepts_cons.2 ⟨accepts_sym (by decide), hts'⟩⟩⟩⟩
  · simp only [text_cons, text_append, Token.bytes]

variable {parseValue : Input UInt8 → Parsed JsonValue} {m : ℕ}

/-- The loop of an array, with what has been in the array before. -/
theorem parseArrayLoop_reads
    (hvalue : ∀ i, i.rest.length < m → Reads (IsValue underflow) i (parseValue i)) (fuel : ℕ)
    (arr : JsonArray) (i : Input UInt8) (hm : i.rest.length < m) (hfuel : i.rest.length < fuel) :
    Reads (fun s arr' => ∃ s' l, IsText underflow (.elements l) s' ∧ s = s' ++ [']'.toUInt8] ∧
      arr' = arr ++ l) i (parseArrayLoop parseValue fuel arr i) := by
  induction fuel generalizing arr i with
  | zero => exact absurd hfuel (Nat.not_lt_zero _)
  | succ fuel ih =>
    rw [parseArrayLoop]
    refine (hvalue i hm).bind fun s v i₁ h₁ hv => ?_
    obtain ⟨w, hw, hw', h₂⟩ := skipWhitespace_consumes i₁
    obtain ⟨ts, hts, hts'⟩ := hv.element hw hw'
    refine Reads.after h₂ ?_
    dsimp only
    split
    · exact reads_fail _ (.refl _)
    · next c hc =>
      split_ifs with hclose hcomma
      · subst hclose
        refine .ok (consumes_head hc) ⟨_, _, ⟨ts, .lastElement hts, hts'⟩, ?_, rfl⟩
        rw [List.append_assoc]
      · exact reads_fail _ (.refl _)
      · obtain rfl := not_not.1 hcomma
        have h₃ := consumes_head hc
        have hlength := (h₁.trans (h₂.trans h₃)).length_add
        simp only [List.length_append, List.length_singleton] at hlength
        refine ((ih (arr ++ [v]) _ (by omega) (by omega)).imp ?_).after h₃
        rintro t arr' ⟨s', l, hl, rfl, rfl⟩
        refine ⟨_, _, .comma .elements ⟨ts, hts, hts'⟩ hl, ?_, ?_⟩
        · simp only [List.append_assoc]
        · rw [List.append_assoc, List.singleton_append]

theorem parseArray_reads
    (hvalue : ∀ i, i.rest.length < m → Reads (IsValue underflow) i (parseValue i))
    (hm : i.rest.length ≤ m) :
    Reads (fun s l => IsText underflow (.value (.array l)) s) i (parseArray parseValue i) := by
  rw [parseArray]
  split_ifs with hopen
  · exact reads_fail _ (.refl i)
  · have h₁ := consumes_head (not_not.1 hopen)
    obtain ⟨w, hw, hw', h₂⟩ := skipWhitespace_consumes (i.advance 1)
    have hlength := (h₁.trans h₂).length_add
    simp only [List.length_append, List.length_singleton] at hlength
    refine Reads.after (h₁.trans h₂) ?_
    dsimp only
    split_ifs with hclose
    · exact .ok (consumes_head hclose)
        (.emptyBracket (by decide) (by decide) (.emptyArray hw) hw')
    · refine (parseArrayLoop_reads hvalue _ [] _ (by omega) (by omega)).imp ?_
      rintro s arr ⟨s', l, hl, rfl, rfl⟩
      exact .bracket (by decide) (by decide) .array (fun h => h.spaces_elements hw) hw' hl

/-- The loop of an object, with what has been in the object before. -/
theorem parseObjectLoop_reads
    (hvalue : ∀ i, i.rest.length < m → Reads (IsValue underflow) i (parseValue i)) (fuel : ℕ)
    (obj : JsonObject) (i : Input UInt8) (hm : i.rest.length < m) (hfuel : i.rest.length < fuel) :
    Reads (fun s obj' => ∃ s' l, IsText underflow (.members l) s' ∧ s = s' ++ ['}'.toUInt8] ∧
      obj' = assignAll obj l) i (parseObjectLoop parseValue fuel obj i) := by
  induction fuel generalizing obj i with
  | zero => exact absurd hfuel (Nat.not_lt_zero _)
  | succ fuel ih =>
    rw [parseObjectLoop]
    obtain ⟨w, hw, hw', h₁⟩ := skipWhitespace_consumes i
    refine Reads.after h₁ ?_
    dsimp only
    split_ifs with hquote
    · exact reads_fail _ (.refl _)
    refine parseString_reads.bind fun str key i₂ h₂ hkey => ?_
    obtain ⟨w₁, hw₁, hw₁', h₃⟩ := skipWhitespace_consumes i₂
    refine Reads.after h₃ ?_
    split_ifs with hcolon
    · exact reads_fail _ (.refl _)
    have h₄ := consumes_head (not_not.1 hcolon)
    have hbefore := h₁.trans (h₂.trans (h₃.trans h₄))
    have hlength := hbefore.length_add
    refine Reads.after h₄ ((hvalue _ ?_).bind fun s v i₅ h₅ hv => ?_)
    · omega
    obtain ⟨w₂, hw₂, hw₂', h₆⟩ := skipWhitespace_consumes i₅
    obtain ⟨ts, hts, hts'⟩ := hkey.member hw hw' hw₁ hw₁' (hv.element hw₂ hw₂')
    refine Reads.after h₆ ?_
    split
    · exact reads_fail _ (.refl _)
    · next c hc =>
      split_ifs with hclose hcomma
      · subst hclose
        refine .ok (consumes_head hc) ⟨_, _, ⟨ts, .lastMember hts, hts'⟩, ?_, rfl⟩
        simp only [List.append_assoc]
      · exact reads_fail _ (.refl _)
      · obtain rfl := not_not.1 hcomma
        have h₇ := consumes_head hc
        have hlength := (hbefore.trans (h₅.trans (h₆.trans h₇))).length_add
        simp only [List.length_append, List.length_singleton] at hlength
        refine ((ih (assign key v obj) _ (by omega) (by omega)).imp ?_).after h₇
        rintro t obj' ⟨s', l, hl, rfl, rfl⟩
        refine ⟨_, _, .comma .members ⟨ts, hts, hts'⟩ hl, ?_, rfl⟩
        simp only [List.append_assoc]

theorem parseObject_reads
    (hvalue : ∀ i, i.rest.length < m → Reads (IsValue underflow) i (parseValue i))
    (hm : i.rest.length ≤ m) :
    Reads (fun s l => IsText underflow (.value (.object l)) s) i (parseObject parseValue i) := by
  rw [parseObject]
  split_ifs with hopen
  · exact reads_fail _ (.refl i)
  · have h₁ := consumes_head (not_not.1 hopen)
    obtain ⟨w, hw, hw', h₂⟩ := skipWhitespace_consumes (i.advance 1)
    have hlength := (h₁.trans h₂).length_add
    simp only [List.length_append, List.length_singleton] at hlength
    refine Reads.after (h₁.trans h₂) ?_
    dsimp only
    split_ifs with hclose
    · exact .ok (consumes_head hclose)
        (.emptyBracket (by decide) (by decide) (.emptyObject hw) hw')
    · refine (parseObjectLoop_reads hvalue _ [] _ (by omega) (by omega)).imp ?_
      rintro s obj ⟨s', l, hl, rfl, rfl⟩
      exact .bracket (by decide) (by decide) .object (fun h => h.spaces_members hw) hw' hl

/-- A token that is a value. -/
theorem isText_token {p : Phrase} {t : Token} (hp : Derives p [t]) (ht : t.Loose)
    (ht' : t.InRange underflow) : IsText underflow p t.bytes :=
  ⟨_, hp, accepts_cons.2 ⟨⟨ht, ht'⟩, accepts_nil⟩, by rw [text_cons, text_nil, List.append_nil]⟩

theorem parseValue_reads (depth : ℕ) (i : Input UInt8) (h : i.rest.length < depth) :
    Reads (IsValue underflow) i (JsonParser.parseValue underflow depth i) := by
  induction depth generalizing i with
  | zero => exact absurd h (Nat.not_lt_zero _)
  | succ depth ih =>
    rw [JsonParser.parseValue]
    obtain ⟨w, hw, hw', h₁⟩ := skipWhitespace_consumes i
    have hlength := h₁.length_add
    have hvalue : ∀ {s v}, IsText underflow (.value v) s → IsValue underflow (text w ++ s) v :=
      fun hs => ⟨w, _, hw, hw', hs, rfl⟩
    refine Reads.after h₁ ?_
    split
    · exact reads_fail _ (.refl _)
    · next c hc =>
      split_ifs with hquote hobject harray hbool hnull hnumber
      · refine parseString_reads.bind fun s str i₂ h₂ hs => .ok (.refl i₂) (hvalue ?_)
        obtain ⟨items, hitems, rfl, rfl⟩ := hs
        rw [List.append_nil]
        exact isText_token (.string items) hitems trivial
      · refine (parseObject_reads ih (by omega)).bind fun s obj i₂ h₂ hs =>
          .ok (.refl i₂) (hvalue ?_)
        rwa [List.append_nil]
      · refine (parseArray_reads ih (by omega)).bind fun s arr i₂ h₂ hs =>
          .ok (.refl i₂) (hvalue ?_)
        rwa [List.append_nil]
      · refine parseBool_reads.bind fun s b i₂ h₂ hs => .ok (.refl i₂) (hvalue ?_)
        rw [List.append_nil, hs]
        have hb : ∀ b : Bool, chars (if b then "true" else "false") ∈
            [chars "true", chars "false", chars "null"] := by decide
        exact isText_token (.bool b) (hb b) trivial
      · refine parseNull_reads.bind fun s _ i₂ h₂ hs => .ok (.refl i₂) (hvalue ?_)
        rw [List.append_nil, hs]
        have hnull : chars "null" ∈ [chars "true", chars "false", chars "null"] := by decide
        exact isText_token .null hnull trivial
      · refine parseNumber_reads.bind fun s n i₂ h₂ hs => .ok (.refl i₂) (hvalue ?_)
        obtain ⟨hs, hstod⟩ := hs
        rw [List.append_nil]
        rw [stod] at hstod
        split_ifs at hstod with hrange
        obtain rfl := Option.some.inj hstod
        exact isText_token (.number s) hs hrange
      · exact reads_fail _ (.refl _)

/-- The parser comes to an end within the text; if it succeeds, the text is an object or an array. -/
theorem parse_reads (json : List UInt8) :
    Reads (fun s doc => s = json ∧ IsText underflow (.element doc.toValue) s) ⟨0, json⟩
      (parse underflow json) := by
  obtain ⟨w, hw, hw', h₁⟩ := skipWhitespace_consumes ⟨0, json⟩
  have hlength : _ = json.length := h₁.length_add
  have hvalue := @parseValue_reads underflow json.length
  rw [parse]
  refine Reads.after h₁ (Reads.bind
    (P := fun s doc => IsText underflow (.value doc.toValue) s) ?_ fun s doc i₂ h₂ hs => ?_)
  · split
    · exact reads_fail _ (.refl _)
    · split_ifs with hobject harray
      · refine (parseObject_reads hvalue (by omega)).bind fun s obj i₂ h₂ hs => .ok (.refl i₂) ?_
        rwa [List.append_nil]
      · refine (parseArray_reads hvalue (by omega)).bind fun s arr i₂ h₂ hs => .ok (.refl i₂) ?_
        rwa [List.append_nil]
      · exact reads_fail _ (.refl _)
  · obtain ⟨w', hw₁, hw₁', h₃⟩ := skipWhitespace_consumes i₂
    refine Reads.after h₃ ?_
    dsimp only
    split_ifs with hend
    · have hall : json = _ := (h₁.trans (h₂.trans h₃)).rest
      rw [hend, List.append_nil] at hall
      refine .ok (.refl _) ⟨?_, ?_⟩
      · rw [List.append_nil, hall]
      · rw [List.append_nil, ← List.append_assoc]
        exact IsValue.element ⟨w, s, hw, hw', hs, rfl⟩ hw₁ hw₁'
    · exact reads_fail _ (.refl _)

end JsonParser

end EW8.Core

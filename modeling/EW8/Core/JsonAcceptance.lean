import EW8.Core.JsonParserComplete

/-!
# The texts that are taken for JSON

The parser takes the texts of its grammar whose numbers are in the range of `stod`
(`parse_ok_iff`). RFC 8259 has the same grammar, but fewer tokens: no leading zeros, no other white
space, no raw control characters in strings, and hexadecimal digits behind `\u`; and it has numbers of
any size. So the parser succeeds on just the texts of RFC 8259 as long as they are divided into such
tokens that the one comes with the other (`takesRfc_iff`).
-/

namespace EW8.Core

open Reader

variable {underflow : ℚ → Bool} {s : List UInt8}

/-- The text is one of the grammar, in tokens that the parser takes. -/
def LooseText (ts : List Token) (s : List UInt8) : Prop :=
  (∃ doc : JsonDocument, Derives (.element doc.toValue) ts) ∧ (∀ t ∈ ts, t.Loose) ∧ text ts = s

/-- There is one division into tokens at most. -/
theorem LooseText.unique {ts us : List Token} (h : LooseText ts s) (h' : LooseText us s) :
    ts = us := by
  obtain ⟨⟨_, hts⟩, hloose, htext⟩ := h
  obtain ⟨⟨_, hus⟩, hloose', htext'⟩ := h'
  exact tokens_unique hts.separated hus.separated hloose hloose' (htext.trans htext'.symm)

/-- The parser succeeds on the texts of the grammar whose numbers are in the range. -/
theorem parse_ok_iff :
    (∃ doc i, JsonParser.parse underflow s = .ok doc i) ↔
      ∃ ts, LooseText ts s ∧ ∀ t ∈ ts, t.InRange underflow := by
  constructor
  · rintro ⟨doc, i, hok⟩
    have hreads := @JsonParser.parse_reads underflow s
    rw [hok] at hreads
    cases hreads with
    | ok _ hp =>
      obtain ⟨hs, ts, hts, ha, htext⟩ := hp
      exact ⟨ts, ⟨⟨doc, hts⟩, fun t ht => (ha t ht).1, htext ▸ hs⟩, fun t ht => (ha t ht).2⟩
  · rintro ⟨ts, ⟨⟨doc, hts⟩, hloose, rfl⟩, hrange⟩
    exact ⟨doc, JsonParser.parse_text hts fun t ht => ⟨hloose t ht, hrange t ht⟩⟩

theorem rfcText_iff : RfcText s ↔ ∃ ts, LooseText ts s ∧ ∀ t ∈ ts, t.Rfc := by
  constructor
  · rintro ⟨doc, ts, hts, hrfc, htext⟩
    exact ⟨ts, ⟨⟨doc, hts⟩, fun t ht => (hrfc t ht).loose, htext⟩, hrfc⟩
  · rintro ⟨ts, ⟨⟨doc, hts⟩, _, htext⟩, hrfc⟩
    exact ⟨doc, ts, hts, hrfc, htext⟩

/-- The parser comes to an end, not behind that of the text, and it succeeds just if the text is one
    of RFC 8259. -/
structure TakesRfc (underflow : ℚ → Bool) (s : List UInt8) : Prop where
  ends : ∃ i ∈ (JsonParser.parse underflow s).input?, i.pos ≤ s.length
  succeeds_iff : (∃ doc i, JsonParser.parse underflow s = .ok doc i) ↔ RfcText s

/-- The texts on which it is so: if the text is divided into tokens that the parser takes, its numbers
    are in the range of `stod` just if all tokens are of RFC 8259. -/
theorem takesRfc_iff :
    TakesRfc underflow s ↔
      ∀ ts, LooseText ts s → ((∀ t ∈ ts, t.InRange underflow) ↔ ∀ t ∈ ts, t.Rfc) := by
  constructor
  · rintro ⟨-, h⟩ ts hts
    rw [parse_ok_iff, rfcText_iff] at h
    constructor
    · intro hrange
      obtain ⟨us, hus, hrfc⟩ := h.1 ⟨ts, hts, hrange⟩
      rwa [hts.unique hus]
    · intro hrfc
      obtain ⟨us, hus, hrange⟩ := h.2 ⟨ts, hts, hrfc⟩
      rwa [hts.unique hus]
  · intro h
    refine ⟨?_, ?_⟩
    · obtain ⟨i, hi, hle⟩ := (@JsonParser.parse_reads underflow s).pos_le
      exact ⟨i, hi, by simpa using hle⟩
    · rw [parse_ok_iff, rfcText_iff]
      exact exists_congr fun ts => and_congr_right (h ts)

theorem not_isNumber_zero_one : ¬IsNumber IsInteger (chars "01") := by
  rintro ⟨sign, int, frac, exp, hsign, ⟨⟨hne, -⟩, hzero⟩, hfrac, hexp, heq⟩
  have hchars : chars "01" = ['0'.toUInt8, '1'.toUInt8] := rfl
  obtain ⟨d, int, rfl⟩ := List.exists_cons_of_ne_nil hne
  rw [hchars] at heq
  rcases hsign with rfl | rfl
  · obtain ⟨hd, heq⟩ := List.cons.inj heq
    obtain rfl : int = [] :=
      List.length_eq_zero_iff.1 (Nat.succ.inj (hzero (congrArg some hd.symm)))
    rcases hfrac with rfl | ⟨ds, -, rfl⟩
    · rcases hexp with rfl | ⟨e, sign, ds, he, -, -, rfl⟩
      · exact absurd heq (List.cons_ne_nil _ _)
      · rw [← (List.cons.inj heq).1] at he
        exact absurd he (by decide)
    · exact absurd (List.cons.inj heq).1 (by decide)
  · exact absurd (List.cons.inj heq).1 (by decide)

/-- A number with a leading zero is taken. -/
theorem takesRfc_fails_of_zero : ¬TakesRfc (fun _ => true) (chars "[01]") := by
  rintro ⟨-, h⟩
  rw [parse_ok_iff, rfcText_iff] at h
  obtain ⟨ts, hts⟩ : ∃ ts, ts = [Token.sym '[', .number (chars "01"), .sym ']'] := ⟨_, rfl⟩
  have hdigits : IsDigits (chars "01") := ⟨by decide, by decide +kernel⟩
  have hvalue : decimalValue (chars "01") = (1 : ℤ) := by decide +kernel
  have hloose : LooseText ts (chars "[01]") := by
    have hderives := Derives.array (.lastElement (Derives.number (chars "01")).value_element)
    refine ⟨⟨.array [.double (doubleValue (chars "01"))], hts ▸ hderives.value_element⟩, ?_, ?_⟩
    · have hopen : (Token.sym '[').Loose := sym_loose (by decide)
      have hclose : (Token.sym ']').Loose := sym_loose (by decide)
      have hnumber : (Token.number (chars "01")).Loose :=
        ⟨[], _, [], [], .inl rfl, hdigits, .inl rfl, .inl rfl, rfl⟩
      simp [hts, hopen, hclose, hnumber]
    · rw [hts]
      decide
  have hrange : ∀ t ∈ ts, t.InRange fun _ => true := by
    have hnumber : InRange (fun _ => true) (chars "01") := inRange_of_int hvalue (by norm_num)
    simp [hts, Token.InRange, hnumber]
  obtain ⟨us, hus, hrfc⟩ := h.1 ⟨ts, hloose, hrange⟩
  rw [← hloose.unique hus, hts] at hrfc
  exact not_isNumber_zero_one (hrfc (.number (chars "01")) (by simp))

end EW8.Core

import EW8.Dbc.Files

/-!
# How the DBC files are read

Line by line: what the parser takes for the lines of a file, and what its actions make of them.
-/

namespace EW8.Dbc

open EW8.Config (Signal)
open EW8.Core EW8.Core.JsonParser EW8.Rx Peg
open Peg.Expr (seqs choices)

variable {w : String} {s t : List UInt8} {x x' : CanDBSignal}

/-! ## How words begin -/

theorem Name.stops (n : Name) (h : apart "a-zA-Z0-9'_'" w) : Stops w (n.bytes ++ s) :=
  n.allIn.stops n.ne_nil h

theorem Sign.stops (n : Sign) (h : beginsOutside w "+" ∧ beginsOutside w "-") :
    Stops w (n.bytes ++ s) := by
  cases n with
  | plus => exact stops_chars h.1
  | minus => exact stops_chars h.2

theorem Number.stops (n : Number) (h : apart "0-9" w)
    (hsign : beginsOutside w "+" ∧ beginsOutside w "-") : Stops w (n.bytes ++ s) := by
  unfold Number.bytes
  cases n.sign with
  | some g =>
    rw [Option.map_some, Option.getD_some, List.append_assoc]
    exact g.stops hsign
  | none =>
    rw [Option.map_none, Option.getD_none, List.nil_append, List.append_assoc]
    exact (allIn_of_isDigits n.int_digits).stops n.int_digits.1 h

theorem Phrase.stops (n : Phrase) (h : beginsOutside w "\"") : Stops w (n.quoted ++ s) := by
  rw [Phrase.quoted, List.append_assoc]
  exact stops_chars h

/-! ## Signals -/

theorem stops_receivers (l : List Name) (hcomma : beginsOutside w ",")
    (hend : beginsOutside w "\n") : Stops w ((l.flatMap fun r => chars "," ++ r.bytes) ++ (chars "\n" ++ s)) := by
  cases l with
  | nil => exact stops_chars hend
  | cons r l =>
    rw [List.flatMap_cons, List.append_assoc, List.append_assoc]
    exact stops_chars hcomma

theorem takes_receivers (l : List Name) :
    Takes candbgrammar (zom (seqs [lit ",", Rule.ECU_NAME]))
      (l.flatMap fun r => chars "," ++ r.bytes) (chars "\n" ++ s) x x := by
  induction l with
  | nil => exact .star_nil fun _ => .seqs_failure (lit_failure_of_stops (w := ",")
      (stops_chars rfl) (by decide) ⟨44, by decide, by decide⟩) _
  | cons r l ih =>
    refine .star (by simp [chars]) (.seqs (takes_lit ",") (r.takes_ECU_NAME ?_)) ih
    exact stops_receivers l rfl rfl

namespace SignalLine

variable (n : SignalLine)

/-- What the actions for the words of the line do. -/
def push (x : CanDBSignal) : CanDBSignal :=
  ((((((((((x.pushName n.name).pushNatural n.startBit).pushNatural n.size).pushNatural
    n.byteOrder).pushSign n.sign).pushNumber n.factor).pushNumber n.offset).pushNumber
    n.min).pushNumber n.max).pushPhrase n.unit)

theorem takes_values :
    Takes candbgrammar Rule.signal_values n.values (chars "\n" ++ s)
      (((x.pushName n.name).pushNatural n.startBit).pushNatural n.size) (n.push x) := by
  have hdigits : apart "0-9" " \t" := rfl
  have hname : apart "a-zA-Z0-9'_'" " \t" := rfl
  refine .seqs (takes_lit "@") (.seqs (n.byteOrder.takes_number ?_) (.seqs (n.sign.takes_sign ?_)
    (.seqs (takes_blank ?_) (.seqs (takes_lit "(") (.seqs (n.factor.takes_number ?_)
    (.seqs (takes_lit ",") (.seqs_nil (takes_no_blank ?_) (.seqs (n.offset.takes_number ?_)
    (.seqs (takes_lit ")") (.seqs (takes_blank ?_) (.seqs (takes_lit "[")
    (.seqs (n.min.takes_number ?_) (.seqs (takes_lit "|") (.seqs (n.max.takes_number ?_)
    (.seqs (takes_lit "]") (.seqs (takes_blank ?_) (.seqs n.unit.takes_phrase
    (.seqs (takes_blank ?_) (.seqs (n.receiver.takes_ECU_NAME ?_)
    (takes_receivers n.receivers))))))))))))))))))))
  all_goals try simp only [List.append_assoc]
  · exact n.sign.stops ⟨rfl, rfl⟩
  · exact stops_chars rfl
  · exact stops_chars rfl
  · exact stops_chars rfl
  · exact n.offset.stops hdigits ⟨rfl, rfl⟩
  · exact stops_chars rfl
  · exact stops_chars rfl
  · exact stops_chars rfl
  · exact stops_chars rfl
  · exact n.unit.stops rfl
  · exact n.receiver.stops hname
  · exact stops_receivers n.receivers rfl rfl

/-- What the action for the line does then: of the signs, the last one is taken. -/
def apply (x : CanDBSignal) : CanDBSignal :=
  { x with
    signs := ((n.signs.map fun g => text g.bytes).reverse ++ x.signs).tail
    cansignals := n.signal :: x.cansignals }

theorem ofNat_div {v : ℕ} (h : v < 2 ^ 63) :
    ((UInt64.ofNat v).toInt64 / 8).toUInt64.toUInt32 = UInt32.ofNat (v / 8) := by
  have hdiv : Int64.ofNat v / 8 = Int64.ofNat (v / 8) := by
    refine Int64.toInt_inj.1 ?_
    have h8 : (8 : Int64).toInt = 8 := by decide
    rw [Int64.toInt_div_of_ne_right _ _ (by decide), Int64.toInt_ofNat_of_lt h,
      Int64.toInt_ofNat_of_lt (by omega), h8, Int.tdiv_eq_ediv_of_nonneg (by omega)]
    norm_cast
  rw [UInt64.toInt64_ofNat', hdiv]
  exact UInt64.toUInt32_ofNat' _

theorem ofNat_mod {v : ℕ} (h : v < 2 ^ 63) :
    ((UInt64.ofNat v).toInt64 % 8).toUInt64.toUInt32 = UInt32.ofNat (v % 8) := by
  have hmod : Int64.ofNat v % 8 = Int64.ofNat (v % 8) := by
    refine Int64.toInt_inj.1 ?_
    have h8 : (8 : Int64).toInt = 8 := by decide
    rw [Int64.toInt_mod, Int64.toInt_ofNat_of_lt h, Int64.toInt_ofNat_of_lt (by omega), h8,
      Int.tmod_eq_emod_of_nonneg (by omega)]
    norm_cast
  rw [UInt64.toInt64_ofNat', hmod]
  exact UInt64.toUInt32_ofNat' _

theorem pushNumber_eq (n : Number) (x : CanDBSignal) :
    x.pushNumber n = { x with
      signs := (n.signs.map fun g => text g.bytes).reverse ++ x.signs
      numbers := n.value.toInt64 :: x.numbers } := by
  have hfold (l : List Sign) (x : CanDBSignal) : l.foldl (fun x g => x.pushSign g) x =
      { x with signs := (l.map fun g => text g.bytes).reverse ++ x.signs } := by
    induction l generalizing x with
    | nil => rfl
    | cons g l ih =>
      rw [List.foldl_cons, ih]
      simp [CanDBSignal.pushSign]
  simp only [CanDBSignal.pushNumber, hfold]

theorem push_eq : n.push x = { x with
    phrases := text n.unit.bytes :: x.phrases
    c_identifiers := text n.name.bytes :: x.c_identifiers
    signs := (n.signs.map fun g => text g.bytes).reverse ++ x.signs
    numbers := n.max.value.toInt64 :: n.min.value.toInt64 :: n.offset.value.toInt64 ::
      n.factor.value.toInt64 :: (UInt64.ofNat n.byteOrder.value).toInt64 ::
      (UInt64.ofNat n.size.value).toInt64 :: (UInt64.ofNat n.startBit.value).toInt64 ::
      x.numbers } := by
  simp only [push, pushNumber_eq]
  simp [CanDBSignal.pushPhrase, CanDBSignal.pushSign, CanDBSignal.pushNatural,
    CanDBSignal.pushName, signs]

theorem action_push : CanDBSignal.action .signal t (n.push x) = some (n.apply x) := by
  have hne : n.signs ≠ [] := List.cons_ne_nil _ _
  obtain ⟨l, hsigns⟩ : ∃ l, (n.signs.map fun g => text g.bytes).reverse =
      text (n.signs.getLast hne).bytes :: l := by
    rw [← List.map_reverse]
    have hcons : n.signs.reverse = n.signs.getLast hne :: n.signs.reverse.tail := by
      rw [← List.head_reverse (List.reverse_ne_nil_iff.2 hne), List.cons_head_tail]
    exact ⟨_, congrArg (List.map _) hcons⟩
  have hsign : ∀ g : Sign, (text g.bytes == "+") = decide (g = .plus) := by
    intro g
    cases g <;> rfl
  have hdiv : ((UInt64.ofNat n.startBit.value).toInt64 / 8).toUInt64.toUInt32 = _ :=
    ofNat_div n.startBit.lt
  have hmod : ((UInt64.ofNat n.startBit.value).toInt64 % 8).toUInt64.toUInt32 = _ :=
    ofNat_mod n.startBit.lt
  have hsize : (UInt64.ofNat n.size.value).toInt64.toUInt64.toUInt32 = UInt32.ofNat n.size.value :=
    UInt64.toUInt32_ofNat' _
  simp only [CanDBSignal.action, push_eq, Stacks.signal, apply, signal, hsigns, List.cons_append,
    Option.map_some, hsign, hdiv, hmod, hsize]
  rfl

theorem mux_failure (hs : Stops "M" s) : Parses candbgrammar (.rule .mux) s x .failure x :=
  (lit_failure_of_stops hs (by decide) ⟨77, by decide, by decide⟩).rule_failure

theorem mux_ndx_failure (hs : Stops "m" s) :
    Parses candbgrammar (.rule .mux_ndx) s x .failure x :=
  ((lit_failure_of_stops hs (by decide) ⟨109, by decide, by decide⟩).seqs_failure _).rule_failure

theorem takes_mux (hs : Stops " \tMm" s) (x : CanDBSignal) :
    ∃ t₁ t₂ t₃, t₁ ++ (t₂ ++ t₃) = n.mux.bytes ∧
      Takes candbgrammar (opt Rule.mux) t₁ (t₂ ++ (t₃ ++ s)) x x ∧
      Takes candbgrammar (opt Rule.mux_ndx) t₂ (t₃ ++ s) x x ∧
      Takes candbgrammar (zom Rule.s) t₃ s x x := by
  have hblank : Stops " \t" s := hs.mono rfl
  cases n.mux with
  | none =>
    exact ⟨[], [], [], rfl, .opt_nil (mux_failure (hs.mono rfl)),
      .opt_nil (mux_ndx_failure (hs.mono rfl)), takes_no_blank hblank⟩
  | multiplexor =>
    exact ⟨chars "M", [], chars " ", rfl, .opt ((takes_lit "M").rule fun _ => rfl),
      .opt_nil (mux_ndx_failure (stops_chars rfl)), takes_blank hblank⟩
  | multiplexed index =>
    refine ⟨[], chars "m" ++ index.bytes, chars " ", by simp [Mux.bytes],
      .opt_nil (mux_failure ?_), .opt (.rule (.seqs (takes_lit "m")
        (Number.takes_digits index.digits (stops_chars rfl)).token) fun _ => rfl),
      takes_blank hblank⟩
    rw [List.append_assoc]
    exact stops_chars rfl

theorem stops_mux {v : String} (hv : beginsOutside " \t" v) :
    Stops " \t" (n.mux.bytes ++ (chars v ++ s)) := by
  cases n.mux with
  | none => exact stops_chars hv
  | multiplexor =>
    rw [Mux.bytes, List.append_assoc]
    exact stops_chars rfl
  | multiplexed index =>
    rw [Mux.bytes, List.append_assoc]
    exact stops_chars rfl

/-- The line is taken, and its signal is put before those of the message. -/
theorem takes_signal : Takes candbgrammar (.rule .signal) n.bytes s x (n.apply x) := by
  have hname : apart "a-zA-Z0-9'_'" " \t" := rfl
  have hdigits : apart "0-9" " \t" := rfl
  obtain ⟨t₁, t₂, t₃, ht, hmux, hndx, hblank⟩ := n.takes_mux (x := x.pushName n.name)
    (s := chars ":" ++ (chars " " ++ (n.startBit.bytes ++ (chars "|" ++ (n.size.bytes ++
      (n.values ++ (chars "\n" ++ s))))))) (stops_chars rfl)
  have hbytes : n.bytes = (chars " " ++ (chars "SG_" ++ (chars " " ++ (n.name.bytes ++ (chars " " ++
      (t₁ ++ (t₂ ++ (t₃ ++ (chars ":" ++ (chars " " ++ (n.startBit.bytes ++ (chars "|" ++
        (n.size.bytes ++ n.values))))))))))))) ++ chars "\n" := by
    simp only [bytes, ← ht, List.append_assoc]
  rw [hbytes]
  let y := x.pushName n.name
  refine .rule (.seqs (.token (.seqs (takes_blank ?_) (.seqs (takes_lit "SG_")
    (.seqs (takes_blank ?_) (.seqs (n.name.takes_NAME ?_) (.seqs (takes_blank ?_)
    (.seqs (?_ : Takes _ _ t₁ _ _ y) (.seqs (?_ : Takes _ _ t₂ _ _ y)
    (.seqs (?_ : Takes _ _ t₃ _ _ y) (.seqs (takes_lit ":") (.seqs (takes_blank ?_)
    (.seqs (n.startBit.takes_number ?_) (.seqs (takes_lit "|") (.seqs (n.size.takes_number ?_)
    n.takes_values)))))))))))))) takes_endl) fun t => n.action_push (t := t)
  all_goals try simp only [List.append_assoc]
  · exact stops_chars rfl
  · exact n.name.stops hname
  · exact stops_chars rfl
  · rw [← List.append_assoc t₂, ← List.append_assoc t₁, ht]
    exact n.stops_mux rfl
  · exact hmux
  · exact hndx
  · exact hblank
  · exact n.startBit.stops hdigits
  · exact stops_chars rfl
  · rw [values, List.append_assoc]
    exact stops_chars rfl

end SignalLine

/-! ## Messages -/

theorem signal_failure (hs : Stops " \t" s) (h : ¬chars "SG_" <+: s) :
    Parses candbgrammar (.rule .signal) s x .failure x := by
  refine .rule_failure (.seqs_failure (.token_failure ?_) _)
  exact .seqs_failure_of_takes (takes_no_blank hs) ((lit_failure h).seqs_failure _)

theorem takes_signals (l : List SignalLine) (hs : Stops " \t" s) (h : ¬chars "SG_" <+: s) :
    Takes candbgrammar (zom Rule.signal) (l.flatMap SignalLine.bytes) s x
      (l.foldl (fun x n => n.apply x) x) := by
  induction l generalizing x with
  | nil => exact .star_nil fun _ => signal_failure hs h
  | cons n l ih => exact .star (by simp [SignalLine.bytes, chars]) n.takes_signal ih

theorem foldl_apply (l : List SignalLine) (x : CanDBSignal) :
    ∃ signs, l.foldl (fun x n => n.apply x) x = { x with
      signs := signs
      cansignals := (l.map SignalLine.signal).reverse ++ x.cansignals } := by
  induction l generalizing x with
  | nil => exact ⟨x.signs, rfl⟩
  | cons n l ih =>
    obtain ⟨signs, h⟩ := ih (n.apply x)
    refine ⟨signs, ?_⟩
    rw [List.foldl_cons, h]
    simp [SignalLine.apply]

namespace MessageLines

variable (n : MessageLines)

theorem takes_trailing_space (ht : AllIn "\t\r\n" t) (ht' : t = [] ∨ t.head? = some 10)
    (hs : Stops " \t\r\n" s) (y : CanDBSignal) :
    Takes candbgrammar (choices Rule.trailing_space [.rule .gap]) t s y y := by
  have hstops : Stops " " (t ++ s) := by
    rcases ht' with rfl | hhead
    · exact hs.mono rfl
    · obtain ⟨l, rfl⟩ := List.head?_eq_some_iff.1 hhead
      exact fun c hc => Option.some.inj hc ▸
        (by decide : (10 : UInt8).toNat < 128 ∧ has " " 10 = false)
  refine .choice (.rule (.seqs_nil (.star_nil fun _ => ?_) (takes_gap ht ?_)) fun _ => rfl)
  · exact lit_failure_of_stops hstops (by decide) ⟨32, by decide, by decide⟩
  · exact hs.mono rfl

/-- From the end of the first line on. -/
theorem takes_rest (hs : IsNext s) :
    ∃ t₁ t₂ t₃, t₁ ++ (t₂ ++ t₃) =
        chars "\n" ++ (n.signals.flatMap SignalLine.bytes ++ chars "\n") ∧
      t₁.head? = some 10 ∧ Takes candbgrammar (.rule .gap) t₁ (t₂ ++ (t₃ ++ s)) x x ∧
      Takes candbgrammar (zom Rule.signal) t₂ (t₃ ++ s) x
        (n.signals.foldl (fun x n => n.apply x) x) ∧
      ∀ y, Takes candbgrammar (choices Rule.trailing_space [.rule .gap]) t₃ s y y := by
  have hblank : Stops " \t" s := hs.stops.mono rfl
  cases hsignals : n.signals with
  | nil =>
    exact ⟨chars "\n" ++ chars "\n", [], [], rfl, rfl,
      takes_gap (allIn_of_all rfl) (hs.stops.mono rfl),
      .star_nil fun _ => signal_failure hblank hs.signal,
      takes_trailing_space nofun (.inl rfl) hs.stops⟩
  | cons m l =>
    refine ⟨chars "\n", (m :: l).flatMap SignalLine.bytes, chars "\n", rfl, rfl,
      takes_gap (allIn_of_all rfl) ?_, takes_signals _ (stops_chars rfl) ?_,
      takes_trailing_space (allIn_of_all rfl) (.inr rfl) hs.stops⟩
    · rw [List.flatMap_cons, SignalLine.bytes]
      simp only [List.append_assoc]
      exact stops_chars rfl
    · rintro ⟨r, hr⟩
      exact absurd (List.cons.inj hr).1 (by decide)

/-- What the action for the message does. -/
theorem exists_action (hx : x.cansignals = []) :
    ∃ x', (∀ t, candbgrammar.action Rule.message t
        (n.signals.foldl (fun x n => n.apply x) (((x.pushNatural n.id).pushName
          n.name).pushNatural n.dlc)) = some x') ∧
      x'.messages = x.messages ++ n.message?.toList ∧ x'.cansignals = [] := by
  obtain ⟨signs, hfold⟩ := foldl_apply n.signals
    (((x.pushNatural n.id).pushName n.name).pushNatural n.dlc)
  rw [hfold]
  refine ⟨_, fun _ => rfl, ?_, rfl⟩
  have hid : (UInt64.ofNat n.id.value).toInt64.toUInt64.toNat = n.id.value :=
    UInt64.toNat_ofNat_of_lt (n.id.lt.trans (by decide))
  have hcansignals : (((x.pushNatural n.id).pushName n.name).pushNatural n.dlc).cansignals = [] :=
    hx
  change (if (UInt64.ofNat n.id.value).toInt64.toUInt64.toNat ≤ 0xFFFFFFFF then _ else _) = _
  rw [hid, message?, hcansignals, List.append_nil]
  split_ifs
  · rfl
  · exact (List.append_nil _).symm

/-- The message is taken and handed over. -/
theorem takes_message (hs : IsNext s) (hx : x.cansignals = []) :
    ∃ x', Takes candbgrammar (.rule .message) n.bytes s x x' ∧
      x'.messages = x.messages ++ n.message?.toList ∧ x'.cansignals = [] := by
  have hname : apart "a-zA-Z0-9'_'" " \t" := rfl
  have hdigits : apart "0-9" " \t" := rfl
  let y := ((x.pushNatural n.id).pushName n.name).pushNatural n.dlc
  obtain ⟨t₁, t₂, t₃, ht, hhead, hgap, hsignals, htrailing⟩ := n.takes_rest hs (x := y)
  obtain ⟨x', haction, hx'⟩ := n.exists_action hx
  have hbytes : n.bytes = chars "BO_" ++ (chars " " ++ (n.id.bytes ++ (chars " " ++ (n.name.bytes ++
      (chars ":" ++ (chars " " ++ (n.dlc.bytes ++ (chars " " ++ (n.transmitter.bytes ++
        (t₁ ++ (t₂ ++ t₃))))))))))) := by
    rw [bytes, ht]
  rw [hbytes]
  refine ⟨x', .rule (.seqs (takes_lit "BO_") (.seqs (takes_blank ?_) (.seqs (n.id.takes_number ?_)
    (.seqs (takes_blank ?_) (.seqs (n.name.takes_NAME ?_) (.seqs (takes_lit ":")
    (.seqs takes_one_blank (.seqs (n.dlc.takes_number ?_) (.seqs takes_one_blank
    (.seqs (n.transmitter.takes_ECU_NAME ?_) (.seqs (?_ : Takes _ _ t₁ _ _ y)
    (.seqs (?_ : Takes _ _ t₂ _ y _) (htrailing _))))))))))))) haction, hx'⟩
  all_goals try simp only [List.append_assoc]
  · exact n.id.stops hdigits
  · exact stops_chars rfl
  · exact n.name.stops hname
  · exact stops_chars rfl
  · exact stops_chars rfl
  · obtain ⟨l, rfl⟩ := List.head?_eq_some_iff.1 hhead
    exact fun c hc => Option.some.inj hc ▸
      (by decide : (10 : UInt8).toNat < 128 ∧ has "a-zA-Z0-9'_'" 10 = false)
  · exact hgap
  · exact hsignals

end MessageLines

/-- What is no number. -/
theorem number_failure (hs : Stops "-+0-9" s) :
    Parses candbgrammar (.rule .number) s x .failure x := by
  have hsign : Takes candbgrammar (opt Rule.sign) [] s x x :=
    .opt_nil (Sign.failure (hs.mono rfl))
  have hdigits : Parses candbgrammar (oom (cls "0-9")) s x .failure x :=
    (cls_failure (hs.mono rfl)).plus_failure
  have hfrac : Takes candbgrammar (opt (seqs [oom (cls "0-9"), lit "."])) [] s x x :=
    .opt_nil (hdigits.seqs_failure _)
  have hfloat : Parses candbgrammar (.rule .float) s x .failure x :=
    .rule_failure (.seqs_failure (.token_failure
      (.seqs_failure_of_takes hsign (.seqs_failure_of_takes hfrac (hdigits.seqs_failure _)))) _)
  have hinteger : Parses candbgrammar (.rule .integer) s x .failure x :=
    .rule_failure (.seqs_failure (.token_failure
      (.seqs_failure_of_takes hsign (hdigits.seqs_failure []))) _)
  exact .rule_failure (.choice_failure hfloat hinteger)

theorem message_failure (hs : IsTail s) : Parses candbgrammar (.rule .message) s x .failure x := by
  by_cases h : chars "BO_" <+: s
  · obtain ⟨r, rfl⟩ := hs.message h
    have hsplit : chars "BO_TX_BU_" ++ r = chars "BO_" ++ (chars "TX_BU_" ++ r) := rfl
    have hblank : Takes candbgrammar (zom Rule.s) [] (chars "TX_BU_" ++ r) x x :=
      takes_no_blank (stops_chars rfl)
    have hnumber : Parses candbgrammar (.rule .number) (chars "TX_BU_" ++ r) x .failure x :=
      number_failure (stops_chars rfl)
    have hrest (l : List E) := Parses.seqs_failure_of_takes hblank (hnumber.seqs_failure l)
    rw [hsplit]
    exact .rule_failure (.seqs_failure_of_takes (takes_lit "BO_") (hrest _))
  · exact .rule_failure ((lit_failure h).seqs_failure _)

theorem isNext_messages (l : List MessageLines) (hs : IsNext s) :
    IsNext (l.flatMap MessageLines.bytes ++ s) := by
  cases l with
  | nil => exact hs
  | cons n l =>
    rw [List.flatMap_cons, MessageLines.bytes]
    simp only [List.append_assoc]
    refine ⟨stops_chars rfl, ?_, ?_⟩
    · rintro ⟨r, hr⟩
      exact absurd (List.cons.inj hr).1 (by decide)
    · rintro ⟨r, hr⟩
      exact absurd (List.cons.inj hr).1 (by decide)

/-- All messages are handed over. -/
theorem takes_messages (l : List MessageLines) (hs : IsTail s) (hx : x.cansignals = []) :
    ∃ x', Takes candbgrammar (zom Rule.message) (l.flatMap MessageLines.bytes) s x x' ∧
      x'.messages = x.messages ++ l.filterMap MessageLines.message? ∧ x'.cansignals = [] := by
  induction l generalizing x with
  | nil => exact ⟨x, .star_nil fun _ => message_failure hs, (List.append_nil _).symm, hx⟩
  | cons n l ih =>
    obtain ⟨x₁, hmessage, hmessages, hcansignals⟩ :=
      n.takes_message (isNext_messages l hs.toIsNext) hx
    obtain ⟨x₂, hrest, hmessages', hcansignals'⟩ := ih hcansignals
    refine ⟨x₂, .star (by simp [MessageLines.bytes, chars]) hmessage hrest, ?_, hcansignals'⟩
    rw [hmessages', hmessages, List.append_assoc]
    cases h : n.message? <;> simp [h]

/-! ## Value tables -/

theorem takes_rows (l : List (Number × Phrase)) :
    ∃ x', Takes candbgrammar (zom Rule.number_phrase_pair) (l.flatMap rowBytes) (chars ";" ++ s)
      x x' ∧ x'.c_identifiers = x.c_identifiers := by
  induction l generalizing x with
  | nil =>
    refine ⟨x, .star_nil fun _ => .rule_failure (.seqs_failure (number_failure ?_) _), rfl⟩
    exact stops_chars rfl
  | cons row l ih =>
    have hdigits : apart "0-9" " \t" := rfl
    let y := { (x.pushNumber row.1).pushPhrase row.2 with
      phrases := x.phrases
      numbers := x.numbers }
    obtain ⟨x', hrest, hidentifiers⟩ := ih (x := y)
    have haction (t : List UInt8) : candbgrammar.action Rule.number_phrase_pair t
        ((x.pushNumber row.1).pushPhrase row.2) = some y := by
      simp only [y, SignalLine.pushNumber_eq]
      rfl
    have hrow : Takes candbgrammar (.rule .number_phrase_pair) (rowBytes row)
        (l.flatMap rowBytes ++ (chars ";" ++ s)) x y := by
      refine .rule (.seqs (row.1.takes_number ?_) (.seqs (takes_blank ?_)
        (.seqs row.2.takes_phrase (takes_blank ?_)))) haction
      · rw [List.append_assoc]
        exact stops_chars rfl
      · rw [List.append_assoc]
        exact row.2.stops rfl
      · cases l with
        | nil => exact stops_chars rfl
        | cons row' l =>
          rw [List.flatMap_cons, rowBytes, List.append_assoc, List.append_assoc]
          exact row'.1.stops hdigits ⟨rfl, rfl⟩
    refine ⟨x', .star ?_ hrow hrest, ?_⟩
    · intro hnil
      have := (List.append_eq_nil_iff.1 hnil).2
      simp [chars] at this
    · rw [hidentifiers]
      simp only [y, SignalLine.pushNumber_eq]
      rfl

theorem takes_table (n : TableLine) :
    ∃ x', Takes candbgrammar (.rule .val_entry) n.bytes s x x' := by
  have hname : apart "a-zA-Z0-9'_'" " \t" := rfl
  obtain ⟨y, hrows, hidentifiers⟩ := takes_rows (x := x.pushName n.name) n.rows
    (s := chars "\n" ++ s)
  have haction (t : List UInt8) : candbgrammar.action Rule.val_entry t y =
      some { y with c_identifiers := x.c_identifiers } := by
    change CanDBSignal.action .val_entry t y = _
    simp only [CanDBSignal.action, hidentifiers, CanDBSignal.pushName]
  refine ⟨_, .rule (.seqs (.token (.seqs (takes_lit "VAL_TABLE_") (.seqs (takes_blank ?_)
    (.seqs (n.name.takes_NAME ?_) (.seqs takes_one_blank (.seqs ?_ (takes_lit ";")))))))
    takes_endl) haction⟩
  all_goals try simp only [List.append_assoc]
  · exact n.name.stops hname
  · exact stops_chars rfl
  · exact hrows

theorem takes_tables (l : List TableLine) (hs : ¬chars "VAL_TABLE_" <+: s) :
    ∃ x', Takes candbgrammar (zom Rule.val_entry) (l.flatMap TableLine.bytes) s x x' := by
  induction l generalizing x with
  | nil =>
    exact ⟨x, .star_nil fun _ => .rule_failure (.seqs_failure (.token_failure
      ((lit_failure hs).seqs_failure _)) _)⟩
  | cons n l ih =>
    obtain ⟨y, htable⟩ := takes_table (x := x) (s := l.flatMap TableLine.bytes ++ s) n
    obtain ⟨x', hrest⟩ := ih (x := y)
    exact ⟨x', .star (by simp [TableLine.bytes, chars]) htable hrest⟩

/-- From the end of the line of the nodes on. -/
theorem takes_val_table (l : List TableLine) (hs : IsNext s) :
    ∃ t₁ t₂ t₃, t₁ ++ (t₂ ++ t₃) = l.flatMap TableLine.bytes ++ chars "\n\n" ∧
      ∃ x', Takes candbgrammar (.rule .gap) t₁ (t₂ ++ (t₃ ++ s)) x x ∧
        Takes candbgrammar (opt Rule.val_table) t₂ (t₃ ++ s) x x' ∧
        Takes candbgrammar (.rule .gap) t₃ s x' x' := by
  have hgap : Stops "\t\r\n" s := hs.stops.mono rfl
  cases l with
  | nil =>
    have hentries : Takes candbgrammar (zom Rule.val_entry) [] s x x :=
      .star_nil fun _ => .rule_failure (.seqs_failure (.token_failure
        ((lit_failure hs.table).seqs_failure _)) _)
    have hendl : Parses candbgrammar (.rule .endl) s x .failure x :=
      (cls_failure (hs.stops.mono rfl)).rule_failure
    exact ⟨chars "\n\n", [], [], rfl, x, takes_gap (allIn_of_all rfl) hgap,
      .opt_nil (.rule_failure (.seqs_failure_of_takes hentries (hendl.seqs_failure []))),
      takes_no_gap hgap⟩
  | cons n l =>
    have htable : ¬chars "VAL_TABLE_" <+: chars "\n" ++ (chars "\n" ++ s) := by
      rintro ⟨r, hr⟩
      exact absurd (List.cons.inj hr).1 (by decide)
    obtain ⟨x', hentries⟩ := takes_tables (x := x) (n :: l) htable
    refine ⟨[], (n :: l).flatMap TableLine.bytes ++ chars "\n", chars "\n", ?_, x',
      takes_no_gap ?_, .opt (.rule (.seqs hentries takes_endl) fun _ => rfl),
      takes_gap (allIn_of_all rfl) hgap⟩
    · rw [List.nil_append, List.append_assoc]
      rfl
    · rw [List.flatMap_cons, TableLine.bytes]
      simp only [List.append_assoc]
      exact stops_chars rfl

/-! ## Symbols and nodes -/

theorem NAME_failure (hs : Stops "a-zA-Z0-9'_'" s) :
    Parses candbgrammar (.rule .NAME) s x .failure x :=
  .rule_failure (cls_failure hs).plus_failure

theorem no_symbol (hs : Stops " \ta-zA-Z0-9'_'" s) :
    Takes candbgrammar (zom Rule.symbol_name) [] s x x :=
  .star_nil fun _ => .rule_failure (.seqs_failure (.token_failure
    (.seqs_failure_of_takes (takes_no_blank (hs.mono rfl))
      ((NAME_failure (hs.mono rfl)).seqs_failure []))) _)

theorem takes_symbols (l : List Name) :
    ∃ x', Takes candbgrammar (zom Rule.symbol_name)
      (l.flatMap fun n => (chars "\t" ++ n.bytes) ++ chars "\n") (chars "\n" ++ s) x x' := by
  induction l generalizing x with
  | nil => exact ⟨x, no_symbol (stops_chars rfl)⟩
  | cons n l ih =>
    have hname : apart "a-zA-Z0-9'_'" " \t" := rfl
    obtain ⟨x', hrest⟩ := ih (x := x.pushName n)
    refine ⟨x', .star (by simp [chars]) (.rule (.seqs (.token (.seqs
      (takes_blanks (allIn_of_all rfl) ?_) (n.takes_NAME ?_))) takes_endl) fun _ => rfl) hrest⟩
    · simp only [List.append_assoc]
      exact n.stops hname
    · exact stops_chars rfl

theorem takes_node_names (l : List Name) :
    ∃ x', Takes candbgrammar (zom (seqs [zom Rule.s, Rule.NAME]))
      (l.flatMap fun n => chars " " ++ n.bytes) (chars "\n" ++ s) x x' := by
  induction l generalizing x with
  | nil =>
    have hname : Parses candbgrammar (.rule .NAME) (chars "\n" ++ s) x .failure x :=
      NAME_failure (stops_chars rfl)
    have hno : Takes candbgrammar (zom Rule.s) [] (chars "\n" ++ s) x x :=
      takes_no_blank (stops_chars rfl)
    exact ⟨x, .star_nil fun _ => .seqs_failure_of_takes (t := []) hno
      (hname.seqs_failure [])⟩
  | cons n l ih =>
    have hname : apart "a-zA-Z0-9'_'" " \t" := rfl
    obtain ⟨x', hrest⟩ := ih (x := x.pushName n)
    refine ⟨x', .star (by simp [chars]) (.seqs (takes_blank ?_) (n.takes_NAME ?_)) hrest⟩
    · exact n.stops hname
    · cases l with
      | nil => exact stops_chars rfl
      | cons n' l => exact stops_chars (w := "a-zA-Z0-9'_'") (v := " ") rfl

/-- Nodes are not taken for symbols. -/
theorem bu_failure (n : Name) (s : List UInt8) :
    Parses candbgrammar (.rule .bu) (chars "BU_" ++ (chars ":" ++ (chars " " ++ (n.bytes ++ s))))
      x .failure x := by
  have hname : apart "a-zA-Z0-9'_'" " \t" ∧ apart "a-zA-Z0-9'_'" "\r\n" := ⟨rfl, rfl⟩
  have hendl : Parses candbgrammar (.rule .endl) (n.bytes ++ s) x .failure x :=
    (cls_failure (n.stops hname.2)).rule_failure
  have hno : Takes candbgrammar (zom Rule.s) [] (chars ":" ++ (chars " " ++ (n.bytes ++ s))) x x :=
    takes_no_blank (stops_chars rfl)
  exact .rule_failure (.seqs_failure (.token_failure (.seqs_failure_of_takes (takes_lit "BU_")
    (.seqs_failure_of_takes (t := []) hno (.seqs_failure_of_takes (takes_lit ":")
      (.seqs_failure_of_takes (takes_blank (n.stops hname.1)) (hendl.seqs_failure _)))))) _)

/-- `BU_:` or the like, with its symbols. -/
theorem takes_line_of_symbols {w : String} {x₁ : CanDBSignal}
    (h : Takes candbgrammar (zom Rule.symbol_name) t s x x₁) :
    Takes candbgrammar (tok (seqs [lit w, zom Rule.s, lit ":", zom Rule.s, .rule .endl,
      zom Rule.symbol_name])) (chars w ++ (chars ":" ++ (chars "\n" ++ t))) s x x₁ := by
  refine .token (.seqs (takes_lit w) (.seqs_nil (takes_no_blank ?_) (.seqs (takes_lit ":")
    (.seqs_nil (takes_no_blank ?_) (.seqs takes_endl h)))))
  all_goals
    simp only [List.append_assoc]
    exact stops_chars rfl

/-- A value table that follows an empty list of nodes is first taken for a symbol. -/
theorem bu_failure_of_table (s : List UInt8) :
    ∃ x', Parses candbgrammar (.rule .bu) (chars "BU_" ++ (chars ":" ++ (chars "\n" ++
      (chars "VAL_TABLE_" ++ (chars " " ++ s))))) x .failure x' := by
  let n : Name := ⟨chars "VAL_TABLE_", by decide, allIn_of_all rfl⟩
  have hblank : Takes candbgrammar (zom Rule.s) [] (n.bytes ++ (chars " " ++ s)) x x :=
    takes_no_blank (n.stops rfl)
  have hname : Takes candbgrammar (.rule .NAME) n.bytes (chars " " ++ s) x (x.pushName n) :=
    n.takes_NAME (stops_chars rfl)
  have hendl : Parses candbgrammar (.rule .endl) (chars " " ++ s) (x.pushName n) .failure
      (x.pushName n) := (cls_failure (stops_chars rfl)).rule_failure
  have hsymbol : Parses candbgrammar (.rule .symbol_name) (n.bytes ++ (chars " " ++ s)) x .failure
      (x.pushName n) :=
    .rule_failure (.seqs_failure_of_takes (hblank.seqs_nil (l := []) hname).token
      (hendl.seqs_failure []))
  have hstar : Takes candbgrammar (zom Rule.symbol_name) [] (n.bytes ++ (chars " " ++ s)) x
      (x.pushName n) := .star_failure (by simp [n, chars]) hsymbol
  have hline := takes_line_of_symbols (w := "BU_") (t := []) hstar
  have hend : Parses candbgrammar (.rule .endl) (n.bytes ++ (chars " " ++ s)) (x.pushName n)
      .failure (x.pushName n) := (cls_failure (n.stops rfl)).rule_failure
  refine ⟨x.pushName n, ?_⟩
  have h := Parses.rule_failure (r := Rule.bu) (.seqs_failure_of_takes hline (hend.seqs_failure []))
  simpa only [List.append_assoc, List.append_nil] using h

end EW8.Dbc

import EW8.Core.JsonGrammar
import EW8.Dbc.Parser

/-!
# The words of the DBC files

What the rules for the words do: names, numbers, signs and phrases. A word ends where a character
follows that is not one of its own (`Stops`).

* Each rule takes the word, and its action puts it on its stack (`takes_NAME`, `takes_number`,
  `takes_sign`, `takes_phrase`); a number also leaves its signs.
-/

namespace EW8.Dbc

open EW8.Core EW8.Core.JsonParser EW8.Rx Peg

variable {w : String} {c : UInt8} {t s : List UInt8} {x x' : CanDBSignal}

/-- The character is in the class. -/
def has (w : String) (c : UInt8) : Bool :=
  (ranges w.toList).any fun range => range.1 ≤ c.toNat ∧ c.toNat ≤ range.2

/-- No character of the class follows. -/
def Stops (w : String) (s : List UInt8) : Prop := ∀ c ∈ s.head?, c.toNat < 128 ∧ has w c = false

/-- A text of ASCII characters of the class. -/
def AllIn (w : String) (t : List UInt8) : Prop := ∀ c ∈ t, c.toNat < 128 ∧ has w c

theorem allIn_of_all (h : t.all fun c => c.toNat < 128 && has w c) : AllIn w t := by
  simpa [AllIn] using h

theorem decode_ascii (hc : c.toNat < 128) (s : List UInt8) :
    decode_codepoint (c :: s) = some (1, c.toNat) := by
  have h : ∀ n < 128, UInt8.ofNat n &&& 0x80 = 0 := by decide +kernel
  have hc' : c &&& 0x80 = 0 := by simpa using h c.toNat hc
  simp only [decode_codepoint, if_pos hc']

theorem parse_characterClass (hc : c.toNat < 128) :
    Terminal.parse (.characterClass (ranges w.toList)) (c :: s) =
      if has w c then .length 1 else .failure := by
  simp only [Terminal.parse, decode_ascii hc]
  rfl

theorem takes_cls (hc : c.toNat < 128) (h : has w c) : Takes candbgrammar (cls w) [c] s x x :=
  .terminal ((parse_characterClass hc).trans (if_pos h))

theorem cls_failure (h : Stops w s) : Parses candbgrammar (cls w) s x .failure x := by
  refine .terminal_failure ?_
  cases s with
  | nil => rfl
  | cons c s =>
    obtain ⟨hc, hw⟩ := h c rfl
    exact (parse_characterClass hc).trans (if_neg (by simp [hw]))

theorem takes_zom_cls (ht : AllIn w t) (hs : Stops w s) :
    Takes candbgrammar (zom (cls w)) t s x x :=
  .star_each (fun c hc _ => takes_cls (ht c hc).1 (ht c hc).2) fun _ => cls_failure hs

theorem takes_oom_cls (hne : t ≠ []) (ht : AllIn w t) (hs : Stops w s) :
    Takes candbgrammar (oom (cls w)) t s x x := by
  obtain ⟨c, t, rfl⟩ := List.exists_cons_of_ne_nil hne
  have hc := ht c List.mem_cons_self
  exact .plus (t := [c]) (takes_cls hc.1 hc.2)
    (takes_zom_cls (fun c' hc' => ht c' (List.mem_cons_of_mem c hc')) hs)

theorem takes_lit (w : String) : Takes candbgrammar (lit w) (chars w) s x x :=
  .terminal (if_pos (List.prefix_append _ _))

theorem lit_failure (h : ¬chars w <+: s) : Parses candbgrammar (lit w) s x .failure x :=
  .terminal_failure (if_neg h)

/-! ## What follows a word -/

/-- The literal does not begin in the class. -/
def beginsOutside (w v : String) : Bool :=
  (chars v).head?.any fun c => c.toNat < 128 && !has w c

/-- The characters of one class are not in another. -/
def apart (v w : String) : Bool :=
  (ranges v.toList).all fun p => (ranges w.toList).all fun q => p.2 < q.1 || q.2 < p.1

/-- The characters of one class are in another. -/
def among (v w : String) : Bool :=
  (ranges v.toList).all fun p => (ranges w.toList).any fun q => q.1 ≤ p.1 && p.2 ≤ q.2

theorem has_eq_false {v : String} (h : apart v w) (hc : has v c) : has w c = false := by
  simp only [apart, has, List.all_eq_true, List.any_eq_true, Bool.or_eq_true, decide_eq_true_eq]
    at h hc
  obtain ⟨p, hp, hle⟩ := hc
  refine List.any_eq_false.2 fun q hq => ?_
  have := h p hp q hq
  simp only [decide_eq_true_eq]
  omega

theorem has_of_among {v : String} (h : among v w) (hc : has v c) : has w c := by
  simp only [among, has, List.all_eq_true, List.any_eq_true, Bool.and_eq_true, decide_eq_true_eq]
    at h hc ⊢
  obtain ⟨p, hp, hle⟩ := hc
  obtain ⟨q, hq, hpq⟩ := h p hp
  exact ⟨q, hq, hpq.1.trans hle.1, hle.2.trans hpq.2⟩

theorem AllIn.stops {v : String} (ht : AllIn v t) (hne : t ≠ []) (h : apart v w) :
    Stops w (t ++ s) := by
  obtain ⟨c, t, rfl⟩ := List.exists_cons_of_ne_nil hne
  intro c' hc'
  obtain rfl := Option.some.inj hc'
  obtain ⟨hc, hv⟩ := ht c List.mem_cons_self
  exact ⟨hc, has_eq_false h hv⟩

theorem Stops.mono {v : String} (hs : Stops w s) (h : among v w) : Stops v s := by
  intro c hc
  obtain ⟨hlt, hw⟩ := hs c hc
  refine ⟨hlt, Bool.eq_false_iff.2 fun hv => ?_⟩
  rw [has_of_among h hv] at hw
  cases hw

theorem lit_failure_of_stops {v : String} (hs : Stops w s) (h : ¬ beginsOutside w v)
    (hv : ∃ c, chars v = [c] ∧ c.toNat < 128) : Parses candbgrammar (lit v) s x .failure x := by
  obtain ⟨c, hv, hc⟩ := hv
  refine lit_failure fun hprefix => h ?_
  obtain ⟨r, rfl⟩ := hprefix
  obtain ⟨-, hw⟩ := hs c (by rw [hv]; rfl)
  simp [beginsOutside, hv, hc, hw]

theorem stops_chars {v : String} (h : beginsOutside w v) : Stops w (chars v ++ s) := by
  unfold beginsOutside at h
  cases hv : chars v with
  | nil => simp [hv] at h
  | cons c t =>
    simp only [hv, List.head?_cons, Option.any_some, Bool.and_eq_true, decide_eq_true_eq,
      Bool.not_eq_true'] at h
    intro c' hc'
    obtain rfl := Option.some.inj hc'
    exact h

/-! ## Blanks -/

theorem takes_s (hc : c.toNat < 128) (h : has " \t" c) : Takes candbgrammar (.rule .s) [c] s x x :=
  (takes_cls hc h).rule fun _ => rfl

theorem takes_one_blank : Takes candbgrammar (.rule .s) (chars " ") s x x :=
  takes_s (c := 32) (by decide) (by decide)

theorem s_failure (h : Stops " \t" s) : Parses candbgrammar (.rule .s) s x .failure x :=
  (cls_failure h).rule_failure

theorem takes_blanks (ht : AllIn " \t" t) (hs : Stops " \t" s) :
    Takes candbgrammar (zom Rule.s) t s x x :=
  .star_each (fun c hc _ => takes_s (ht c hc).1 (ht c hc).2) fun _ => s_failure hs

theorem takes_no_blank (hs : Stops " \t" s) : Takes candbgrammar (zom Rule.s) [] s x x :=
  takes_blanks nofun hs

theorem takes_blank (hs : Stops " \t" s) : Takes candbgrammar (zom Rule.s) (chars " ") s x x :=
  takes_blanks (allIn_of_all rfl) hs

theorem takes_gap (ht : AllIn "\t\r\n" t) (hs : Stops "\t\r\n" s) :
    Takes candbgrammar (.rule .gap) t s x x :=
  (takes_zom_cls ht hs).rule fun _ => rfl

theorem takes_no_gap (hs : Stops "\t\r\n" s) : Takes candbgrammar (.rule .gap) [] s x x :=
  takes_gap nofun hs

theorem takes_endl : Takes candbgrammar (.rule .endl) (chars "\n") s x x :=
  (takes_cls (c := 10) (by decide) (by decide)).rule fun _ => rfl

/-! ## Names -/

/-- A name. -/
structure Name where
  bytes : List UInt8
  ne_nil : bytes ≠ []
  allIn : AllIn "a-zA-Z0-9'_'" bytes

namespace CanDBSignal

def pushName (n : Name) (x : CanDBSignal) : CanDBSignal :=
  { x with c_identifiers := text n.bytes :: x.c_identifiers }

end CanDBSignal

namespace Name

variable (n : Name)

theorem takes_ECU_NAME (hs : Stops "a-zA-Z0-9'_'" s) :
    Takes candbgrammar (.rule .ECU_NAME) n.bytes s x x :=
  (takes_oom_cls n.ne_nil n.allIn hs).rule fun _ => rfl

theorem takes_NAME (hs : Stops "a-zA-Z0-9'_'" s) :
    Takes candbgrammar (.rule .NAME) n.bytes s x (x.pushName n) := by
  refine (takes_oom_cls n.ne_nil n.allIn hs).rule_text rfl ?_
  have hfilter : n.bytes.filter (fun c => c ≠ '\r'.toUInt8 ∧ c ≠ '\n'.toUInt8) = n.bytes := by
    refine List.filter_eq_self.2 fun c hc => ?_
    obtain ⟨hlt, hclass⟩ := n.allIn c hc
    have h : ∀ k < 128, has "a-zA-Z0-9'_'" (UInt8.ofNat k) →
        UInt8.ofNat k ≠ '\r'.toUInt8 ∧ UInt8.ofNat k ≠ '\n'.toUInt8 := by decide +kernel
    simpa using h c.toNat hlt (by simpa using hclass)
  change CanDBSignal.action .NAME n.bytes x = _
  simp only [CanDBSignal.action, hfilter]
  rfl

end Name

/-! ## Signs -/

inductive Sign
  | plus | minus
  deriving DecidableEq, Repr

namespace Sign

/-- How it is written. -/
def bytes : Sign → List UInt8
  | plus => chars "+"
  | minus => chars "-"

end Sign

namespace CanDBSignal

def pushSign (n : Sign) (x : CanDBSignal) : CanDBSignal :=
  { x with signs := text n.bytes :: x.signs }

end CanDBSignal

namespace Sign

variable (n : Sign)

theorem takes_sign (hs : Stops "\t\r\n" s) :
    Takes candbgrammar (.rule .sign) n.bytes s x (x.pushSign n) := by
  obtain ⟨c, hbytes, hc, hclass⟩ : ∃ c, n.bytes = [c] ∧ c.toNat < 128 ∧ has "-+" c := by
    cases n
    · exact ⟨43, by decide, by decide, by decide⟩
    · exact ⟨45, by decide, by decide, by decide⟩
  obtain ⟨u, hcls⟩ : Takes candbgrammar (cls "-+") [c] s x x := takes_cls hc hclass
  obtain ⟨v, hgap⟩ : Takes candbgrammar (.rule .gap) [] s x x := takes_no_gap hs
  obtain rfl := hcls.tokens_eq_nil rfl
  obtain rfl := hgap.tokens_eq_nil rfl
  have hbody : Parses candbgrammar (Rule.body .sign) ([c] ++ s) x (.success [c] s [[c]]) x :=
    hcls.token.seq hgap
  refine ⟨[], ?_⟩
  rw [hbytes]
  have hrule := Parses.rule (r := Rule.sign) hbody
  have hconclude : candbgrammar.conclude Rule.sign x (.success [c] s [[c]]) =
      (.success [c] s [], x.pushSign n) := by
    rw [CanDBSignal.pushSign, hbytes]
    rfl
  rwa [hconclude] at hrule

theorem failure (hs : Stops "-+" s) : Parses candbgrammar (.rule .sign) s x .failure x :=
  ((cls_failure hs).token_failure.seqs_failure _).rule_failure

end Sign

/-! ## Numbers -/

theorem isDigits_of_all (h : !t.isEmpty && t.all isdigit) : IsDigits t := by
  simpa [IsDigits] using h

/-- A number with its sign, its fraction and its exponent, if it has them. -/
structure Number where
  sign : Option Sign
  int : List UInt8
  frac : Option (List UInt8)
  exp : Option (Sign × List UInt8)
  int_digits : IsDigits int
  frac_digits : ∀ t ∈ frac, IsDigits t
  exp_digits : ∀ p ∈ exp, IsDigits p.2
  lt : digitsValue int < 2 ^ 64

namespace Number

variable (n : Number)

def fracBytes : List UInt8 := (n.frac.map fun t => chars "." ++ t).getD []

def expBytes : List UInt8 := (n.exp.map fun p => chars "E" ++ (p.1.bytes ++ p.2)).getD []

/-- How it is written. -/
def bytes : List UInt8 :=
  (n.sign.map Sign.bytes).getD [] ++ (n.int ++ (n.fracBytes ++ n.expBytes))

/-- The signs in it. -/
def signs : List Sign := n.sign.toList ++ (n.exp.map Prod.fst).toList

/-- What `stoull` makes of it: the fraction and the exponent do not count. -/
def value : UInt64 :=
  if n.sign = some .minus then -UInt64.ofNat (digitsValue n.int)
  else UInt64.ofNat (digitsValue n.int)

end Number

namespace CanDBSignal

def pushNumber (n : Number) (x : CanDBSignal) : CanDBSignal :=
  let x := n.signs.foldl (fun x sign => x.pushSign sign) x
  { x with numbers := n.value.toInt64 :: x.numbers }

end CanDBSignal

theorem allIn_of_isDigits (h : IsDigits t) : AllIn "0-9" t := by
  intro c hc
  have hdigit : ∀ k < 256, isdigit (UInt8.ofNat k) →
      (UInt8.ofNat k).toNat < 128 ∧ has "0-9" (UInt8.ofNat k) := by decide +kernel
  simpa using hdigit c.toNat c.toNat_lt (by simpa using h.2 c hc)

namespace Number

variable (n : Number)

theorem takeWhile_tail : (n.fracBytes ++ n.expBytes).takeWhile isdigit = [] := by
  unfold fracBytes expBytes
  cases n.frac with
  | some t => rfl
  | none =>
    cases n.exp with
    | some p => rfl
    | none => rfl

theorem takeWhile_int : (n.int ++ (n.fracBytes ++ n.expBytes)).takeWhile isdigit = n.int := by
  rw [List.takeWhile_append_of_pos n.int_digits.2, takeWhile_tail, List.append_nil]

theorem stoull_bytes : stoull n.bytes = some n.value := by
  have hint := n.takeWhile_int
  have hne := n.int_digits.1
  have hlt := n.lt
  obtain ⟨d, ds, hds⟩ := List.exists_cons_of_ne_nil hne
  have hd : isdigit d := n.int_digits.2 d (hds ▸ List.mem_cons_self)
  have hdigit : ∀ k < 256, isdigit (UInt8.ofNat k) → isspace (UInt8.ofNat k) = false ∧
      UInt8.ofNat k ≠ '-'.toUInt8 ∧ UInt8.ofNat k ≠ '+'.toUInt8 := by decide +kernel
  obtain ⟨hspace, hminus, hplus⟩ : isspace d = false ∧ d ≠ '-'.toUInt8 ∧ d ≠ '+'.toUInt8 := by
    simpa using hdigit d.toNat d.toNat_lt (by simpa using hd)
  have hfin : ¬(n.int = [] ∨ 2 ^ 64 ≤ digitsValue n.int) := by
    rintro (h | h)
    · exact hne h
    · omega
  cases hsign : n.sign with
  | none =>
    have hbytes : n.bytes = n.int ++ (n.fracBytes ++ n.expBytes) := by
      simp [bytes, hsign]
    have hvalue : n.value = UInt64.ofNat (digitsValue n.int) := by simp [value, hsign]
    have hdrop : n.bytes.dropWhile isspace = n.bytes := by
      rw [hbytes, hds]
      simp [hspace]
    have hhead : n.bytes.head? = some d := by
      rw [hbytes, hds]
      rfl
    simp only [stoull, hdrop, hhead, Option.some.injEq, hminus, hplus, or_self, if_false]
    rw [hbytes, hint, if_neg hfin, hvalue]
  | some sg =>
    cases sg with
    | plus =>
      have hbytes : n.bytes = 43 :: (n.int ++ (n.fracBytes ++ n.expBytes)) := by
        simp only [bytes, hsign, Option.map_some, Option.getD_some]
        rfl
      have hdrop (r : List UInt8) : (43 :: r).dropWhile isspace = 43 :: r := rfl
      have hvalue : n.value = UInt64.ofNat (digitsValue n.int) := by simp [value, hsign]
      have hsome : some (43 : UInt8) = some '-'.toUInt8 ∨ some (43 : UInt8) = some '+'.toUInt8 :=
        .inr rfl
      have hplus : some (43 : UInt8) ≠ some '-'.toUInt8 := by decide
      simp only [stoull, hbytes, hdrop, List.head?_cons, if_pos hsome, List.tail_cons, hint,
        if_neg hfin, if_neg hplus, hvalue]
    | minus =>
      have hbytes : n.bytes = 45 :: (n.int ++ (n.fracBytes ++ n.expBytes)) := by
        simp only [bytes, hsign, Option.map_some, Option.getD_some]
        rfl
      have hdrop (r : List UInt8) : (45 :: r).dropWhile isspace = 45 :: r := rfl
      have hvalue : n.value = -UInt64.ofNat (digitsValue n.int) := by simp [value, hsign]
      have hsome : some (45 : UInt8) = some '-'.toUInt8 ∨ some (45 : UInt8) = some '+'.toUInt8 :=
        .inl rfl
      have hminus : some (45 : UInt8) = some '-'.toUInt8 := rfl
      simp only [stoull, hbytes, hdrop, List.head?_cons, if_pos hsome, List.tail_cons, hint,
        if_neg hfin, if_pos hminus, hvalue]

/-- What does not go on after a number. -/
abbrev after : String := "0-9.E\t\r\n"

theorem takes_digits (ht : IsDigits t) (hs : Stops "0-9" s) :
    Takes candbgrammar (oom (cls "0-9")) t s x x :=
  takes_oom_cls ht.1 (allIn_of_isDigits ht) hs

theorem stops_expBytes (hs : Stops after s) : Stops "0-9." (n.expBytes ++ s) := by
  unfold expBytes
  cases n.exp with
  | none => exact hs.mono rfl
  | some p =>
    simp only [Option.map_some, Option.getD_some, List.append_assoc]
    exact stops_chars rfl

theorem takes_own_sign :
    Takes candbgrammar (opt Rule.sign) ((n.sign.map Sign.bytes).getD [])
      (n.int ++ (n.fracBytes ++ n.expBytes) ++ s) x
      (n.sign.toList.foldl (fun x g => x.pushSign g) x) := by
  have hapart : apart "0-9" "\t\r\n" ∧ apart "0-9" "-+" := ⟨rfl, rfl⟩
  cases n.sign with
  | none =>
    refine .opt_nil (Sign.failure ?_)
    rw [List.append_assoc]
    exact (allIn_of_isDigits n.int_digits).stops n.int_digits.1 hapart.2
  | some g =>
    refine .opt (g.takes_sign ?_)
    rw [List.append_assoc]
    exact (allIn_of_isDigits n.int_digits).stops n.int_digits.1 hapart.1

theorem takes_frac (hs : Stops after s) :
    ∃ t₁ t₂, t₁ ++ t₂ = n.int ++ n.fracBytes ∧
      Takes candbgrammar (opt (Expr.seqs [oom (cls "0-9"), lit "."])) t₁
        (t₂ ++ (n.expBytes ++ s)) x x ∧
      Takes candbgrammar (oom (cls "0-9")) t₂ (n.expBytes ++ s) x x := by
  have hexp := n.stops_expBytes hs
  have hdigits : Stops "0-9" (n.expBytes ++ s) := hexp.mono rfl
  have hdot : beginsOutside "0-9." "." = false ∧ beginsOutside "0-9" "." := ⟨rfl, rfl⟩
  unfold fracBytes
  cases hfrac : n.frac with
  | none =>
    refine ⟨[], n.int, by simp, .opt_nil ?_, takes_digits n.int_digits hdigits⟩
    refine .seqs_failure_of_takes (takes_digits n.int_digits hdigits) ?_
    exact lit_failure_of_stops hexp (by simp [hdot.1]) ⟨46, by decide, by decide⟩
  | some f =>
    have hf : IsDigits f := n.frac_digits f hfrac
    refine ⟨n.int ++ chars ".", f, by simp, .opt ?_, takes_digits hf hdigits⟩
    exact .seqs (takes_digits n.int_digits (stops_chars hdot.2)) (takes_lit ".")

theorem takes_exp (hs : Stops after s) :
    Takes candbgrammar (opt (Expr.seqs [lit "E", Rule.sign, oom (cls "0-9")])) n.expBytes s x
      ((n.exp.map Prod.fst).toList.foldl (fun x g => x.pushSign g) x) := by
  unfold expBytes
  cases hexp : n.exp with
  | none =>
    refine .opt_nil (.seqs_failure ?_ _)
    exact lit_failure_of_stops hs (by decide) ⟨69, by decide, by decide⟩
  | some p =>
    have hp : IsDigits p.2 := n.exp_digits p hexp
    refine .opt (.seqs (takes_lit "E") (.seqs (p.1.takes_sign ?_) ?_))
    · exact (allIn_of_isDigits hp).stops hp.1 rfl
    · exact takes_digits hp (hs.mono rfl)

/-- A number is taken, and put on its stack, with its signs on theirs. -/
theorem takes_number (hs : Stops after s) :
    Takes candbgrammar (.rule .number) n.bytes s x (x.pushNumber n) := by
  have hsign := n.takes_own_sign (s := s) (x := x)
  obtain ⟨t₁, t₂, ht, hfrac, hint⟩ := n.takes_frac hs
    (x := n.sign.toList.foldl (fun x g => x.pushSign g) x)
  have hexp := n.takes_exp hs (x := n.sign.toList.foldl (fun x g => x.pushSign g) x)
  have hbytes : n.bytes = (n.sign.map Sign.bytes).getD [] ++ (t₁ ++ (t₂ ++ n.expBytes)) := by
    rw [← List.append_assoc t₁, ht, bytes, List.append_assoc]
  rw [← List.append_assoc n.int, ← ht] at hsign
  simp only [List.append_assoc] at hsign
  have htoken := Takes.seqs (l := [_, _]) (by simpa only [List.append_assoc] using hsign)
    (.seqs (l := [_]) (by simpa only [List.append_assoc] using hfrac) (.seqs hint hexp))
  have hgap := takes_no_gap (hs.mono rfl)
    (x := n.signs.foldl (fun x g => x.pushSign g) x)
  rw [← hbytes, ← List.foldl_append] at htoken
  have hbody := Takes.seqs (l := []) htoken.token hgap
  rw [List.append_nil] at hbody
  have hfloat : Takes candbgrammar (.rule .float) n.bytes s x
      (n.signs.foldl (fun x g => x.pushSign g) x) := hbody.rule fun _ => rfl
  refine hfloat.choice.rule_text rfl ?_
  change CanDBSignal.action .number n.bytes _ = _
  simp only [CanDBSignal.action, n.stoull_bytes]
  rfl

end Number

/-- A number without a sign, a fraction and an exponent. -/
structure Natural where
  bytes : List UInt8
  digits : IsDigits bytes
  lt : digitsValue bytes < 2 ^ 63

namespace Natural

variable (n : Natural)

def number : Number where
  sign := none
  int := n.bytes
  frac := none
  exp := none
  int_digits := n.digits
  frac_digits := nofun
  exp_digits := nofun
  lt := n.lt.trans (by decide)

def value : ℕ := digitsValue n.bytes

end Natural

namespace CanDBSignal

def pushNatural (n : Natural) (x : CanDBSignal) : CanDBSignal :=
  { x with numbers := (UInt64.ofNat n.value).toInt64 :: x.numbers }

end CanDBSignal

namespace Natural

variable (n : Natural)

theorem takes_number (hs : Stops Number.after s) :
    Takes candbgrammar (.rule .number) n.bytes s x (x.pushNatural n) := by
  have h := n.number.takes_number hs (x := x)
  have hbytes : n.number.bytes = n.bytes := by
    simp [Number.bytes, Number.fracBytes, Number.expBytes, number]
  rwa [hbytes] at h

theorem stops (h : apart "0-9" w) : Stops w (n.bytes ++ s) :=
  (allIn_of_isDigits n.digits).stops n.digits.1 h

end Natural

/-! ## Phrases -/

/-- What can be in quotes. -/
structure Phrase where
  bytes : List UInt8
  whole : Whole bytes
  quote_notMem : quote ∉ bytes

namespace Phrase

variable (n : Phrase)

/-- With the quotes. -/
def quoted : List UInt8 := chars "\"" ++ (n.bytes ++ chars "\"")

end Phrase

namespace CanDBSignal

def pushPhrase (n : Phrase) (x : CanDBSignal) : CanDBSignal :=
  { x with phrases := text n.bytes :: x.phrases }

end CanDBSignal

/-- The characters up to a quote. -/
theorem takes_unquoted (h : Whole t) (hq : quote ∉ t) :
    Takes candbgrammar (zom (Expr.seqs [npd (lit "\""), dot])) t (chars "\"" ++ s) x x := by
  induction h with
  | nil =>
    refine .star_nil fun _ => .seqs_failure ?_ _
    obtain ⟨u, h⟩ := takes_lit "\"" (s := s) (x := x)
    exact h.not
  | @char t hpos hle h ih =>
    have hne : t ≠ [] := by
      rintro rfl
      exact Nat.lt_irrefl 0 hpos
    have hdrop : quote ∉ t.drop (codepoint_length t) := fun hmem => hq (List.mem_of_mem_drop hmem)
    have hlit : ¬chars "\"" <+: t ++ (chars "\"" ++ s) := by
      rintro ⟨r, hr⟩
      obtain ⟨c, t, rfl⟩ := List.exists_cons_of_ne_nil hne
      obtain ⟨rfl, -⟩ := List.cons.inj hr
      exact hq List.mem_cons_self
    have hstep : Takes candbgrammar (Expr.seqs [npd (lit "\""), dot]) (t.take (codepoint_length t))
        (t.drop (codepoint_length t) ++ (chars "\"" ++ s)) x x := by
      have hsplit (r : List UInt8) :
          t.take (codepoint_length t) ++ (t.drop (codepoint_length t) ++ r) = t ++ r := by
        rw [← List.append_assoc, List.take_append_drop]
      refine .seqs_nil ⟨[], ?_⟩ (.terminal ?_)
      · rw [hsplit]
        exact (lit_failure hlit).not
      · have hlength : codepoint_length (t ++ (chars "\"" ++ s)) = codepoint_length t := by
          obtain ⟨c, t, rfl⟩ := List.exists_cons_of_ne_nil hne
          rfl
        rw [hsplit, List.length_take, min_eq_left hle]
        change Terminal.parse .anyCharacter _ = _
        rw [Terminal.parse, hlength, if_neg (by omega)]
    have htake : t.take (codepoint_length t) ≠ [] := by
      intro hnil
      have hlength := congrArg List.length hnil
      rw [List.length_take, min_eq_left hle, List.length_nil] at hlength
      omega
    have hstar := Takes.star htake hstep (ih hdrop)
    rwa [List.take_append_drop] at hstar

namespace Phrase

variable (n : Phrase)

theorem takes_phrase : Takes candbgrammar (.rule .phrase) n.quoted s x (x.pushPhrase n) := by
  obtain ⟨u, h⟩ : Takes candbgrammar (Expr.seqs [lit "\"",
      zom (Expr.seqs [npd (lit "\""), dot]), lit "\""]) n.quoted s x x :=
    .seqs (takes_lit "\"") (.seqs (takes_unquoted n.whole n.quote_notMem) (takes_lit "\""))
  obtain rfl := h.tokens_eq_nil rfl
  have hbody : Parses candbgrammar (Rule.body .phrase) (n.quoted ++ s) x
      (.success n.quoted s [n.quoted]) x := h.token
  have hrule := Parses.rule (r := Rule.phrase) hbody
  have hfilter : n.quoted.filter (· ≠ quote) = n.bytes := by
    have hbytes : n.bytes.filter (· ≠ quote) = n.bytes := by
      refine List.filter_eq_self.2 fun c hc => ?_
      simpa using fun heq : c = quote => n.quote_notMem (heq ▸ hc)
    rw [quoted, List.filter_append, List.filter_append, hbytes]
    exact List.append_nil n.bytes
  have haction : candbgrammar.action Rule.phrase n.quoted x = some (x.pushPhrase n) := by
    change CanDBSignal.action .phrase n.quoted x = _
    simp only [CanDBSignal.action, hfilter]
    rfl
  have hconclude : candbgrammar.conclude Rule.phrase x (.success n.quoted s [n.quoted]) =
      (.success n.quoted s [], x.pushPhrase n) := by
    simp only [Grammar.conclude, List.headD_cons, haction]
  exact ⟨[], by rwa [hconclude] at hrule⟩

end Phrase

end EW8.Dbc

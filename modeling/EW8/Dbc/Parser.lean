import EW8.Core.JsonParser
import EW8.Dbc.Grammar
import EW8.Lib.CString
import EW8.Rx.Extraction

/-!
# The parser of the DBC files

`CanDBSignal` has an action for each rule that matters. The actions work on vectors, which are used
as stacks, and are run as soon as the rule has matched; a message is handed over when its rule has.
-/

namespace EW8.Dbc

open EW8.Config (Signal)
open EW8.Core EW8.Core.JsonParser EW8.Rx Peg

/-- A string of bytes. -/
def text (s : List UInt8) : String := String.ofList (s.map fun c => Char.ofNat c.toNat)

/-- `stoull` in base 10: `none` where it throws. -/
def stoull (s : List UInt8) : Option UInt64 :=
  let s := s.dropWhile isspace
  let negative := s.head? = some '-'.toUInt8
  let s := if s.head? = some '-'.toUInt8 ∨ s.head? = some '+'.toUInt8 then s.tail else s
  let digits := s.takeWhile isdigit
  if digits = [] ∨ 2 ^ 64 ≤ digitsValue digits then none
  else if negative then some (-UInt64.ofNat (digitsValue digits))
  else some (UInt64.ofNat (digitsValue digits))

/-- A message that is handed over to `CanRxMsg`. -/
structure Message where
  id : ℕ
  name : String
  canSignalsArray : List Signal
  deriving DecidableEq, Repr

/-- A `CanDBSignal`, with the messages that it has handed over, and what it has reported as not to
    be parsed as a number. -/
structure CanDBSignal extends Stacks where
  messages : List Message
  unparsed : List String

namespace CanDBSignal

/-- The action for `message`. -/
def message (x : CanDBSignal) : Option CanDBSignal :=
  match x.c_identifiers, x.numbers with
  | name :: _, _dlc :: id :: _ =>
    let id := id.toUInt64.toNat
    let messages :=
      if id ≤ 0xFFFFFFFF then x.messages ++ [⟨id, name, x.cansignals⟩] else x.messages
    some { x with messages := messages, cansignals := [], numbers := [], c_identifiers := [] }
  | _, _ => none

/-- The actions: `none` where a vector is empty that an element is taken from. -/
def action : Rule → List UInt8 → CanDBSignal → Option CanDBSignal
  | .phrase, token, x =>
    some { x with phrases := text (token.filter (· ≠ quote)) :: x.phrases }
  | .version, _, x => some { x with phrases := x.phrases.tail }
  | .NAME, token, x =>
    let str := token.filter fun c => c ≠ '\r'.toUInt8 ∧ c ≠ '\n'.toUInt8
    some { x with c_identifiers := text str :: x.c_identifiers }
  | .number, token, x =>
    match stoull token with
    | some number => some { x with numbers := number.toInt64 :: x.numbers }
    | none => some { x with unparsed := text token :: x.unparsed }
  | .sign, token, x => some { x with signs := text token :: x.signs }
  | .signal, _, x => x.toStacks.signal.map fun p => { x with toStacks := p }
  | .message, _, x => x.message
  | .number_phrase_pair, _, x =>
    match x.phrases, x.numbers with
    | _ :: phrases, _ :: numbers => some { x with phrases := phrases, numbers := numbers }
    | _, _ => none
  | .val_entry, _, x =>
    match x.c_identifiers with
    | _ :: c_identifiers => some { x with c_identifiers := c_identifiers }
    | _ => none
  | .vals, _, x =>
    match x.numbers, x.c_identifiers with
    | _ :: numbers, _ :: c_identifiers =>
      some { x with numbers := numbers, c_identifiers := c_identifiers }
    | _, _ => none
  | _, _, x => some x

end CanDBSignal

/-- The grammar with the actions. -/
def candbgrammar : Grammar UInt8 Terminal Rule CanDBSignal := grammarWith CanDBSignal.action

/-- How deep expressions can be within each other in a text of this length. -/
def depth (length : ℕ) : ℕ := 1 + length + 8 * (112 + length + 1)

namespace CanDBSignal

/-- The text is parsed, up to the first zero. -/
def parse (extractedFile : List UInt8) (x : CanDBSignal) :
    Option (Result UInt8 × CanDBSignal) :=
  let s := untilZero extractedFile
  candbgrammar.run (depth s.length) (.rule .grammar) s x

/-- `parseDBCFileString`: a text is accepted if it matches as a whole. Nothing is said of an
    undefined end. -/
def parseDBCFileString (extractedFile : List UInt8) (x : CanDBSignal) :
    Option (Bool × CanDBSignal) :=
  match x.parse extractedFile with
  | some (.success _ rest _, x') => some (rest = [], x')
  | some (.failure, x') => some (false, x')
  | _ => none

end CanDBSignal

/-- Each `c` with `d` after it is replaced by `r`. The search goes on after that. -/
def replace (c d r : UInt8) : List UInt8 → List UInt8
  | a :: b :: s => if a = c ∧ b = d then r :: replace c d r s else a :: replace c d r (b :: s)
  | s => s

/-- What `readDBCFile` makes of the bytes of the file. -/
def extractedString (dbcFile : List UInt8) : List UInt8 :=
  replace '\\'.toUInt8 quote '\''.toUInt8 (replace '\r'.toUInt8 '\n'.toUInt8 '\n'.toUInt8 dbcFile)

/-- `processDBCFile` for the file of a protocol, which may not exist. -/
def CanDBSignal.processDBCFile (dbcFile : Option (List UInt8)) (x : CanDBSignal) :
    Option (Bool × CanDBSignal) :=
  match dbcFile with
  | some dbcFile => x.parseDBCFileString (extractedString dbcFile)
  | none => some (false, x)

/-! ## The stacks -/

/-- The vectors that the actions work on. -/
inductive Stack
  | phrases | c_identifiers | signs | numbers

namespace CanDBSignal

variable {x x' : CanDBSignal}

def height (x : CanDBSignal) : Stack → ℕ
  | .phrases => x.phrases.length
  | .c_identifiers => x.c_identifiers.length
  | .signs => x.signs.length
  | .numbers => x.numbers.length

/-- How much an action takes. -/
def pops : Rule → Stack → ℕ
  | .version, .phrases => 1
  | .signal, .phrases => 1
  | .signal, .c_identifiers => 1
  | .signal, .signs => 1
  | .signal, .numbers => 7
  | .message, .c_identifiers => 1
  | .message, .numbers => 2
  | .number_phrase_pair, .phrases => 1
  | .number_phrase_pair, .numbers => 1
  | .val_entry, .c_identifiers => 1
  | .vals, .numbers => 1
  | .vals, .c_identifiers => 1
  | _, _ => 0

/-- How much an action puts there. -/
def pushes : Rule → Stack → ℕ
  | .phrase, .phrases => 1
  | .NAME, .c_identifiers => 1
  | .number, .numbers => 1
  | .sign, .signs => 1
  | _, _ => 0

/-- `message` clears vectors, and no rule uses it but `grammar`. -/
def clears : Rule → Bool
  | .message => true
  | _ => false

def keeps : Rule → Bool
  | .message | .grammar => false
  | _ => true

/-- The report only grows. -/
theorem unparsed_ne_nil {r : Rule} {token : List UInt8} (h : action r token x = some x')
    (hx : x.unparsed ≠ []) : x'.unparsed ≠ [] := by
  unfold action at h
  split at h
  case h_6 =>
    obtain ⟨p, -, rfl⟩ := Option.map_eq_some_iff.1 h
    exact hx
  case h_7 =>
    unfold message at h
    split at h
    · obtain rfl := Option.some.inj h
      exact hx
    · cases h
  case h_4 =>
    split at h
    · obtain rfl := Option.some.inj h
      exact hx
    · obtain rfl := Option.some.inj h
      exact List.cons_ne_nil _ _
  case h_8 | h_9 | h_10 =>
    split at h
    · obtain rfl := Option.some.inj h
      exact hx
    · cases h
  all_goals
    obtain rfl := Option.some.inj h
    exact hx

theorem exists_signal {p : Stacks} (hphrases : 1 ≤ p.phrases.length)
    (hidentifiers : 1 ≤ p.c_identifiers.length) (hsigns : 1 ≤ p.signs.length)
    (hnumbers : 7 ≤ p.numbers.length) :
    ∃ cansig : Signal, p.signal = some ⟨p.phrases.tail, p.c_identifiers.tail, p.signs.tail,
      p.numbers.drop 7, cansig :: p.cansignals⟩ := by
  match p, hphrases, hidentifiers, hsigns, hnumbers with
  | ⟨_ :: _, _ :: _, _ :: _, _ :: _ :: _ :: _ :: _ :: _ :: _ :: _, _⟩, _, _, _, _ =>
    exact ⟨_, rfl⟩

/-- An action does what it is to do to the stacks, if they are high enough. -/
theorem exists_action {r : Rule} {token : List UInt8} (h : ∀ i, pops r i ≤ x.height i) :
    ∃ x', action r token x = some x' ∧
      (x'.unparsed ≠ [] ∨ clears r ∨
        ∀ i, x.height i - pops r i + pushes r i ≤ x'.height i) := by
  cases r with
  | number =>
    simp only [action]
    split
    · refine ⟨_, rfl, .inr (.inr fun i => ?_)⟩
      cases i <;> simp [height, pops, pushes]
    · exact ⟨_, rfl, .inl (List.cons_ne_nil _ _)⟩
  | signal =>
    obtain ⟨cansig, hsignal⟩ :=
      exists_signal (h .phrases) (h .c_identifiers) (h .signs) (h .numbers)
    simp only [action, hsignal]
    refine ⟨_, rfl, .inr (.inr fun i => ?_)⟩
    cases i <;> simp [height, pops, pushes]
  | message =>
    obtain ⟨name, c_identifiers, hnames⟩ := List.exists_cons_of_length_pos (h .c_identifiers)
    have hlength : 2 ≤ x.numbers.length := h .numbers
    obtain ⟨dlc, l, hnumbers⟩ := List.exists_cons_of_length_pos (Nat.zero_lt_of_lt hlength)
    rw [hnumbers, List.length_cons] at hlength
    obtain ⟨id, numbers, rfl⟩ := List.exists_cons_of_length_pos (Nat.le_of_succ_le_succ hlength)
    simp only [action, message, hnames, hnumbers]
    exact ⟨_, rfl, .inr (.inl rfl)⟩
  | number_phrase_pair =>
    obtain ⟨phrase, phrases, hphrases⟩ := List.exists_cons_of_length_pos (h .phrases)
    obtain ⟨number, numbers, hnumbers⟩ := List.exists_cons_of_length_pos (h .numbers)
    simp only [action, hphrases, hnumbers]
    refine ⟨_, rfl, .inr (.inr fun i => ?_)⟩
    cases i <;> simp [height, pops, pushes, hphrases, hnumbers]
  | val_entry =>
    obtain ⟨name, c_identifiers, hnames⟩ := List.exists_cons_of_length_pos (h .c_identifiers)
    simp only [action, hnames]
    refine ⟨_, rfl, .inr (.inr fun i => ?_)⟩
    cases i <;> simp [height, pops, pushes, hnames]
  | vals =>
    obtain ⟨name, c_identifiers, hnames⟩ := List.exists_cons_of_length_pos (h .c_identifiers)
    obtain ⟨number, numbers, hnumbers⟩ := List.exists_cons_of_length_pos (h .numbers)
    simp only [action, hnames, hnumbers]
    refine ⟨_, rfl, .inr (.inr fun i => ?_)⟩
    cases i <;> simp [height, pops, pushes, hnames, hnumbers]
  | _ =>
    refine ⟨_, rfl, .inr (.inr fun i => ?_)⟩
    cases i <;> simp [height, pops, pushes]

theorem balanced : Balanced candbgrammar Terminal.isAscii Whole (fun x => x.unparsed ≠ []) height
    pops pushes pushes clears keeps := by
  have h : ∀ r ∈ Rule.all, ∀ i ∈ [Stack.phrases, .c_identifiers, .signs, .numbers],
      pops r i ≤ r.body.gain keeps pushes i ∧
      pushes r i ≤ if clears r then 0 else r.body.gain keeps pushes i - pops r i + pushes r i := by
    decide +kernel
  have hkeeps : ∀ r ∈ Rule.all, keeps r → clears r = false ∧ r.body.uses keeps := by
    decide +kernel
  have hmem (i : Stack) : i ∈ [Stack.phrases, .c_identifiers, .signs, .numbers] := by
    cases i <;> simp
  exact ⟨Rule.within_body, fun a s _ => read_ne_undefined, fun a s t s' u => whole_of_read,
    fun r t x x' => unparsed_ne_nil, fun r t x => exists_action,
    fun r i => (h r r.mem_all i (hmem i)).1, fun r i => (h r r.mem_all i (hmem i)).2,
    fun r => hkeeps r r.mem_all⟩

theorem exists_parse_eq (x : CanDBSignal) (extractedFile : List UInt8) :
    ∃ o x', x.parse extractedFile = some (o, x') := by
  obtain ⟨p, hparse⟩ := (terminating action).exists_run (n := 8) (e := .rule .grammar)
    (s := untilZero extractedFile) (k := depth (untilZero extractedFile).length - 1) (by decide) rfl
    le_rfl (by unfold depth Expr.size; omega) x
  exact ⟨p.1, p.2, hparse⟩

end CanDBSignal

end EW8.Dbc

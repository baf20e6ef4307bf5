import EW8.Core.Text
import EW8.Lib.Peg

/-!
# The grammar of the DBC files

The rules by which the DBC files are parsed, which are parsing expressions over bytes. The terminals
are those of the parser library: a literal, a class of characters, and any character; the characters
are in UTF-8. What a class makes of a byte that begins no character is not defined, as it compares a
code that has not been set, nor is any character that is cut off by the end of the text.

* The parse of a text ends, with a depth that is linear in its length (`terminating`);
* in a text of whole characters, the terminals are defined (`Whole`).
-/

namespace EW8.Dbc

open EW8.Core Peg
open Peg.Expr (seqs choices)

/-! ## Terminals -/

/-- How long the character is that a byte begins: 0 for a byte that begins none. -/
def length (b : UInt8) : ℕ :=
  if b &&& 0x80 = 0 then 1
  else if b &&& 0xE0 = 0xC0 then 2
  else if b &&& 0xF0 = 0xE0 then 3
  else if b &&& 0xF8 = 0xF0 then 4
  else 0

/-- `codepoint_length`. -/
def codepoint_length : List UInt8 → ℕ
  | [] => 0
  | b :: _ => length b

/-- `decode_codepoint`: how many bytes, and the code. -/
def decode_codepoint : List UInt8 → Option (ℕ × ℕ)
  | [] => none
  | b :: s =>
    if b &&& 0x80 = 0 then some (1, b.toNat)
    else if b &&& 0xE0 = 0xC0 then
      match s with
      | c :: _ => some (2, (b &&& 0x1F).toNat <<< 6 ||| (c &&& 0x3F).toNat)
      | _ => none
    else if b &&& 0xF0 = 0xE0 then
      match s with
      | c :: d :: _ =>
        some (3, (b &&& 0x0F).toNat <<< 12 ||| (c &&& 0x3F).toNat <<< 6 ||| (d &&& 0x3F).toNat)
      | _ => none
    else if b &&& 0xF8 = 0xF0 then
      match s with
      | c :: d :: e :: _ =>
        some (4, (b &&& 0x07).toNat <<< 18 ||| (c &&& 0x3F).toNat <<< 12 |||
          (d &&& 0x3F).toNat <<< 6 ||| (e &&& 0x3F).toNat)
      | _ => none
    else none

/-- `LiteralString`, `CharacterClass` and `AnyCharacter`. -/
inductive Terminal
  | literalString (lit : List UInt8)
  | characterClass (ranges : List (ℕ × ℕ))
  | anyCharacter
  deriving DecidableEq, Repr

/-- Their `parse`. -/
def Terminal.parse : Terminal → List UInt8 → Match
  | literalString lit, s => if lit <+: s then .length lit.length else .failure
  | characterClass _, [] => .failure
  | characterClass ranges, s =>
    match decode_codepoint s with
    | some (len, cp) =>
      if ranges.any fun range => range.1 ≤ cp ∧ cp ≤ range.2 then .length len else .failure
    | none => .undefined
  | anyCharacter, s => if codepoint_length s < 1 then .failure else .length (codepoint_length s)

/-- The ranges of a class, as it is written. -/
def ranges : List Char → List (ℕ × ℕ)
  | c :: '-' :: d :: s => (c.toNat, d.toNat) :: ranges s
  | c :: s => (c.toNat, c.toNat) :: ranges s
  | [] => []

/-! ## Rules -/

/-- The rules, with `gap` for `_`. -/
inductive Rule
  | grammar | spacing | ns_comment | version | ns | bs | bu | bu_sl | val_table | message
  | bo_tx_bu | cm | cm_bu | cm_bo | cm_sg | ba_def_str | ba_def_num | ba_def_enum | ba_def_def
  | ba | ba_bu | ba_bo | ba_sg | ba_def_rel | ba_def_def_rel | ba_rel | vals | comment | sig_val
  | signal | val_entry | number_phrase_pair | phrase | sign | NAME | ECU_NAME | ENUM_VAL | number
  | integer | float | symbol_name | mux | mux_ndx | eof | s | endl | trailing_space | gap
  deriving DecidableEq, Repr

/-- The expressions of the grammar. -/
abbrev E := Expr Terminal Rule

instance : Coe Rule E := ⟨.rule⟩

def lit (s : String) : E := .terminal (.literalString (chars s))

def cls (s : String) : E := .terminal (.characterClass (ranges s.toList))

def dot : E := .terminal .anyCharacter

def zom (e : E) : E := .star e

def oom (e : E) : E := .plus e

def opt (e : E) : E := Expr.opt e

def npd (e : E) : E := .not e

def tok (e : E) : E := .token e

namespace Rule

/-- `(< 'BA_DEF_' s* (('BO_' / 'SG_' / 'BU_') s*)? phrase s* … > (endl / s* comment)) / comment`. -/
def ba_def_of (l : List E) : E :=
  choices
    (seqs [tok (seqs ([lit "BA_DEF_", zom s,
      opt (seqs [choices (lit "BO_") [lit "SG_", lit "BU_"], zom s]), phrase, zom s] ++ l)),
      choices endl [seqs [zom s, comment]]])
    [comment]

/-- `word (!endl .)* endl`. -/
def line (word : String) : E := seqs [lit word, zom (seqs [npd endl, dot]), endl]

/-- What there is in `grammar` after the messages. -/
def sections : E :=
  seqs [gap, zom bo_tx_bu, gap, zom cm, zom cm_bu, gap,
    zom (choices (seqs [cm_bo, gap]) [seqs [cm_sg, gap]]), gap,
    zom (choices ba_def_str [ba_def_num, ba_def_enum, ba_def_rel]), gap,
    zom (choices ba_def_def [ba_def_def_rel]), gap, zom ba, gap, zom ba_bu, gap, zom ba_bo, gap,
    zom ba_sg, gap, zom ba_rel, zom vals, zom sig_val, gap, eof]

/-- What there is in `signal` after its size. -/
def signal_values : E :=
  seqs [lit "@", number, sign, zom s, lit "(", number, lit ",", zom s, number, lit ")", zom s,
    lit "[", number, lit "|", number, lit "]", zom s, phrase, zom s, ECU_NAME,
    zom (seqs [lit ",", ECU_NAME])]

/-- The expression of a rule. -/
def body : Rule → E
  | grammar => seqs [spacing, gap, version, gap, zom comment, ns_comment, opt bs, gap,
      opt (choices bu [bu_sl]), gap, opt val_table, gap, zom message, sections]
  | spacing => zom (choices s [comment])
  | ns_comment => seqs [opt (choices (opt ns) [comment]), zom endl]
  | version => seqs [tok (seqs [lit "VERSION", zom s, phrase]), endl]
  | ns => seqs [tok (seqs [lit "NS_", zom s, lit ":", zom s, endl, zom symbol_name]), endl]
  | bs => seqs [tok (seqs [lit "BS_", zom s, lit ":", zom s, endl, zom symbol_name]), endl]
  | bu => seqs [tok (seqs [lit "BU_", zom s, lit ":", zom s, endl, zom symbol_name]), endl]
  | bu_sl => seqs [tok (seqs [lit "BU_", zom s, lit ":", zom (seqs [zom s, NAME])]), endl]
  | val_table => seqs [zom val_entry, endl]
  | message => seqs [lit "BO_", zom s, number, zom s, NAME, lit ":", s, number, s, ECU_NAME, gap,
      zom signal, choices trailing_space [gap]]
  | bo_tx_bu => seqs [tok (seqs [lit "BO_TX_BU_", zom s, number, zom s, lit ":", zom s,
      ECU_NAME, zom (seqs [lit ",", ECU_NAME]), lit ";"]), endl]
  | cm => seqs [tok (seqs [lit "CM_", zom s, phrase]), lit ";", endl]
  | cm_bu => seqs [tok (seqs [lit "CM_", zom s, lit "BU_", zom s, NAME, zom s, phrase]),
      lit ";", endl]
  | cm_bo => seqs [tok (seqs [lit "CM_", zom s, lit "BO_", zom s, integer, zom s, phrase]),
      lit ";", endl]
  | cm_sg => seqs [tok (seqs [lit "CM_", zom s, lit "SG_", zom s, integer, zom s, NAME,
      zom s, phrase]), lit ";", zom endl]
  | ba_def_str => ba_def_of [lit "STRING", zom s, lit ";"]
  | ba_def_num => ba_def_of [choices (lit "INT") [lit "HEX"], zom s, number, zom s, number,
      lit ";"]
  | ba_def_enum => ba_def_of [lit "ENUM", zom s, ENUM_VAL, lit ";"]
  | ba_def_def => seqs [tok (seqs [lit "BA_DEF_DEF_", zom s, phrase, zom s,
      choices phrase [number], lit ";"]), endl]
  | ba => seqs [tok (seqs [lit "BA_", zom s, phrase, zom s, choices phrase [number], lit ";"]),
      endl]
  | ba_bu => seqs [tok (seqs [lit "BA_", zom s, phrase, zom s, lit "BU_", zom s, NAME, zom s,
      choices phrase [number], lit ";"]), endl]
  | ba_bo => seqs [tok (seqs [lit "BA_", zom s, phrase, zom s, lit "BO_", zom s, number,
      zom s, choices phrase [number], zom s, lit ";"]), endl]
  | ba_sg => seqs [tok (seqs [lit "BA_", zom s, phrase, zom s, lit "SG_", zom s, number,
      zom s, NAME, zom s, number, zom s, lit ";"]), endl]
  | ba_def_rel => line "BA_DEF_REL_"
  | ba_def_def_rel => line "BA_DEF_DEF_REL_"
  | ba_rel => line "BA_REL_"
  | vals => seqs [tok (seqs [lit "VAL_", zom s, number, zom s, NAME, zom s,
      zom number_phrase_pair, lit ";"]), zom endl]
  | comment => line "//"
  | sig_val => seqs [tok (seqs [lit "SIG_VALTYPE_", zom s, number, zom s, NAME, zom s, lit ":",
      zom s, number, lit ";"]), endl]
  | signal => seqs [tok (seqs [zom s, lit "SG_", zom s, NAME, zom s, opt mux, opt mux_ndx, zom s,
      lit ":", zom s, number, lit "|", number, signal_values]), endl]
  | val_entry => seqs [tok (seqs [lit "VAL_TABLE_", zom s, NAME, s, zom number_phrase_pair,
      lit ";"]), endl]
  | number_phrase_pair => seqs [number, zom s, phrase, zom s]
  | phrase => tok (seqs [lit "\"", zom (seqs [npd (lit "\""), dot]), lit "\""])
  | sign => seqs [tok (cls "-+"), gap]
  | NAME => oom (cls "a-zA-Z0-9'_'")
  | ECU_NAME => oom (cls "a-zA-Z0-9'_'")
  | ENUM_VAL => oom (seqs [npd (lit ";"), dot])
  | number => choices float [integer]
  | integer => seqs [tok (seqs [opt sign, oom (cls "0-9")]), gap]
  | float => seqs [tok (seqs [opt sign, opt (seqs [oom (cls "0-9"), lit "."]), oom (cls "0-9"),
      opt (seqs [lit "E", sign, oom (cls "0-9")])]), gap]
  | symbol_name => seqs [tok (seqs [zom s, NAME]), endl]
  | mux => lit "M"
  | mux_ndx => seqs [lit "m", tok (oom (cls "0-9"))]
  | eof => npd dot
  | s => cls " \t"
  | endl => cls "\r\n"
  | trailing_space => seqs [zom (lit " "), gap]
  | gap => zom (cls "\t\r\n")

end Rule

/-! ## Termination -/

namespace Rule

/-- Rules only use rules of lower ranks. -/
def rank : Rule → ℕ
  | s | endl | gap | mux | mux_ndx | NAME | ECU_NAME | ENUM_VAL | phrase | eof => 0
  | sign | comment | ba_def_rel | ba_def_def_rel | ba_rel | symbol_name | trailing_space
  | version | bu_sl | cm | cm_bu => 1
  | integer | float | spacing | ns | bs | bu => 2
  | number | ns_comment | cm_bo | cm_sg => 3
  | number_phrase_pair | signal | bo_tx_bu | ba_def_str | ba_def_num | ba_def_enum | ba_def_def
  | ba | ba_bu | ba_bo | ba_sg | sig_val => 4
  | val_entry | vals | message => 5
  | val_table => 6
  | grammar => 7

/-- Each match of the rule takes a byte. -/
def takes : Rule → Bool
  | spacing | ns_comment | trailing_space | gap | eof => false
  | _ => true

def all : List Rule :=
  [grammar, spacing, ns_comment, version, ns, bs, bu, bu_sl, val_table, message, bo_tx_bu, cm,
    cm_bu, cm_bo, cm_sg, ba_def_str, ba_def_num, ba_def_enum, ba_def_def, ba, ba_bu, ba_bo, ba_sg,
    ba_def_rel, ba_def_def_rel, ba_rel, vals, comment, sig_val, signal, val_entry,
    number_phrase_pair, phrase, sign, NAME, ECU_NAME, ENUM_VAL, number, integer, float,
    symbol_name, mux, mux_ndx, eof, s, endl, trailing_space, gap]

theorem mem_all (r : Rule) : r ∈ all := by
  cases r <;> decide

end Rule

/-- A literal is not empty, and of ASCII characters. -/
def Terminal.isAscii : Terminal → Bool
  | literalString lit => !lit.isEmpty && lit.all fun c => c.toNat < 128
  | _ => true

theorem Rule.within_body (r : Rule) : r.body.within Terminal.isAscii := by
  have h : ∀ r ∈ all, r.body.within Terminal.isAscii := by decide +kernel
  exact h r r.mem_all

theorem decode_codepoint_eq_some {s : List UInt8} {n cp : ℕ}
    (h : decode_codepoint s = some (n, cp)) :
    0 < n ∧ n ≤ s.length ∧ codepoint_length s = n := by
  cases s with
  | nil => cases h
  | cons b s =>
    have hlength : codepoint_length (b :: s) = length b := rfl
    rw [hlength, List.length_cons]
    simp only [decode_codepoint] at h
    simp only [length]
    split_ifs at h ⊢ with h1 h2 h3 h4
    · obtain ⟨rfl, -⟩ := Prod.mk.inj (Option.some.inj h)
      exact ⟨Nat.one_pos, Nat.le_add_left 1 _, rfl⟩
    all_goals
      split at h
      · obtain ⟨rfl, -⟩ := Prod.mk.inj (Option.some.inj h)
        exact ⟨Nat.succ_pos _, by simp only [List.length_cons]; omega, rfl⟩
      · cases h

theorem Terminal.parse_ne {a : Terminal} (ha : a.isAscii) (s : List UInt8) :
    a.parse s ≠ .length 0 := by
  intro h
  cases a with
  | literalString lit =>
    simp only [Terminal.parse] at h
    split at h
    · have hlit : lit = [] := List.length_eq_zero_iff.1 (Match.length.inj h)
      simp [Terminal.isAscii, hlit] at ha
    · cases h
  | characterClass ranges =>
    cases s with
    | nil => cases h
    | cons b s =>
      simp only [Terminal.parse] at h
      split at h
      · rename_i hdecode
        split at h
        · exact absurd (Match.length.inj h) (decode_codepoint_eq_some hdecode).1.ne'
        · cases h
      · cases h
  | anyCharacter =>
    simp only [Terminal.parse] at h
    split at h
    · cases h
    · rename_i hpos
      exact hpos (Nat.lt_one_iff.2 (Match.length.inj h))

/-- The grammar with any actions. -/
def grammarWith {σ : Type*} (action : Rule → List UInt8 → σ → Option σ) :
    Grammar UInt8 Terminal Rule σ :=
  ⟨Terminal.parse, Rule.body, action⟩

theorem terminating {σ : Type*} (action : Rule → List UInt8 → σ → Option σ) :
    Terminating (grammarWith action) Terminal.isAscii Rule.takes Rule.rank 112 := by
  have h : ∀ r ∈ Rule.all, (r.takes → r.body.consumes Terminal.isAscii Rule.takes) ∧
      r.body.advances Terminal.isAscii Rule.takes ∧ r.body.under Rule.rank r.rank ∧
      r.body.size ≤ 112 := by
    decide +kernel
  exact ⟨fun a s ha => a.parse_ne ha s, fun r => (h r r.mem_all).1, fun r => (h r r.mem_all).2.1,
    fun r => (h r r.mem_all).2.2.1, fun r => (h r r.mem_all).2.2.2⟩

/-! ## Texts of whole characters -/

/-- Each character is as long as its first byte says. -/
inductive Whole : List UInt8 → Prop
  | nil : Whole []
  | char {s : List UInt8} (hpos : 0 < codepoint_length s) (hle : codepoint_length s ≤ s.length)
    (h : Whole (s.drop (codepoint_length s))) : Whole s

namespace Whole

variable {s lit : List UInt8} {b : UInt8}

theorem codepoint_length_le (h : Whole s) : codepoint_length s ≤ s.length := by
  cases h with
  | nil => exact le_rfl
  | char _ hle _ => exact hle

theorem length_of_lt (hb : b.toNat < 128) : length b = 1 := by
  have h : ∀ n < 128, length (UInt8.ofNat n) = 1 := by decide +kernel
  simpa using h b.toNat hb

theorem cons_iff (hb : b.toNat < 128) : Whole (b :: s) ↔ Whole s := by
  have hlength : codepoint_length (b :: s) = 1 := length_of_lt hb
  constructor
  · intro h
    cases h with
    | char _ _ h => simpa only [hlength, List.drop_one, List.tail_cons] using h
  · intro h
    refine .char (by omega) (by rw [hlength]; exact Nat.le_add_left 1 _) ?_
    simpa only [hlength, List.drop_one, List.tail_cons] using h

/-- ASCII characters are whole. -/
theorem append_iff (hlit : ∀ c ∈ lit, c.toNat < 128) : Whole (lit ++ s) ↔ Whole s := by
  induction lit with
  | nil => rfl
  | cons b lit ih =>
    rw [List.cons_append, cons_iff (hlit b List.mem_cons_self),
      ih fun c hc => hlit c (List.mem_cons_of_mem b hc)]

theorem drop_codepoint_length (h : Whole s) : Whole (s.drop (codepoint_length s)) := by
  cases h with
  | nil => exact .nil
  | char _ _ h => exact h

theorem exists_decode_codepoint (h : Whole s) (hs : s ≠ []) :
    ∃ cp, decode_codepoint s = some (codepoint_length s, cp) := by
  obtain ⟨b, s, rfl⟩ := List.exists_cons_of_ne_nil hs
  have hpos : 0 < length b := by
    cases h with
    | char hpos _ _ => exact hpos
  have hle : length b ≤ s.length + 1 := h.codepoint_length_le
  change ∃ cp, decode_codepoint (b :: s) = some (length b, cp)
  simp only [decode_codepoint]
  simp only [length] at hpos hle ⊢
  split_ifs at hpos hle ⊢ with h1 h2 h3 h4
  · exact ⟨_, rfl⟩
  · match s, hle with
    | _ :: _, _ => exact ⟨_, rfl⟩
  · match s, hle with
    | _ :: _ :: _, _ => exact ⟨_, rfl⟩
  · match s, hle with
    | _ :: _ :: _ :: _, _ => exact ⟨_, rfl⟩
  · exact absurd hpos (Nat.lt_irrefl 0)

end Whole

section

open Whole

variable {σ : Type*} {action : Rule → List UInt8 → σ → Option σ} {a : Terminal}
  {s t s' : List UInt8} {u : List (List UInt8)}

theorem read_ne_undefined (hs : Whole s) : (grammarWith action).read a s ≠ .undefined := by
  refine Grammar.read_ne_undefined ?_ ?_
  · change a.parse s ≠ .undefined
    cases a with
    | literalString lit =>
      simp only [Terminal.parse]
      split <;> nofun
    | characterClass ranges =>
      cases s with
      | nil => nofun
      | cons b s =>
        obtain ⟨cp, hcp⟩ := hs.exists_decode_codepoint (List.cons_ne_nil b s)
        simp only [Terminal.parse, hcp]
        split <;> nofun
    | anyCharacter =>
      simp only [Terminal.parse]
      split <;> nofun
  · intro n hn
    change a.parse s = .length n at hn
    cases a with
    | literalString lit =>
      simp only [Terminal.parse] at hn
      split at hn
      · rename_i hprefix
        exact (Match.length.inj hn) ▸ hprefix.length_le
      · cases hn
    | characterClass ranges =>
      cases s with
      | nil => cases hn
      | cons b s =>
        obtain ⟨cp, hcp⟩ := hs.exists_decode_codepoint (List.cons_ne_nil b s)
        simp only [Terminal.parse, hcp] at hn
        split at hn
        · exact (Match.length.inj hn) ▸ hs.codepoint_length_le
        · cases hn
    | anyCharacter =>
      simp only [Terminal.parse] at hn
      split at hn
      · cases hn
      · exact (Match.length.inj hn) ▸ hs.codepoint_length_le

theorem whole_of_read (ha : a.isAscii) (hs : Whole s)
    (h : (grammarWith action).read a s = .success t s' u) : Whole s' := by
  obtain ⟨n, hn, -, -, rfl, -⟩ := Grammar.read_eq_success h
  change a.parse s = .length n at hn
  cases a with
  | literalString lit =>
    simp only [Terminal.parse] at hn
    split at hn
    · rename_i hprefix
      obtain rfl := Match.length.inj hn
      obtain ⟨r, rfl⟩ := hprefix
      rw [List.drop_left]
      simp only [Terminal.isAscii, Bool.and_eq_true, List.all_eq_true, decide_eq_true_eq] at ha
      exact (append_iff ha.2).1 hs
    · cases hn
  | characterClass ranges =>
    cases s with
    | nil => cases hn
    | cons b s =>
      simp only [Terminal.parse] at hn
      split at hn
      · rename_i hdecode
        split at hn
        · obtain rfl := Match.length.inj hn
          rw [← (decode_codepoint_eq_some hdecode).2.2]
          exact hs.drop_codepoint_length
        · cases hn
      · cases hn
  | anyCharacter =>
    simp only [Terminal.parse] at hn
    split at hn
    · cases hn
    · obtain rfl := Match.length.inj hn
      exact hs.drop_codepoint_length

end

end EW8.Dbc

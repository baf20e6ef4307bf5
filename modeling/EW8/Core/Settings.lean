import EW8.Core.Text
import EW8.Lib.SortedMap

/-!
# Settings

`sync` writes the map of a `Settings` in the order of its keys, with a header before an entry whose
section is another than that of the entry before it; `load` puts every entry into the section of the
last header. There is no header of the empty section, so that an ungrouped key after a grouped one
is read back within the section of the latter.

* A file written by `sync` is read as the entries `readBack` (`loadLines_dump`);
* it is read back as the map that was written just if every ungrouped key is before every grouped
  one (`load_sync_iff`).
-/

namespace EW8.Core

open SortedMap
open scoped SortedMap

/-- The character `/`. -/
def slash : UInt8 := '/'.toUInt8

/-- The character `=`. -/
def equals : UInt8 := '='.toUInt8

/-- The end of a line. -/
def newline : UInt8 := '\n'.toUInt8

/-- The lines that `getline` reads from a file, one after the other. -/
def lines : List UInt8 → List (List UInt8)
  | [] => []
  | c :: s =>
    if c = newline then [] :: lines s
    else match lines s with
      | [] => [[c]]
      | line :: rest => (c :: line) :: rest

/-- The blanks around a line. -/
def lineBlanks : List UInt8 := chars " \t\r\n"

/-- The blanks around a `=`. -/
def blanks : List UInt8 := chars " \t"

/-- Settings, and whether they have been changed since they were last written. -/
structure Settings where
  values_ : List (List UInt8 × List UInt8)
  /-- What is put before a key. -/
  currentGroup_ : List UInt8
  modified_ : Bool
  /-- `std::map` keeps its entries in the order of the keys. -/
  sorted : Sorted values_

/-- The part of a file that has been read: the section of the last header, with a `/` behind it. -/
structure Loading where
  currentSection : List UInt8
  values_ : List (List UInt8 × List UInt8)
  sorted : Sorted values_

/-- `values_[currentSection + key] = val`. -/
def Loading.assign (s : Loading) (key val : List UInt8) : Loading where
  currentSection := s.currentSection
  values_ := SortedMap.assign (s.currentSection ++ key) val s.values_
  sorted := s.sorted.assign

/-- One line of a file. -/
def Loading.line (s : Loading) (text : List UInt8) : Loading :=
  let line := trimEnd lineBlanks (trimStart lineBlanks text)
  match line with
  | [] => s
  | c :: rest =>
    if c = '#'.toUInt8 ∨ c = ';'.toUInt8 then s
    else if c = '['.toUInt8 ∧ line.getLast? = some ']'.toUInt8 then
      ⟨rest.dropLast ++ [slash], s.values_, s.sorted⟩
    else if equals ∈ line then
      let key := line.takeWhile (· ≠ equals)
      let key := if trimEnd blanks key = [] then key else trimEnd blanks key
      let val := (line.dropWhile (· ≠ equals)).tail
      let val := if trimStart blanks val = [] then val else trimStart blanks val
      s.assign key val
    else s

/-- Section and key, at the last `/`. -/
def splitKey (key : List UInt8) : List UInt8 × List UInt8 :=
  if slash ∈ key then ((key.rdropWhile (· ≠ slash)).dropLast, key.rtakeWhile (· ≠ slash))
  else ([], key)

/-- What `sync` writes before an entry of `section'`, in the section `currentSection`. -/
def header (currentSection section' : List UInt8) : List UInt8 :=
  if section' ≠ currentSection ∧ section' ≠ [] then chars "\n[" ++ section' ++ chars "]\n" else []

/-- What `sync` writes from some entry on. -/
def dump : List UInt8 → List (List UInt8 × List UInt8) → List UInt8
  | _, [] => []
  | currentSection, (key, value) :: values =>
    header currentSection (splitKey key).1 ++ (splitKey key).2 ++ equals :: value ++
      newline :: dump (splitKey key).1 values

namespace Settings

/-- Before the file is read. -/
def empty : Settings where
  values_ := []
  currentGroup_ := []
  modified_ := false
  sorted := List.Pairwise.nil

/-- `setValue`. -/
def setValue (s : Settings) (key value : List UInt8) : Settings where
  values_ := assign (s.currentGroup_ ++ key) value s.values_
  currentGroup_ := s.currentGroup_
  modified_ := true
  sorted := s.sorted.assign

/-- `value`. -/
def value (s : Settings) (key defaultValue : List UInt8) : List UInt8 :=
  (find? (s.currentGroup_ ++ key) s.values_).getD defaultValue

/-- A value that has been set is found. -/
theorem value_setValue (s : Settings) (key value defaultValue : List UInt8) :
    (s.setValue key value).value key defaultValue = value := by
  rw [Settings.value, setValue, find?_assign_self, Option.getD_some]

/-- The values of the other keys are as before. -/
theorem value_setValue_of_ne (s : Settings) {key k : List UInt8} (h : k ≠ key)
    (value defaultValue : List UInt8) :
    (s.setValue key value).value k defaultValue = s.value k defaultValue := by
  have hne : s.currentGroup_ ++ k ≠ s.currentGroup_ ++ key :=
    fun heq => h (List.append_cancel_left heq)
  rw [Settings.value, setValue, find?_assign_of_ne hne, Settings.value]

/-- `sync`: `opens` tells whether the file can be opened for writing. -/
def sync (s : Settings) (opens : Bool) (file : Option (List UInt8)) :
    Settings × Option (List UInt8) :=
  if s.modified_ ∧ opens then ({ s with modified_ := false }, some (dump [] s.values_))
  else (s, file)

/-- `load`: the file is `none` if it cannot be opened for reading. -/
def load (s : Settings) (file : Option (List UInt8)) : Settings :=
  match file with
  | none => s
  | some text =>
    let loading := (lines text).foldl Loading.line ⟨[], s.values_, s.sorted⟩
    ⟨loading.values_, s.currentGroup_, s.modified_, loading.sorted⟩

/-- The settings of a file, as they are constructed. -/
def ofFile (file : Option (List UInt8)) : Settings := empty.load file

end Settings

/-- A non-empty name of letters and digits. -/
def IsName (name : List UInt8) : Prop := name ≠ [] ∧ ∀ c ∈ name, isalnum c

instance (name : List UInt8) : Decidable (IsName name) := inferInstanceAs (Decidable (_ ∧ _))

/-- Names, grouped by `/`. -/
inductive IsKey : List UInt8 → Prop
  | name {name : List UInt8} : IsName name → IsKey name
  | group {name key : List UInt8} : IsName name → IsKey key → IsKey (name ++ slash :: key)

/-- One line without blanks around it. -/
def IsValue (value : List UInt8) : Prop := newline ∉ value ∧ Trimmed lineBlanks value

/-- What `load` makes of the entries written by `sync`, behind a header of `currentSection`. -/
def readBack : List UInt8 → List (List UInt8 × List UInt8) → List (List UInt8 × List UInt8)
  | _, [] => []
  | currentSection, (key, value) :: values =>
    if slash ∈ key then (key, value) :: readBack ((splitKey key).1 ++ [slash]) values
    else (currentSection ++ key, value) :: readBack currentSection values

/-! ### Lines -/

section

variable {l s : List UInt8}

theorem lines_append (h : newline ∉ l) : lines (l ++ newline :: s) = l :: lines s := by
  induction l with
  | nil => exact if_pos rfl
  | cons c l ih =>
    obtain ⟨hc, hl⟩ := List.ne_and_not_mem_of_not_mem_cons h
    rw [List.cons_append, lines, if_neg (Ne.symm hc), ih hl]

end

theorem blanks_subset : blanks ⊆ lineBlanks := by decide +kernel

theorem isalnum_of_mem_blanks {c : UInt8} (h : c ∈ lineBlanks) : isalnum c = false := by
  revert c
  decide +kernel

/-! ### Keys -/

section

variable {c : UInt8} {name key value k : List UInt8}

theorem IsName.not_mem (h : IsName name) (hc : isalnum c = false) : c ∉ name := by
  intro hmem
  rw [h.2 c hmem] at hc
  exact Bool.noConfusion hc

theorem IsName.trimEnd (h : IsName name) {set : List UInt8} (hset : ∀ c ∈ set, isalnum c = false) :
    trimEnd set name = name :=
  trimEnd_of_last fun _ hc hmem => h.not_mem (hset _ hmem) (List.mem_of_mem_getLast? hc)

theorem IsKey.mem (h : IsKey key) : ∀ c ∈ key, isalnum c ∨ c = slash := by
  induction h with
  | name h => exact fun c hc => .inl (h.2 c hc)
  | group h _ ih =>
    intro c hc
    rcases List.mem_append.1 hc with hc | hc
    · exact .inl (h.2 c hc)
    · rcases List.mem_cons.1 hc with rfl | hc
      · exact .inr rfl
      · exact ih c hc

theorem IsKey.not_mem (h : IsKey key) (hc : isalnum c = false) (hs : c ≠ slash) : c ∉ key := by
  intro hmem
  rcases h.mem c hmem with h | h
  · rw [hc] at h
    exact Bool.noConfusion h
  · exact hs h

theorem splitKey_of_not_mem (h : slash ∉ key) : splitKey key = ([], key) := if_neg h

theorem splitKey_append (h : slash ∉ k) : splitKey (name ++ slash :: k) = (name, k) := by
  have hk : ∀ c ∈ k, decide (c ≠ slash) = true := by
    intro c hc
    exact decide_eq_true fun heq => h (heq ▸ hc)
  rw [splitKey, if_pos (by simp), List.append_cons, List.rdropWhile, List.rtakeWhile]
  rw [List.reverse_append, List.dropWhile_append_of_pos (by simpa using hk),
    List.takeWhile_append_of_pos (by simpa using hk)]
  simp

/-- A key is a name, or there are a section and a name with `/` in between. -/
theorem IsKey.split (h : IsKey key) :
    slash ∉ key ∧ IsName key ∨
      ∃ sec name, key = sec ++ slash :: name ∧ IsName name ∧ sec ≠ [] ∧ newline ∉ sec := by
  induction h with
  | name h => exact .inl ⟨h.not_mem rfl, h⟩
  | @group name key hn hk ih =>
    rcases ih with ⟨-, h⟩ | ⟨sec, last, rfl, hl, -, hs⟩
    · exact .inr ⟨name, key, rfl, h, hn.1, hn.not_mem rfl⟩
    · refine .inr ⟨name ++ slash :: sec, last, by simp, hl, by simp, ?_⟩
      simp [hn.not_mem (c := newline) rfl, hs, show newline ≠ slash by decide]

end

/-! ### What is read back -/

section

variable {s : Loading} {sec cur name value key k h : List UInt8}
  {values entries : List (List UInt8 × List UInt8)}

theorem Loading.line_nil : s.line [] = s := rfl

/-- A header. -/
theorem Loading.line_header :
    s.line ('['.toUInt8 :: sec ++ chars "]") = ⟨sec ++ [slash], s.values_, s.sorted⟩ := by
  have htrim : Trimmed lineBlanks ('['.toUInt8 :: sec ++ chars "]") := by
    refine ⟨fun c hc => ?_, fun c hc => ?_⟩
    · rw [← Option.some.inj hc]
      decide
    · rw [List.getLast?_append] at hc
      rw [← Option.some.inj hc]
      decide
  have hlast : ('['.toUInt8 :: sec ++ chars "]").getLast? = some ']'.toUInt8 := by
    rw [List.getLast?_append]
    rfl
  rw [Loading.line, htrim.trim]
  simp only [List.cons_append] at hlast ⊢
  rw [if_neg (by decide), if_pos ⟨trivial, hlast⟩, show chars "]" = [']'.toUInt8] from rfl,
    List.dropLast_concat]

/-- An entry. -/
theorem Loading.line_entry {s : Loading} (hn : IsName name) (hv : IsValue value) :
    s.line (name ++ equals :: value) = s.assign name value := by
  obtain ⟨c, rest, rfl⟩ := List.exists_cons_of_ne_nil hn.1
  have hc : ∀ x, isalnum x = false → c ≠ x := by
    rintro x hx rfl
    exact hn.not_mem hx List.mem_cons_self
  have hmem : equals ∉ c :: rest := hn.not_mem rfl
  have htrim : Trimmed lineBlanks (c :: rest ++ equals :: value) := by
    refine ⟨fun x hx hmem => ?_, fun x hx => ?_⟩
    · exact hc x (isalnum_of_mem_blanks hmem) (Option.some.inj hx)
    · rw [List.getLast?_append, List.getLast?_cons, Option.some_or] at hx
      cases hlast : value.getLast? with
      | none =>
        rw [hlast] at hx
        rw [← Option.some.inj hx]
        decide
      | some y =>
        rw [hlast] at hx
        exact hv.2.last x (hlast.trans hx)
  have hne : ∀ x ∈ c :: rest, decide (x ≠ equals) = true :=
    fun x hx => decide_eq_true fun heq => hmem (heq ▸ hx)
  have htake : (c :: rest ++ equals :: value).takeWhile (· ≠ equals) = c :: rest := by
    rw [List.takeWhile_append_of_pos hne, List.takeWhile_cons_of_neg (by simp), List.append_nil]
  have hdrop : (c :: rest ++ equals :: value).dropWhile (· ≠ equals) = equals :: value := by
    rw [List.dropWhile_append_of_pos hne, List.dropWhile_cons_of_neg (by simp)]
  have hkey : trimEnd blanks (c :: rest) = c :: rest :=
    hn.trimEnd fun x hx => isalnum_of_mem_blanks (blanks_subset hx)
  have hval : trimStart blanks value = value :=
    trimStart_of_head fun x hx hmem => hv.2.head x hx (blanks_subset hmem)
  rw [Loading.line, htrim.trim]
  simp only [htake, hdrop, List.tail_cons, hval, hkey, ite_self]
  rw [List.cons_append]
  simp only
  rw [if_neg (by simp [hc _ (show isalnum '#'.toUInt8 = false by rfl),
      hc _ (show isalnum ';'.toUInt8 = false by rfl)]),
    if_neg fun h => hc _ (show isalnum '['.toUInt8 = false by rfl) h.1,
    if_pos (List.mem_cons_of_mem _ (List.mem_append_right _ List.mem_cons_self))]

/-- Behind a header, or in the section of the last one. -/
theorem Loading.lines_header {s : Loading} {t : List UInt8} (hne : sec ≠ []) (hsec : newline ∉ sec)
    (hs : cur ≠ [] → s.currentSection = cur ++ [slash]) :
    (lines (header cur sec ++ t)).foldl Loading.line s =
      (lines t).foldl Loading.line ⟨sec ++ [slash], s.values_, s.sorted⟩ := by
  by_cases hcur : sec = cur
  · subst hcur
    rw [header, if_neg fun h => h.1 rfl, List.nil_append, ← hs hne]
  · have hline : newline ∉ '['.toUInt8 :: sec ++ chars "]" := by
      simp [hsec, chars, show newline ≠ '['.toUInt8 by decide, show newline ≠ ']'.toUInt8 by decide]
    have ht : header cur sec ++ t =
        newline :: ('['.toUInt8 :: sec ++ chars "]") ++ newline :: t := by
      rw [header, if_pos ⟨hcur, hne⟩]
      simp [chars, newline]
    rw [ht, List.cons_append, lines, if_pos rfl, lines_append hline, List.foldl_cons,
      Loading.line_nil, List.foldl_cons, Loading.line_header]

/-- What `sync` has written is read as `readBack`. -/
theorem loadLines_dump {s : Loading} (hk : ∀ x ∈ entries, IsKey x.1 ∧ IsValue x.2)
    (hs : cur ≠ [] → s.currentSection = cur ++ [slash]) :
    ((lines (dump cur entries)).foldl Loading.line s).values_ =
      assignAll s.values_ (readBack s.currentSection entries) := by
  induction entries generalizing cur s with
  | nil => rfl
  | cons x entries ih =>
    obtain ⟨key, value⟩ := x
    obtain ⟨⟨hkey, hvalue⟩, hrest⟩ := List.forall_mem_cons.1 hk
    -- the line of the entry, without its section
    have hentry (s : Loading) {name : List UInt8} (hn : IsName name) (t : List UInt8) :
        (lines (name ++ equals :: value ++ newline :: t)).foldl Loading.line s =
          (lines t).foldl Loading.line (s.assign name value) := by
      have hmem : newline ∉ name ++ equals :: value := by
        simp [hn.not_mem (c := newline) rfl, hvalue.1, show newline ≠ equals by decide]
      rw [lines_append hmem, List.foldl_cons, Loading.line_entry hn hvalue]
    rcases hkey.split with ⟨hslash, hn⟩ | ⟨sec, name, rfl, hn, hne, hsec⟩
    · rw [dump, splitKey_of_not_mem hslash, header, if_neg fun h => h.2 rfl, List.nil_append,
        hentry s hn, ih hrest fun h => absurd rfl h, readBack, if_neg hslash]
      rfl
    · rw [dump, splitKey_append (hn.not_mem rfl), List.append_assoc, List.append_assoc,
        Loading.lines_header hne hsec hs, ← List.append_assoc, hentry _ hn]
      refine (ih hrest fun _ => rfl).trans ?_
      rw [readBack, if_pos (by simp), splitKey_append (hn.not_mem rfl)]
      simp [Loading.assign, assignAll]

theorem slash_mem_of_mem_readBack (h : slash ∈ cur)
    (hk : k ∈ (readBack cur entries).map Prod.fst) : slash ∈ k := by
  induction entries generalizing cur with
  | nil => simp [readBack] at hk
  | cons x entries ih =>
    rw [readBack] at hk
    split_ifs at hk with hslash
    · rcases List.mem_cons.1 hk with rfl | hk
      · exact hslash
      · exact ih (by simp) hk
    · rcases List.mem_cons.1 hk with rfl | hk
      · exact List.mem_append_left _ h
      · exact ih h hk

/-- An ungrouped key is read back only before all grouped ones. -/
theorem lt_of_mem_readBack (hsorted : Sorted entries)
    (hk : k ∈ (readBack [] entries).map Prod.fst) (hslash : slash ∉ k) :
    ∀ key ∈ entries.map Prod.fst, slash ∈ key → k < key := by
  induction entries with
  | nil => exact fun _ h => absurd h List.not_mem_nil
  | cons x entries ih =>
    obtain ⟨hx, htail⟩ := sorted_cons.1 hsorted
    rw [readBack] at hk
    split_ifs at hk with hgroup
    · rcases List.mem_cons.1 hk with rfl | hk
      · exact absurd hgroup hslash
      · exact absurd (slash_mem_of_mem_readBack (by simp) hk) hslash
    · intro key hkey hs
      have hmem : key ∈ entries.map Prod.fst := by
        rcases List.mem_cons.1 hkey with rfl | hmem
        · exact absurd hs hgroup
        · exact hmem
      rcases List.mem_cons.1 hk with rfl | hk
      · exact hx key hmem
      · exact ih htail hk key hmem hs

/-- Where the ungrouped keys come first, every entry is read back as it is. -/
theorem readBack_eq (hsorted : Sorted entries)
    (h : ∀ key ∈ entries.map Prod.fst, ∀ k ∈ entries.map Prod.fst,
      slash ∈ key → slash ∉ k → k < key)
    (hcur : cur = [] ∨ ∀ k ∈ entries.map Prod.fst, slash ∈ k) : readBack cur entries = entries := by
  induction entries generalizing cur with
  | nil => rfl
  | cons x entries ih =>
    obtain ⟨hx, htail⟩ := sorted_cons.1 hsorted
    have hrest : ∀ key ∈ entries.map Prod.fst, ∀ k ∈ entries.map Prod.fst,
        slash ∈ key → slash ∉ k → k < key :=
      fun key hkey k hk => h key (List.mem_cons_of_mem _ hkey) k (List.mem_cons_of_mem _ hk)
    rw [readBack]
    split_ifs with hgroup
    · -- all that come after a grouped key are grouped
      rw [ih htail hrest (.inr fun k hk => ?_)]
      by_contra hk'
      exact lt_asymm (hx k hk)
        (h x.1 List.mem_cons_self k (List.mem_cons_of_mem _ hk) hgroup hk')
    · have hnil : cur = [] := hcur.resolve_right fun h => hgroup (h x.1 List.mem_cons_self)
      rw [hnil, ih htail hrest (.inl rfl)]
      rfl

end

/-- A map that `sync` writes is read back by `load` just if its ungrouped keys are all before its
    grouped ones. -/
theorem load_sync_iff {s : Settings} {file : Option (List UInt8)} (hmodified : s.modified_)
    (hs : ∀ x ∈ s.values_, IsKey x.1 ∧ IsValue x.2) :
    (Settings.ofFile (s.sync true file).2).values_ = s.values_ ↔
      ∀ key ∈ s.values_.map Prod.fst, ∀ k ∈ s.values_.map Prod.fst,
        slash ∈ key → slash ∉ k → k < key := by
  have hload : (Settings.ofFile (s.sync true file).2).values_ =
      assignAll [] (readBack [] s.values_) := by
    rw [Settings.sync, if_pos ⟨hmodified, rfl⟩]
    exact loadLines_dump hs fun h => absurd rfl h
  rw [hload]
  constructor
  · intro heq key hkey k hk hgroup hslash
    rw [← heq, mem_keys_assignAll] at hk
    exact lt_of_mem_readBack s.sorted (hk.resolve_left List.not_mem_nil) hslash key hkey hgroup
  · intro h
    rw [readBack_eq s.sorted h (.inl rfl)]
    exact assignAll_of_sorted s.sorted

/-- Settings of two values. -/
def twoValues (k k' : List UInt8) : Settings :=
  (Settings.empty.setValue k (chars "1")).setValue k' (chars "2")

theorem isKey_twoValues {k k' : List UInt8} (h : IsKey k) (h' : IsKey k') (hlt : k < k') :
    ∀ x ∈ (twoValues k k').values_, IsKey x.1 ∧ IsValue x.2 := by
  have hvalues : (twoValues k k').values_ = [(k, chars "1"), (k', chars "2")] :=
    assign_of_lt (by simpa [Settings.setValue, Settings.empty, assign] using hlt)
  have hone : IsValue (chars "1") := ⟨by decide +kernel, by decide +kernel, by decide +kernel⟩
  have htwo : IsValue (chars "2") := ⟨by decide +kernel, by decide +kernel, by decide +kernel⟩
  rw [hvalues, List.forall_mem_cons, List.forall_mem_singleton]
  exact ⟨⟨h, hone⟩, h', htwo⟩

theorem load_sync_iff_ordered :
    (Settings.ofFile ((twoValues (chars "a") (chars "b/c")).sync true none).2).values_ =
      (twoValues (chars "a") (chars "b/c")).values_ :=
  (load_sync_iff rfl (isKey_twoValues (.name (by decide +kernel))
    (@IsKey.group (chars "b") (chars "c") (by decide +kernel) (.name (by decide +kernel)))
    (by decide))).2 (by decide)

/-- An ungrouped key behind a grouped one is read back within the group of the latter. -/
theorem load_sync_fails_of_ungrouped :
    ¬∀ (s : Settings) (file : Option (List UInt8)), s.modified_ →
      (∀ x ∈ s.values_, IsKey x.1 ∧ IsValue x.2) →
        (Settings.ofFile (s.sync true file).2).values_ = s.values_ := by
  intro h
  have hkeys := isKey_twoValues (@IsKey.group (chars "a") (chars "b") (by decide +kernel)
    (.name (by decide +kernel))) (.name (by decide +kernel : IsName (chars "c"))) (by decide)
  have hne : (Settings.ofFile ((twoValues (chars "a/b") (chars "c")).sync true none).2).values_ ≠
      (twoValues (chars "a/b") (chars "c")).values_ := by decide
  exact hne (h _ none rfl hkeys)

end EW8.Core

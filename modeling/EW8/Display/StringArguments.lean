import EW8.Core.Text
import EW8.Display.IntArguments
import EW8.Lib.SortedMap

/-!
# String arguments

The characters of a text come one by one, each with its index. The accumulator of the graphic item
keeps them in a map, and emits the text when it has as many as there are indices; which indices
there are is set by `growTriggeringSize` beforehand.

* The map always has the most recent character of each index received since a text was last
  emitted (`Collects`), so that it is emitted when the last index is received, and with these
  characters (`insertions_accumulate`).
-/

namespace EW8.Display

open EW8.Core (isprint)
open SortedMap

/-- The character that is kept: an `X` if it is not printable. -/
def shown (aChar : Int8) : UInt8 := if isprint aChar.toUInt8 then aChar.toUInt8 else 'X'.toUInt8

/-- A `CanStringArgumentsAccumulator`. -/
structure CanStringArgumentsAccumulator where
  maxIndex : ℤ
  charactersMap : List (ℕ × UInt8)
  sorted : Sorted charactersMap

/-- What is inserted, what is emitted at that, if anything, and the accumulator after it. -/
structure Insertion where
  anIndex : ℕ
  aChar : Int8
  argumentComplete : Option (List UInt8)
  after : CanStringArgumentsAccumulator

namespace CanStringArgumentsAccumulator

/-- The accumulator of a graphic item, after `init` of the signals with its arguments. -/
def configure (indices : List ℕ) : CanStringArgumentsAccumulator where
  maxIndex := indices.foldl (fun m (anIndex : ℕ) => initArgument .stringArgument anIndex m) (-1)
  charactersMap := []
  sorted := List.Pairwise.nil

variable (a : CanStringArgumentsAccumulator)

/-- `charactersMap[anIndex] = aChar`. -/
def assign (anIndex : ℕ) (aChar : UInt8) : CanStringArgumentsAccumulator where
  maxIndex := a.maxIndex
  charactersMap := SortedMap.assign anIndex aChar a.charactersMap
  sorted := a.sorted.assign

/-- `charactersMap.clear()`. -/
def clear : CanStringArgumentsAccumulator where
  maxIndex := a.maxIndex
  charactersMap := []
  sorted := List.Pairwise.nil

/-- The characters up to the last index: NUL, where there is none in the map. -/
def chResult : List UInt8 :=
  (List.range (a.maxIndex + 1).toNat).map fun i => (find? i a.charactersMap).getD 0

/-- `insertValueFromSignal`: the `String` of the characters ends at the first NUL. -/
def insertValueFromSignal (anIndex : ℕ) (aChar : Int8) :
    CanStringArgumentsAccumulator × Option (List UInt8) :=
  let a := a.assign anIndex (shown aChar)
  if a.maxIndex + 1 = a.charactersMap.length then (a.clear, some (a.chResult.takeWhile (· ≠ 0)))
  else (a, none)

/-- One character after the other. -/
def run (a : CanStringArgumentsAccumulator) : List (ℕ × Int8) → List Insertion
  | [] => []
  | p :: l =>
    let (b, argumentComplete) := a.insertValueFromSignal p.1 p.2
    ⟨p.1, p.2, argumentComplete, b⟩ :: run b l

end CanStringArgumentsAccumulator

/-! ## What is to be accumulated -/

/-- The most recent character of an index among those received, the last one first. -/
def mostRecent (since : List (ℕ × Int8)) (i : ℕ) : Option UInt8 :=
  (since.find? fun p => p.1 = i).map fun p => shown p.2

/-- All indices up to `n` have been received. -/
def Complete (n : ℕ) (since : List (ℕ × Int8)) : Prop := ∀ i ≤ n, i ∈ since.map Prod.fst

/-- A text of the indices up to `n` is emitted just when all of them have been received since one
    was last emitted, with the most recent character of each, and leaves an empty accumulator. -/
def Accumulate (n : ℕ) : List (ℕ × Int8) → List Insertion → Prop
  | _, [] => True
  | since, x :: l =>
    match x.argumentComplete with
    | none => ¬Complete n ((x.anIndex, x.aChar) :: since) ∧
        Accumulate n ((x.anIndex, x.aChar) :: since) l
    | some text => Complete n ((x.anIndex, x.aChar) :: since) ∧
        text.map some = (List.range (n + 1)).map (mostRecent ((x.anIndex, x.aChar) :: since)) ∧
        x.after.charactersMap = [] ∧ Accumulate n [] l

section

variable {n i : ℕ} {c : Int8} {since : List (ℕ × Int8)} {a : CanStringArgumentsAccumulator}

theorem foldl_initArgument {indices : List ℕ} {m : ℤ} :
    let maxIndex := indices.foldl (fun m (anIndex : ℕ) => initArgument .stringArgument anIndex m) m
    m ≤ maxIndex ∧ (∀ i ∈ indices, (i : ℤ) ≤ maxIndex) ∧
      (maxIndex = m ∨ ∃ i ∈ indices, maxIndex = i) := by
  induction indices generalizing m with
  | nil => exact ⟨le_rfl, List.forall_mem_nil _, .inl rfl⟩
  | cons i indices ih =>
    obtain ⟨hle, hall, hmax⟩ := @ih (initArgument .stringArgument i m)
    have hgrow : initArgument .stringArgument i m = if m < i then ↑i else m := rfl
    have hm : m ≤ initArgument .stringArgument i m := by split_ifs at hgrow <;> omega
    have hi : (i : ℤ) ≤ initArgument .stringArgument i m := by split_ifs at hgrow <;> omega
    refine ⟨hm.trans hle, List.forall_mem_cons.2 ⟨hi.trans hle, hall⟩, ?_⟩
    rcases hmax with heq | ⟨k, hk, heq⟩
    · rw [List.foldl_cons, heq, hgrow]
      split_ifs with hlt
      · exact .inr ⟨i, List.mem_cons_self, rfl⟩
      · exact .inl rfl
    · exact .inr ⟨k, List.mem_cons_of_mem _ hk, heq⟩

/-- The triggering size is that of the last index. -/
theorem maxIndex_configure_of_indices {indices : List ℕ} (h : ∀ i, i ∈ indices ↔ i ≤ n) :
    (CanStringArgumentsAccumulator.configure indices).maxIndex = n := by
  obtain ⟨-, hall, hmax⟩ := @foldl_initArgument indices (-1)
  have hn := hall n ((h n).2 le_rfl)
  refine le_antisymm ?_ hn
  rcases hmax with heq | ⟨i, hi, heq⟩
  · omega
  · exact heq.le.trans (Int.ofNat_le.2 ((h i).1 hi))

theorem mostRecent_isSome : (mostRecent since i).isSome ↔ i ∈ since.map Prod.fst := by
  simp [mostRecent]

theorem shown_ne_zero (c : Int8) : shown c ≠ 0 := by
  rw [shown]
  split_ifs with h
  · intro heq
    rw [heq] at h
    revert h
    decide
  · decide

/-- The map of the accumulator has the characters received since the last text. -/
structure Collects (n : ℕ) (since : List (ℕ × Int8)) (a : CanStringArgumentsAccumulator) :
    Prop where
  maxIndex : a.maxIndex = n
  find? : ∀ i, find? i a.charactersMap = mostRecent since i
  le : ∀ p ∈ since, p.1 ≤ n

theorem Collects.assign (h : Collects n since a) (hi : i ≤ n) :
    Collects n ((i, c) :: since) (a.assign i (shown c)) where
  maxIndex := h.maxIndex
  find? k := by
    by_cases hk : i = k
    · subst hk
      simp [CanStringArgumentsAccumulator.assign, find?_assign_self, mostRecent]
    · rw [mostRecent, List.find?_cons_of_neg (by simpa using hk)]
      exact (find?_assign_of_ne (Ne.symm hk) _).trans (h.find? k)
  le := List.forall_mem_cons.2 ⟨hi, h.le⟩

theorem Collects.mem_keys (h : Collects n since a) :
    i ∈ a.charactersMap.map Prod.fst ↔ i ∈ since.map Prod.fst := by
  rw [← mostRecent_isSome, ← h.find?, ← not_iff_not, Option.not_isSome_iff_eq_none,
    find?_eq_none_iff]

/-- There are as many characters as indices just if there is one for each. -/
theorem Collects.complete_iff (h : Collects n since a) :
    Complete n since ↔ a.maxIndex + 1 = a.charactersMap.length := by
  have hsub : (a.charactersMap.map Prod.fst).toFinset ⊆ Finset.range (n + 1) := by
    intro i hi
    obtain ⟨p, hp, rfl⟩ := List.mem_map.1 (h.mem_keys.1 (List.mem_toFinset.1 hi))
    exact Finset.mem_range_succ_iff.2 (h.le p hp)
  have hcard : (a.charactersMap.map Prod.fst).toFinset.card = a.charactersMap.length := by
    rw [List.toFinset_card_of_nodup a.sorted.nodup_keys, List.length_map]
  have hcomplete :
      Complete n since ↔ Finset.range (n + 1) ⊆ (a.charactersMap.map Prod.fst).toFinset := by
    simp only [Complete, Finset.subset_iff, Finset.mem_range_succ_iff, List.mem_toFinset,
      h.mem_keys]
  rw [hcomplete, h.maxIndex]
  constructor
  · intro hsup
    rw [← hcard, hsub.antisymm hsup, Finset.card_range, Nat.cast_add_one]
  · intro heq
    refine (Finset.eq_of_subset_of_card_le hsub ?_).ge
    rw [hcard, Finset.card_range]
    omega

/-- The text has the most recent characters. -/
theorem Collects.chResult (h : Collects n since a) (hc : Complete n since) :
    (a.chResult.takeWhile (· ≠ 0)).map some = (List.range (n + 1)).map (mostRecent since) := by
  have hsize : (a.maxIndex + 1).toNat = n + 1 := by
    rw [h.maxIndex]
    omega
  have hchar : ∀ i ∈ List.range (n + 1), ∃ c, mostRecent since i = some (shown c) := by
    intro i hi
    obtain ⟨x, hx⟩ := Option.isSome_iff_exists.1
      (mostRecent_isSome.2 (hc i (Nat.lt_succ_iff.1 (List.mem_range.1 hi))))
    obtain ⟨p, -, rfl⟩ := Option.map_eq_some_iff.1 hx
    exact ⟨p.2, hx⟩
  have hne : ∀ x ∈ a.chResult, decide (x ≠ 0) = true := by
    intro x hx
    rw [CanStringArgumentsAccumulator.chResult, hsize] at hx
    obtain ⟨i, hi, rfl⟩ := List.mem_map.1 hx
    obtain ⟨c, hc⟩ := hchar i hi
    rw [h.find?, hc]
    exact decide_eq_true (shown_ne_zero c)
  rw [List.takeWhile_eq_self_iff.2 hne, CanStringArgumentsAccumulator.chResult, hsize, List.map_map]
  refine List.map_congr_left fun i hi => ?_
  obtain ⟨c, hc⟩ := hchar i hi
  rw [Function.comp_apply, h.find?, hc, Option.getD_some]

theorem Collects.run (h : Collects n since a) {l : List (ℕ × Int8)} (hl : ∀ p ∈ l, p.1 ≤ n) :
    Accumulate n since (a.run l) := by
  induction l generalizing since a with
  | nil => trivial
  | cons p l ih =>
    obtain ⟨hp, hl⟩ := List.forall_mem_cons.1 hl
    have hassign : Collects n ((p.1, p.2) :: since) (a.assign p.1 (shown p.2)) := h.assign hp
    rw [CanStringArgumentsAccumulator.run, CanStringArgumentsAccumulator.insertValueFromSignal]
    split_ifs with hsize
    · have hcomplete := hassign.complete_iff.2 hsize
      exact ⟨hcomplete, hassign.chResult hcomplete, rfl,
        ih ⟨h.maxIndex, fun _ => rfl, List.forall_mem_nil _⟩ hl⟩
    · exact ⟨fun hcomplete => hsize (hassign.complete_iff.1 hcomplete), ih hassign hl⟩

end

/-- The accumulator of the indices `0`, …, `n` emits just at the insertions that complete them, with
    the most recent character of each, and is empty afterwards. -/
theorem insertions_accumulate {n : ℕ} {indices : List ℕ} (h : ∀ i, i ∈ indices ↔ i ≤ n)
    {l : List (ℕ × Int8)} (hl : ∀ p ∈ l, p.1 ∈ indices) :
    Accumulate n [] ((CanStringArgumentsAccumulator.configure indices).run l) :=
  Collects.run ⟨maxIndex_configure_of_indices h, fun _ => rfl, List.forall_mem_nil _⟩
    fun p hp => (h _).1 (hl p hp)

theorem insertions_accumulate_two :
    Accumulate 1 [] ((CanStringArgumentsAccumulator.configure [1, 0]).run
      [(0, 97), (0, 7), (1, 98), (1, 99)]) := by
  refine insertions_accumulate (fun i => ?_) (by decide)
  rw [List.mem_pair]
  omega

/-- The bell that takes the place of an `a` is shown as an `X`. -/
example : ((CanStringArgumentsAccumulator.configure [1, 0]).run
    [(0, 97), (0, 7), (1, 98), (1, 99)]).map Insertion.argumentComplete =
      [none, none, some ("Xb".toList.map Char.toUInt8), none] := by decide

end EW8.Display

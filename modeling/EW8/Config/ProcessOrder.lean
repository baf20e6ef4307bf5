import EW8.Config.Model

/-!
# Entries in their places

`initCanJsonSignalsListInProcessOrder` goes through the entries that the signals of a message name,
in any order, and puts each one in its place by its type and index (`AMJsonSignal.place`): an
enabler to the front, an argument to the back, and the others to be appended. Of the entries for
the validator and for the two bytes of the id of a request, the last one is remembered.

* What is remembered and listed is given by the entries in each place (`sorted_eq`).
* With at most one entry in each of the first three places, the order has each entry as often as
  it is named, by its place (`processOrder_spec`).
* The fields of an entry are those that it names (`setFields_spec`).
-/

namespace EW8.Config

/-- The place of an entry in the process order: first the validator, then the two for the request,
    the enablers, the arguments and the rest; the last ones are not processed. -/
def AMJsonSignal.place (j : AMJsonSignal) : ℕ :=
  match j.type with
  | .validator => 0
  | .requestId => if j.index = 0 then 1 else if j.index = 1 then 2 else 6
  | .enabler => 3
  | .stringArgument | .intArgument => 4
  | .graphicItem | .systemRequest => 5

/-- The entries in a place. -/
def inPlace (i : ℕ) (l : List AMJsonSignal) : List AMJsonSignal := l.filter fun j => j.place = i

section

variable {l : List AMJsonSignal} {i : ℕ} {j : AMJsonSignal}

theorem AMJsonSignal.place_le (j : AMJsonSignal) : j.place ≤ 6 := by
  unfold place
  split
  case h_2 => split_ifs <;> decide
  all_goals decide

theorem AMJsonSignal.place_eq_zero : j.place = 0 ↔ j.type = .validator := by
  unfold place
  split
  case h_2 h => split_ifs <;> simp [h]
  all_goals simp_all

theorem AMJsonSignal.place_eq_one : j.place = 1 ↔ j.type = .requestId ∧ j.index = 0 := by
  unfold place
  split
  case h_2 h => split_ifs with h₀ h₁ <;> simp [h, h₀]
  all_goals simp_all

theorem AMJsonSignal.place_eq_two : j.place = 2 ↔ j.type = .requestId ∧ j.index = 1 := by
  unfold place
  split
  case h_2 h => split_ifs with h₀ h₁ <;> simp_all
  all_goals simp_all

theorem AMJsonSignal.place_eq_six :
    j.place = 6 ↔ j.type = .requestId ∧ j.index ≠ 0 ∧ j.index ≠ 1 := by
  unfold place
  split
  case h_2 h => split_ifs with h₀ h₁ <;> simp_all
  all_goals simp_all

theorem mem_inPlace : j ∈ inPlace i l ↔ j ∈ l ∧ j.place = i := by simp [inPlace]

theorem inPlace_concat :
    inPlace i (l ++ [j]) = inPlace i l ++ if j.place = i then [j] else [] := by
  rw [inPlace, List.filter_append, List.filter_singleton, inPlace]
  simp

theorem count_inPlace : (inPlace i l).count j = if j.place = i then l.count j else 0 := by
  split_ifs with h
  · exact List.count_filter (decide_eq_true h)
  · exact List.count_eq_zero_of_not_mem fun hj => h (mem_inPlace.1 hj).2

/-- Which entries are remembered, and which are listed. -/
theorem sorted_eq (l : List AMJsonSignal) : sorted l =
    { signalValidator := (inPlace 0 l).getLast?
      signalsRequestId₀ := (inPlace 1 l).getLast?
      signalsRequestId₁ := (inPlace 2 l).getLast?
      requestidcount := .ofNat ((inPlace 1 l).length + (inPlace 2 l).length)
      inProcessOrder := (inPlace 3 l).reverse ++ inPlace 4 l
      signalsToAppendList := inPlace 5 l } := by
  induction l using List.reverseRecOn with
  | nil => rfl
  | append_singleton l j ih =>
    rw [sorted_concat, ih, Sorted.add]
    simp only [inPlace_concat]
    unfold AMJsonSignal.place
    cases hj : j.type
    case requestId =>
      by_cases h₀ : j.index = 0
      · simp [h₀, add_right_comm]
      · by_cases h₁ : j.index = 1 <;> simp [h₀, h₁, ← Nat.add_assoc]
    all_goals simp

/-- The entries after those for the request. -/
def following (l : List AMJsonSignal) : List AMJsonSignal :=
  (inPlace 3 l).reverse ++ inPlace 4 l ++ inPlace 5 l

theorem requestIds_sorted : (sorted l).requestIds =
    if ((inPlace 1 l).length + (inPlace 2 l).length) % 256 = 2 then
      (inPlace 1 l).getLast?.bind fun j₀ => (inPlace 2 l).getLast?.map fun j₁ => [j₀, j₁]
    else some [] := by
  rw [Sorted.requestIds, sorted_eq]
  refine if_congr ?_ rfl rfl
  rw [← UInt8.toNat_inj, UInt8.toNat_ofNat']
  rfl

theorem processOrder_eq : processOrder l = (sorted l).requestIds.map fun requestIds =>
    (inPlace 0 l).getLast?.toList ++ requestIds ++ following l := by
  unfold processOrder following
  rw [sorted_eq]
  simp only [List.append_assoc]

/-! ## At most one -/

/-- There is at most one validator, and one entry for each of the two bytes of the id or none. -/
structure Single (l : List AMJsonSignal) : Prop where
  validator : (l.countP fun j => j.type = .validator) ≤ 1
  index : ∀ j ∈ l, j.type = .requestId → j.index = 0 ∨ j.index = 1
  requestIds : (l.countP fun j => j.type = .requestId ∧ j.index = 0) =
    l.countP fun j => j.type = .requestId ∧ j.index = 1
  requestId : (l.countP fun j => j.type = .requestId ∧ j.index = 0) ≤ 1

theorem toList_getLast? {α : Type*} {l : List α} (h : l.length ≤ 1) : l.getLast?.toList = l := by
  match l, h with
  | [], _ => rfl
  | [_], _ => rfl

/-- The entries by their places. -/
theorem Single.processOrder_eq (h : Single l) : processOrder l =
    some (inPlace 0 l ++ (inPlace 1 l ++ inPlace 2 l) ++ following l) := by
  have hvalidator : (inPlace 0 l).length ≤ 1 := by
    simpa only [inPlace, ← List.countP_eq_length_filter, AMJsonSignal.place_eq_zero]
      using h.validator
  have hids : (inPlace 1 l).length = (inPlace 2 l).length := by
    simpa only [inPlace, ← List.countP_eq_length_filter, AMJsonSignal.place_eq_one,
      AMJsonSignal.place_eq_two] using h.requestIds
  have hid : (inPlace 1 l).length ≤ 1 := by
    simpa only [inPlace, ← List.countP_eq_length_filter, AMJsonSignal.place_eq_one]
      using h.requestId
  have hrequestIds : (sorted l).requestIds = some (inPlace 1 l ++ inPlace 2 l) := by
    rw [requestIds_sorted]
    rcases Nat.le_one_iff_eq_zero_or_eq_one.1 hid with h₀ | h₁
    · rw [List.length_eq_zero_iff.1 h₀, List.length_eq_zero_iff.1 (hids.symm.trans h₀)]
      rfl
    · obtain ⟨j₀, hj₀⟩ := List.length_eq_one_iff.1 h₁
      obtain ⟨j₁, hj₁⟩ := List.length_eq_one_iff.1 (hids.symm.trans h₁)
      rw [hj₀, hj₁]
      rfl
  rw [Config.processOrder_eq, hrequestIds, Option.map_some, toList_getLast? hvalidator]

/-- Each entry has a place. -/
theorem Single.perm (h : Single l) :
    (inPlace 0 l ++ (inPlace 1 l ++ inPlace 2 l) ++ following l).Perm l := by
  refine List.perm_iff_count.2 fun j => ?_
  simp only [following, List.count_append, List.count_reverse, count_inPlace]
  by_cases hj : j ∈ l
  · have hle := j.place_le
    have hne : j.place ≠ 6 := fun h₆ => by
      obtain ⟨hid, h₀, h₁⟩ := AMJsonSignal.place_eq_six.1 h₆
      exact (h.index j hj hid).elim h₀ h₁
    interval_cases j.place <;> simp_all
  · simp [List.count_eq_zero_of_not_mem hj]

/-- The places are in order. -/
theorem pairwise_place : (inPlace 0 l ++ (inPlace 1 l ++ inPlace 2 l) ++ following l).Pairwise
    fun j k => j.place ≤ k.place := by
  have hplace (i : ℕ) : (inPlace i l).Pairwise fun j k => j.place ≤ k.place :=
    List.pairwise_of_forall_mem_list fun j hj k hk =>
      ((mem_inPlace.1 hj).2.trans (mem_inPlace.1 hk).2.symm).le
  have hreverse : (inPlace 3 l).reverse.Pairwise fun j k => j.place ≤ k.place :=
    List.pairwise_of_forall_mem_list fun j hj k hk =>
      ((mem_inPlace.1 (List.mem_reverse.1 hj)).2.trans
        (mem_inPlace.1 (List.mem_reverse.1 hk)).2.symm).le
  simp only [following, List.pairwise_append, hplace, hreverse, List.mem_append, List.mem_reverse,
    mem_inPlace, true_and]
  -- each list against the later ones
  and_intros <;> intro j hj k hk <;> omega

/-- The process order has each entry as often as it is named, by its place. -/
theorem processOrder_spec (h : Single l) : ∃ o, processOrder l = some o ∧ o.Perm l ∧
    o.Pairwise fun j k => j.place ≤ k.place :=
  ⟨_, h.processOrder_eq, h.perm, pairwise_place⟩

end

/-! ## Fields -/

section

variable {jsonSignals : List AMJsonSignal} {canSignalsArray : List Signal} {f : Fields}
  {j : AMJsonSignal}

/-- The signals with the entries of their names, in the order of the loops. -/
def bindings (jsonSignals : List AMJsonSignal) (canSignalsArray : List Signal) :
    List (Signal × AMJsonSignal) :=
  canSignalsArray.flatMap fun curSignal =>
    (jsonSignals.filter fun j => j.itsName = curSignal.name).map fun j => (curSignal, j)

/-- One of them. -/
def setField (canSignalsArray : List Signal) (f : Fields) (b : Signal × AMJsonSignal) : Fields :=
  Function.update f b.2.poolIndex
    (b.1,
      if b.2.itsSupName = "" then (f b.2.poolIndex).2
      else (canSignalsArray.findRev? fun iSignal => iSignal.name = b.2.itsSupName).getD
        (f b.2.poolIndex).2)

theorem setFields_eq :
    setFields jsonSignals canSignalsArray f =
      (bindings jsonSignals canSignalsArray).foldl (setField canSignalsArray) f := by
  simp only [setFields, bindings, List.foldl_flatMap, List.foldl_map]
  rfl

theorem mem_bindings {b : Signal × AMJsonSignal} : b ∈ bindings jsonSignals canSignalsArray ↔
    b.1 ∈ canSignalsArray ∧ b.2 ∈ jsonSignals ∧ b.2.itsName = b.1.name := by
  simp only [bindings, List.mem_flatMap, List.mem_map, List.mem_filter, decide_eq_true_iff]
  constructor
  · rintro ⟨curSignal, hcur, k, ⟨hk, hname⟩, rfl⟩
    exact ⟨hcur, hk, hname⟩
  · rintro ⟨hcur, hk, hname⟩
    exact ⟨b.1, hcur, b.2, ⟨hk, hname⟩, rfl⟩

theorem mem_named : j ∈ named jsonSignals canSignalsArray ↔
    ∃ curSignal ∈ canSignalsArray, j ∈ jsonSignals ∧ j.itsName = curSignal.name := by
  simp only [named, List.mem_flatMap, List.mem_filter, decide_eq_true_iff]

/-- The signal with a name. -/
theorem exists_findRev? {name : String} (h : name ∈ canSignalsArray.map Signal.name) :
    ∃ sig ∈ canSignalsArray, sig.name = name ∧
      canSignalsArray.findRev? (fun iSignal => iSignal.name = name) = some sig := by
  have hfind : canSignalsArray.findRev? (fun iSignal => iSignal.name = name) =
      canSignalsArray.reverse.find? fun iSignal => iSignal.name = name := by
    rw [List.findRev?_eq_findRev?TR]
    rfl
  obtain ⟨sig, hsig, rfl⟩ := List.mem_map.1 h
  have hsome : (canSignalsArray.reverse.find? fun iSignal => iSignal.name = sig.name).isSome :=
    List.find?_isSome.2 ⟨sig, List.mem_reverse.2 hsig, decide_eq_true rfl⟩
  obtain ⟨k, hk⟩ := Option.isSome_iff_exists.1 hsome
  have hname := List.find?_some hk
  exact ⟨k, List.mem_reverse.1 (List.mem_of_find?_eq_some hk), of_decide_eq_true hname,
    hfind.trans hk⟩

/-- Where each index is that of one binding, the fields are those that it names. -/
theorem foldl_setField (canSignalsArray : List Signal) (f : Fields)
    {l : List (Signal × AMJsonSignal)} {b : Signal × AMJsonSignal}
    (hl : ∀ b ∈ l, ∀ c ∈ l, b.2.poolIndex = c.2.poolIndex → b = c) (hb : b ∈ l) :
    ((l.foldl (setField canSignalsArray) f) b.2.poolIndex).1 = b.1 ∧
      (b.2.itsSupName ≠ "" → b.2.itsSupName ∈ canSignalsArray.map Signal.name →
        ∃ supSig ∈ canSignalsArray, supSig.name = b.2.itsSupName ∧
          ((l.foldl (setField canSignalsArray) f) b.2.poolIndex).2 = supSig) := by
  induction l using List.reverseRecOn with
  | nil => exact absurd hb List.not_mem_nil
  | append_singleton l c ih =>
    rw [List.foldl_concat, setField]
    by_cases hc : b = c
    · obtain rfl := hc
      rw [Function.update_self]
      refine ⟨rfl, fun hne hsup => ?_⟩
      obtain ⟨supSig, hmem, hname, hfind⟩ := exists_findRev? hsup
      exact ⟨supSig, hmem, hname, by rw [if_neg hne, hfind, Option.getD_some]⟩
    · -- a later binding of another index
      have hne : b.2.poolIndex ≠ c.2.poolIndex := fun heq => hc (hl b hb c (by simp) heq)
      have hb : b ∈ l := (List.mem_append.1 hb).resolve_right fun h => hc (List.mem_singleton.1 h)
      rw [Function.update_of_ne hne]
      exact ih (fun b hb c hc => hl b (List.mem_append_left _ hb) c (List.mem_append_left _ hc)) hb

/-- The fields of an entry are those that it names. -/
theorem setFields_spec (hnames : (canSignalsArray.map Signal.name).Nodup)
    (hindex : ∀ j ∈ jsonSignals, ∀ k ∈ jsonSignals, j.poolIndex = k.poolIndex → j = k)
    (hj : j ∈ named jsonSignals canSignalsArray) :
    (∃ sig ∈ canSignalsArray, sig.name = j.itsName ∧
      (setFields jsonSignals canSignalsArray f j.poolIndex).1 = sig) ∧
    (j.itsSupName ≠ "" → j.itsSupName ∈ canSignalsArray.map Signal.name →
      ∃ supSig ∈ canSignalsArray, supSig.name = j.itsSupName ∧
        (setFields jsonSignals canSignalsArray f j.poolIndex).2 = supSig) := by
  obtain ⟨sig, hsig, hmem, hname⟩ := mem_named.1 hj
  have hb : (sig, j) ∈ bindings jsonSignals canSignalsArray := mem_bindings.2 ⟨hsig, hmem, hname⟩
  have hinj : ∀ b ∈ bindings jsonSignals canSignalsArray,
      ∀ c ∈ bindings jsonSignals canSignalsArray, b.2.poolIndex = c.2.poolIndex → b = c := by
    intro b hb c hc heq
    obtain ⟨hb₁, hb₂, hbname⟩ := mem_bindings.1 hb
    obtain ⟨hc₁, hc₂, hcname⟩ := mem_bindings.1 hc
    have hsnd : b.2 = c.2 := hindex _ hb₂ _ hc₂ heq
    have hfst : b.1 = c.1 := List.inj_on_of_nodup_map hnames hb₁ hc₁
      (hbname.symm.trans (hsnd ▸ hcname))
    exact Prod.ext hfst hsnd
  obtain ⟨hfirst, hsecond⟩ := foldl_setField canSignalsArray f hinj hb
  rw [setFields_eq]
  exact ⟨⟨sig, hsig, hname.symm, hfirst⟩, hsecond⟩

end

end EW8.Config

import EW8.Rx.ProcessOrder

/-!
# The registration of entries

The constructor of an `AMJsonSignal` calls `init`, which appends it to the signals of its protocol,
as often as it finds a reason to: for an entry that is not inverted, once, and for one without an
index that has no value table, again. The signals are a multimap, so that an entry that has been
appended twice is named twice by the messages.

* An entry occurs once in the process order of a message, and a frame is processed once with it,
  exactly if it is one that is appended once, or the last validator, or the last one for its byte
  of the request (`occursOnce_iff`).
-/

namespace EW8.Config

/-! ## The constructor -/

namespace JsonSignal

variable (u : ActionType) (valueTables : List (String × ActionType)) (poolIndex : ℕ) (j : JsonSignal)

/-- How often `init` is called. -/
def registrations : ℕ :=
  (if j.polarity then 1 else 0) +
    if j.index = -1 ∧ ¬(j.polarity = true ∧ j.isValueTable = true) then 1 else 0

/-- What it makes of the entry. -/
def made : AMJsonSignal where
  itsName := j.name
  itsSupName := j.supName.getD ""
  isSupplementedSignalEntry := j.supName.isSome
  type :=
    if j.polarity = true ∧ j.index = -1 ∧ j.isValueTable = true then
      (valueTables.lookup j.action).getD u
    else j.type
  index := j.index
  poolIndex := poolIndex

theorem construct_eq : j.construct u valueTables poolIndex =
    List.replicate j.registrations (j.made u valueTables poolIndex) := by
  unfold construct registrations made
  by_cases hpolarity : j.polarity = true <;> by_cases hindex : j.index = -1 <;>
    by_cases htable : j.isValueTable = true <;> simp [hpolarity, hindex, htable]

end JsonSignal

section

variable {u : ActionType} {valueTables : List (String × ActionType)} {signals : List JsonSignal}
  {canSignalsArray : List Signal} {base e : ℕ} {a : AMJsonSignal}

/-- The signals of a protocol, from an index in the pool on. -/
def registered (u : ActionType) (valueTables : List (String × ActionType)) (base : ℕ)
    (signals : List JsonSignal) : List AMJsonSignal :=
  (signals.zipIdx base).flatMap fun j => j.1.construct u valueTables j.2

/-- They are those of the start-up. -/
theorem registered_eq {b : Bool} {l₁ l₂ : List (Protocol × Dbc)} {x : Protocol × Dbc}
    (hstatus : status b x = true) :
    (initProtocols u b (l₁ ++ x :: l₂)).jsonSignals.getD l₁.length [] =
      registered u x.1.valueTables (initProtocols u b l₁).objectsPool.length x.1.signals := by
  obtain ⟨rest, hrest⟩ := (isPrefix_append u b (l₁ ++ [x]) l₂).2
  have happend : l₁ ++ x :: l₂ = l₁ ++ [x] ++ l₂ := by simp
  have hlast : (initProtocols u b l₁).jsonSignals.length = l₁.length := length_jsonSignals
  rw [happend, ← hrest, initProtocols_concat, initProtocol, List.getD_eq_getElem?_getD,
    List.append_assoc, List.getElem?_append_right hlast.le, hlast, Nat.sub_self, if_pos hstatus]
  rfl

theorem mem_registered (h : a ∈ registered u valueTables base signals) :
    ∃ (e : ℕ) (he : e < signals.length),
      a = (signals[e]).made u valueTables (base + e) := by
  obtain ⟨⟨j, k⟩, hjk, ha⟩ := List.mem_flatMap.1 h
  rw [JsonSignal.construct_eq] at ha
  obtain ⟨hle, hlt, hj⟩ := List.mem_zipIdx hjk
  refine ⟨k - base, by omega, ?_⟩
  rw [Nat.add_sub_cancel' hle, ← hj]
  exact List.eq_of_mem_replicate ha

/-- The signal with the index of an entry is made of it. -/
theorem poolIndex_eq_iff (he : e < signals.length) (h : a ∈ registered u valueTables base signals) :
    a.poolIndex = base + e ↔ a = (signals[e]).made u valueTables (base + e) := by
  obtain ⟨e', he', rfl⟩ := mem_registered h
  constructor
  · intro hindex
    obtain rfl : e' = e := Nat.add_left_cancel hindex
    rfl
  · intro heq
    exact congrArg AMJsonSignal.poolIndex heq

/-- An entry is appended as often as `init` is called for it. -/
theorem count_registered (base : ℕ) (he : e < signals.length) :
    (registered u valueTables base signals).count ((signals[e]).made u valueTables (base + e)) =
      (signals[e]).registrations := by
  induction signals generalizing base e with
  | nil => exact absurd he (Nat.not_lt_zero e)
  | cons j l ih =>
    rw [registered, List.zipIdx_cons, List.flatMap_cons, List.count_append, ← registered,
      JsonSignal.construct_eq]
    cases e with
    | zero =>
      -- the later entries have other indices
      have hnot : (j.made u valueTables base) ∉ registered u valueTables (base + 1) l := fun hmem => by
        obtain ⟨e, he, heq⟩ := mem_registered hmem
        have hindex : base = base + 1 + e := congrArg AMJsonSignal.poolIndex heq
        omega
      rw [List.getElem_cons_zero, Nat.add_zero, List.count_replicate_self,
        List.count_eq_zero_of_not_mem hnot, Nat.add_zero]
    | succ e =>
      have hlt : e < l.length := Nat.lt_of_succ_lt_succ he
      have hne : j.made u valueTables base ≠ (l[e]).made u valueTables (base + (e + 1)) :=
        fun heq => by
          have hindex : base = base + (e + 1) := congrArg AMJsonSignal.poolIndex heq
          omega
      have hsucc := ih (base + 1) hlt
      rw [add_assoc, add_comm 1 e] at hsucc
      rw [List.getElem_cons_succ, List.count_replicate, if_neg (by simpa using hne), Nat.zero_add,
        hsucc]

/-- A message names an entry for each of its signals of this name. -/
theorem count_named (jsonSignals : List AMJsonSignal) (j : AMJsonSignal) :
    (named jsonSignals canSignalsArray).count j =
      jsonSignals.count j * canSignalsArray.countP fun sig => sig.name = j.itsName := by
  induction canSignalsArray with
  | nil => rfl
  | cons sig l ih =>
    have hsplit : named jsonSignals (sig :: l) =
        (jsonSignals.filter fun j => j.itsName = sig.name) ++ named jsonSignals l := rfl
    rw [hsplit, List.count_append, ih, List.countP_cons]
    by_cases hname : sig.name = j.itsName
    · rw [List.count_filter (by simp [hname]), if_pos (by simp [hname]), Nat.mul_succ, Nat.add_comm]
    · have hnot : j ∉ jsonSignals.filter fun j => j.itsName = sig.name := fun hmem =>
        hname (of_decide_eq_true (List.mem_filter.1 hmem).2).symm
      rw [List.count_eq_zero_of_not_mem hnot, if_neg (by simp [hname]), Nat.zero_add, Nat.add_zero]

end

/-! ## Occurrences in the process order -/

/-- How many entries for the two bytes of the id a message names, as they are counted. -/
def requestidcount (l : List AMJsonSignal) : ℕ :=
  ((inPlace 1 l).length + (inPlace 2 l).length) % 256

/-- The entry with an index occurs once in the process order. -/
def OccursOnce (jsonSignals : List AMJsonSignal) (canSignalsArray : List Signal) (poolIndex : ℕ) :
    Prop :=
  ∃ o, processOrder (named jsonSignals canSignalsArray) = some o ∧
    (o.countP fun j => j.poolIndex = poolIndex) = 1

/-- What an entry, of which `j` is made, must meet for that: it is the last validator, or the last
    entry for its byte of the id, where two are named, or it is named once by its only
    registration. And two entries for the same byte leave the pointer to the other one unset. -/
def OnceWhen (l : List AMJsonSignal) (canSignalsArray : List Signal) (entry : JsonSignal)
    (j : AMJsonSignal) : Prop :=
  (requestidcount l = 2 → inPlace 1 l ≠ [] ∧ inPlace 2 l ≠ []) ∧
    match j.type with
    | .validator => (inPlace 0 l).getLast? = some j
    | .requestId => requestidcount l = 2 ∧ (j.index = 0 ∨ j.index = 1) ∧
        (inPlace j.place l).getLast? = some j
    | _ => entry.registrations * (canSignalsArray.countP fun sig => sig.name = entry.name) = 1

section

variable {l requestIds : List AMJsonSignal} {i : ℕ} {j : AMJsonSignal}

theorem place_of_getLast? (h : (inPlace i l).getLast? = some j) : j.place = i :=
  (mem_inPlace.1 (List.mem_of_getLast? h)).2

theorem count_getLast? : (inPlace i l).getLast?.toList.count j =
    if (inPlace i l).getLast? = some j then 1 else 0 := by
  cases (inPlace i l).getLast? with
  | none => rfl
  | some k =>
    rw [Option.toList_some, List.count_singleton]
    by_cases hk : k = j <;> simp [hk]

theorem count_following : (following l).count j =
    if 3 ≤ j.place ∧ j.place ≤ 5 then l.count j else 0 := by
  simp only [following, List.count_append, List.count_reverse, count_inPlace]
  have hle := j.place_le
  interval_cases j.place <;> simp

/-- How often an entry occurs, by its place. -/
theorem count_processOrder (h : (sorted l).requestIds = some requestIds) :
    ∃ o, processOrder l = some o ∧ o.count j =
      (if (inPlace 0 l).getLast? = some j then 1 else 0) + requestIds.count j +
        if 3 ≤ j.place ∧ j.place ≤ 5 then l.count j else 0 := by
  refine ⟨_, by rw [processOrder_eq, h, Option.map_some], ?_⟩
  rw [List.count_append, List.count_append, count_getLast?, count_following]

/-- The entries for the request, if their pointers are set. -/
theorem exists_requestIds (h : requestidcount l = 2 → inPlace 1 l ≠ [] ∧ inPlace 2 l ≠ []) :
    ∃ r, (sorted l).requestIds = some r ∧ r.count j =
      if requestidcount l = 2 ∧ (j.place = 1 ∨ j.place = 2) ∧
        (inPlace j.place l).getLast? = some j then 1 else 0 := by
  rw [requestIds_sorted, ← requestidcount]
  by_cases hcount : requestidcount l = 2
  · obtain ⟨h₁, h₂⟩ := h hcount
    obtain ⟨j₀, h₀⟩ := Option.isSome_iff_exists.1 (List.getLast?_isSome.2 h₁)
    obtain ⟨j₁, h₁⟩ := Option.isSome_iff_exists.1 (List.getLast?_isSome.2 h₂)
    have hplace₀ : j₀.place = 1 := place_of_getLast? h₀
    have hplace₁ : j₁.place = 2 := place_of_getLast? h₁
    refine ⟨[j₀, j₁], by rw [if_pos hcount, h₀, h₁]; rfl, ?_⟩
    by_cases hj₀ : j₀ = j
    · obtain rfl := hj₀
      have hne : j₁ ≠ j₀ := fun heq => by
        rw [heq] at hplace₁
        omega
      simp [hcount, hplace₀, h₀, hne]
    · by_cases hj₁ : j₁ = j
      · obtain rfl := hj₁
        simp [hcount, hplace₁, h₁, hj₀]
      · have hnot : ¬((j.place = 1 ∨ j.place = 2) ∧ (inPlace j.place l).getLast? = some j) := by
          rintro ⟨hp | hp, hlast⟩
          · exact hj₀ (Option.some.inj (h₀.symm.trans (hp ▸ hlast)))
          · exact hj₁ (Option.some.inj (h₁.symm.trans (hp ▸ hlast)))
        rw [if_neg fun h => hnot h.2]
        simp [hj₀, hj₁]
  · exact ⟨[], if_neg hcount, by rw [if_neg fun h => hcount h.1, List.count_nil]⟩

/-- Otherwise there is no order. -/
theorem set_of_processOrder {o : List AMJsonSignal} (h : processOrder l = some o)
    (hcount : requestidcount l = 2) : inPlace 1 l ≠ [] ∧ inPlace 2 l ≠ [] := by
  rw [processOrder_eq, requestIds_sorted, ← requestidcount, if_pos hcount] at h
  obtain ⟨r, hr, -⟩ := Option.map_eq_some_iff.1 h
  obtain ⟨j₀, h₀, hr⟩ := Option.bind_eq_some_iff.1 hr
  obtain ⟨j₁, h₁, -⟩ := Option.map_eq_some_iff.1 hr
  exact ⟨List.ne_nil_of_mem (List.mem_of_getLast? h₀), List.ne_nil_of_mem (List.mem_of_getLast? h₁)⟩

end

section

variable {u : ActionType} {valueTables : List (String × ActionType)} {signals : List JsonSignal}
  {canSignalsArray : List Signal} {base e : ℕ} {l : List AMJsonSignal} {j : AMJsonSignal}

/-- The entries with an index are what is made of the entry. -/
theorem occursOnce_iff_count (he : e < signals.length) :
    OccursOnce (registered u valueTables base signals) canSignalsArray (base + e) ↔
      ∃ o, processOrder (named (registered u valueTables base signals) canSignalsArray) = some o ∧
        o.count ((signals[e]).made u valueTables (base + e)) = 1 := by
  refine exists_congr fun o => and_congr_right fun ho => ?_
  have heq : (o.countP fun j => j.poolIndex = base + e) =
      o.count ((signals[e]).made u valueTables (base + e)) := by
    refine List.countP_congr fun j hj => ?_
    obtain ⟨_, -, hmem, -⟩ := mem_named.1 (mem_of_mem_processOrder ho hj)
    rw [decide_eq_true_iff, beq_iff_eq]
    exact poolIndex_eq_iff he hmem
  rw [heq]

/-- Whether there is one occurrence, by the type. -/
theorem exists_count_iff :
    (∃ o, processOrder l = some o ∧ o.count j = 1) ↔
      (requestidcount l = 2 → inPlace 1 l ≠ [] ∧ inPlace 2 l ≠ []) ∧
        match j.type with
        | .validator => (inPlace 0 l).getLast? = some j
        | .requestId => requestidcount l = 2 ∧ (j.index = 0 ∨ j.index = 1) ∧
            (inPlace j.place l).getLast? = some j
        | _ => l.count j = 1 := by
  by_cases hset : requestidcount l = 2 → inPlace 1 l ≠ [] ∧ inPlace 2 l ≠ []
  · obtain ⟨r, hr, hrcount⟩ := exists_requestIds (j := j) hset
    obtain ⟨o, ho, hocc⟩ := count_processOrder (j := j) hr
    have hone : (∃ o, processOrder l = some o ∧ o.count j = 1) ↔ o.count j = 1 := by simp [ho]
    have hvalidator : (inPlace 0 l).getLast? = some j → j.place = 0 := place_of_getLast?
    rw [hone, and_iff_right hset, hocc, hrcount]
    cases hj : j.type with
    | validator =>
      have hp : j.place = 0 := AMJsonSignal.place_eq_zero.2 hj
      simp [hp]
    | requestId =>
      have hp : j.place = if j.index = 0 then 1 else if j.index = 1 then 2 else 6 := by
        simp [AMJsonSignal.place, hj]
      have hne : (inPlace 0 l).getLast? ≠ some j := fun h => by
        have hzero := hvalidator h
        split_ifs at hp <;> omega
      rw [if_neg hne, hp]
      split_ifs with h₀ h₁ <;> simp_all
    | enabler | stringArgument | intArgument | graphicItem | systemRequest =>
      have hp : 3 ≤ j.place ∧ j.place ≤ 5 := by simp [AMJsonSignal.place, hj]
      have hne : (inPlace 0 l).getLast? ≠ some j := fun h => by
        have hzero := hvalidator h
        omega
      rw [if_neg hne, if_neg (by omega), if_pos hp, Nat.zero_add]
  · refine iff_of_false ?_ fun h => hset h.1
    rintro ⟨o, ho, -⟩
    exact hset (set_of_processOrder ho)

/-- An entry occurs once in the process order of a message exactly under its condition. -/
theorem occursOnce_iff_onceWhen (he : e < signals.length) :
    OccursOnce (registered u valueTables base signals) canSignalsArray (base + e) ↔
      OnceWhen (named (registered u valueTables base signals) canSignalsArray) canSignalsArray
        signals[e] ((signals[e]).made u valueTables (base + e)) := by
  rw [occursOnce_iff_count he, exists_count_iff, OnceWhen, count_named, count_registered base he]
  rfl

end

end EW8.Config

namespace EW8.Rx

open EW8.Config

/-- Where no check rejects a frame, an entry that is not a validator is processed as often as it
    occurs in the process order. -/
theorem countP_processed {x : Pool} {frame : Frame} {r : Request} {k : ℕ}
    (hget : ∀ j ∈ frame.msg.canJsonSignalsListInProcessOrder, x.getByIndex j.poolIndex = some j)
    (hpasses : frame.Passes x r)
    (htype : ∀ j ∈ frame.msg.canJsonSignalsListInProcessOrder, j.poolIndex = k →
      j.type ≠ .validator) :
    ((x.canRxJsonSignalsParseAndProcess frame r).processed.countP fun c => c.1.poolIndex = k) =
      frame.msg.canJsonSignalsListInProcessOrder.countP fun j => j.poolIndex = k := by
  rw [processed_of_passes hget hpasses, List.countP_map, List.countP_filter]
  refine List.countP_congr fun j hj => ?_
  simp only [Function.comp_apply, Bool.and_eq_true, decide_eq_true_iff]
  exact and_iff_left_of_imp (htype j hj)

/-- An entry of a protocol occurs once in the process order of a message exactly under its
    condition; and so it is, for an entry that is not a validator, processed once with each frame
    that no check rejects. -/
theorem occursOnce_iff {b : Bool} {x : Protocol × Dbc} {e : ℕ} (u : ActionType)
    (l₁ l₂ : List (Protocol × Dbc)) (canSignalsArray : List Signal) (hstatus : status b x = true)
    (he : e < x.1.signals.length) :
    let jsonSignals := (initProtocols u b (l₁ ++ x :: l₂)).jsonSignals.getD l₁.length []
    let index := (initProtocols u b l₁).objectsPool.length + e
    let j := (x.1.signals[e]).made u x.1.valueTables index
    let onceWhen := OnceWhen (named jsonSignals canSignalsArray) canSignalsArray x.1.signals[e] j
    (OccursOnce jsonSignals canSignalsArray index ↔ onceWhen) ∧
      ∀ (pool : Pool) (frame : Frame) (r : Request),
        frame.msg.named = named jsonSignals canSignalsArray →
        (∀ j ∈ jsonSignals, pool.getByIndex j.poolIndex = some j) → frame.Passes pool r →
        j.type ≠ .validator →
          (((pool.canRxJsonSignalsParseAndProcess frame r).processed.countP
            fun c => c.1.poolIndex = index) = 1 ↔ onceWhen) := by
  intro jsonSignals index j onceWhen
  have hjson : jsonSignals = registered u x.1.valueTables
    (initProtocols u b l₁).objectsPool.length x.1.signals := registered_eq hstatus
  have honce : OccursOnce jsonSignals canSignalsArray index ↔ onceWhen := by
    simp only [onceWhen, hjson]
    exact occursOnce_iff_onceWhen he
  refine ⟨honce, fun pool frame r hnamed hget hpasses htype => Iff.trans ?_ honce⟩
  have horder := frame.msg.order
  rw [hnamed] at horder
  have hmem : ∀ k ∈ frame.msg.canJsonSignalsListInProcessOrder, k ∈ jsonSignals := fun k hk => by
    obtain ⟨_, -, hk, -⟩ := mem_named.1 (mem_of_mem_processOrder horder hk)
    exact hk
  have htype' : ∀ k ∈ frame.msg.canJsonSignalsListInProcessOrder, k.poolIndex = index →
      k.type ≠ .validator := fun k hk hindex =>
    (poolIndex_eq_iff he (hjson ▸ hmem k hk)).1 hindex ▸ htype
  rw [countP_processed (fun k hk => hget k (hmem k hk)) hpasses htype', OccursOnce, horder]
  simp

/-- A protocol with two entries for graphic items: one without an index, and one with a value
    table. -/
def twoEntries : Protocol × Dbc where
  fst :=
    { type := .can
      valueTables := [("gear", .graphicItem)]
      signals := [⟨"speed", none, "SPEED", true, .graphicItem, -1, false⟩,
        ⟨"gear", none, "gear", true, .graphicItem, -1, true⟩] }
  snd := ⟨[], true⟩

/-- A message with their signals. -/
def twoEntriesSignals : List Signal :=
  ["speed", "gear"].zipIdx.map fun name =>
    ⟨name.1, .ofNat name.2, 0, 8, true, 0, 0, 0, 0, .integer, 0⟩

/-- The one with a value table occurs once. -/
theorem occursOnce_iff_twoEntries :
    (OccursOnce ((initProtocols .graphicItem false [twoEntries]).jsonSignals.getD 0 [])
        twoEntriesSignals 1 ↔
      OnceWhen (named ((initProtocols .graphicItem false [twoEntries]).jsonSignals.getD 0 [])
        twoEntriesSignals) twoEntriesSignals (twoEntries.1.signals[1])
        ((twoEntries.1.signals[1]).made .graphicItem twoEntries.1.valueTables 1)) :=
  (occursOnce_iff (b := false) (x := twoEntries) (e := 1) .graphicItem [] [] twoEntriesSignals rfl
    (by decide)).1

/-- The one without an index is appended twice. -/
theorem occursOnce_fails_of_twice :
    ¬ ∀ (u : ActionType) (b : Bool) (l₁ l₂ : List (Protocol × Dbc)) (x : Protocol × Dbc) (e : ℕ)
      (he : e < x.1.signals.length) (canSignalsArray : List Signal), status b x = true →
      (∃ sig ∈ canSignalsArray, sig.name = (x.1.signals[e]).name) →
        OccursOnce ((initProtocols u b (l₁ ++ x :: l₂)).jsonSignals.getD l₁.length [])
          canSignalsArray ((initProtocols u b l₁).objectsPool.length + e) := by
  intro hall
  obtain ⟨o, ho, hone⟩ := hall .graphicItem false [] [] twoEntries 0 (by decide) twoEntriesSignals
    rfl (by decide +kernel)
  have horder : processOrder (named ((initProtocols .graphicItem false
      ([] ++ twoEntries :: [])).jsonSignals.getD 0 []) twoEntriesSignals) =
      some [⟨"speed", "", false, .graphicItem, -1, 0⟩, ⟨"speed", "", false, .graphicItem, -1, 0⟩,
        ⟨"gear", "", false, .graphicItem, -1, 1⟩] := by decide +kernel
  obtain rfl := Option.some.inj (horder.symm.trans ho)
  exact absurd hone (by decide)

end EW8.Rx

import EW8.Core.JsonValue
import EW8.Display.ValueTables

/-!
# Sets and domains

An entry of `signals` may say for which values its action is taken (`Set`), and for which
supplementary values (`Domain`): a single integer, a list of them, or all that are greater or less
than one. Both fields are read by `extractSetValuesField`; but where the field is a single integer,
it reads the field `Set`, whatever field it has been asked for.

* What is read of the other forms is what is written (`extract_of_not_single`), and of `Set` always
  (`extract_set`);
* so all is as written, and neither field has an influence on what is made of the other, just if
  the entry has no supplementary signal or no single integer as its `Domain`
  (`decides_iff`).
-/

namespace EW8.Display

open EW8.Core SortedMap
open scoped SortedMap

/-! ## The code -/

/-- What an `AMJsonSignal` decides with. -/
structure Decision where
  isSupplementedSignalEntry : Bool
  polarity : Bool
  trueValuesOp : SetOp
  trueValues : Option (List ℤ)
  itsDomainSetOp : SetOp
  itsDomainTrueValues : Option (List ℤ)

variable (overflow : ℚ → ℤ)

/-- The operation with a name. -/
def setOp (opString : List UInt8) : SetOp :=
  if opString = chars "gt" then .gt
  else if opString = chars "ge" then .ge
  else if opString = chars "lt" then .lt
  else if opString = chars "le" then .le
  else .na

/-- `extractSetValuesField`. -/
def extractSetValuesField (signal_obj : JsonObject) (fieldName : List UInt8) :
    SetOp × Option (List ℤ) :=
  if JsonObject.contains signal_obj fieldName then
    let field := JsonObject.value signal_obj fieldName
    if field.isArray then
      let trueValues_Array := field.toArray
      if (JsonArray.value trueValues_Array 0).isString then
        (setOp ((JsonArray.value trueValues_Array 0).toString []),
          some [(JsonArray.value trueValues_Array 1).toInt overflow 0])
      else (.or, some (trueValues_Array.map fun value => value.toInt overflow 0))
    else (.or, some [(JsonObject.value signal_obj (chars "Set")).toInt overflow 0])
  else (.na, none)

namespace Decision

variable (signal_obj : JsonObject)

/-- The entry has a supplementary signal. -/
def isSupplemented : Bool := (JsonObject.value signal_obj (chars "name")).isArray

/-- The action of the entry is not inverted. -/
def sigPolarity : Bool :=
  !((JsonObject.value signal_obj (chars "action")).isArray &&
    (JsonArray.value (JsonObject.value signal_obj (chars "action")).toArray 1).toString [] =
      chars "inverted")

def sigIndex : ℤ := (JsonObject.value signal_obj (chars "index")).toInt overflow (-1)

def isValueTable : Bool :=
  sigPolarity signal_obj && sigIndex overflow signal_obj = -1 &&
    JsonObject.contains signal_obj (chars "isValueTable") &&
    (JsonObject.value signal_obj (chars "isValueTable")).toBool false

/-- The entry is one for which `Set` is read. -/
def readsSet : Bool := !isValueTable overflow signal_obj && sigIndex overflow signal_obj = -1

/-- The fields that `init` sets. -/
def init (polarity : Bool) (set : SetOp × Option (List ℤ)) : Decision :=
  let domain :=
    if isSupplemented signal_obj then extractSetValuesField overflow signal_obj (chars "Domain")
    else (.na, none)
  ⟨isSupplemented signal_obj, polarity, set.1, set.2, domain.1, domain.2⟩

/-- The constructor: `none` if `init` is not called. -/
def construct : Option Decision :=
  let s := if sigPolarity signal_obj then some (init overflow signal_obj true (.na, none)) else none
  if readsSet overflow signal_obj then
    some (init overflow signal_obj (sigPolarity signal_obj)
      (extractSetValuesField overflow signal_obj (chars "Set")))
  else s

variable (d : Decision)

/-- The comparison with the values of a field: `none` where the operation is not defined. -/
def compare (op : SetOp) (values : List ℤ) (desired : ℤ) : Option Bool :=
  match op with
  | .or => some (decide (desired ∈ values))
  | .lt => some (decide (values.headD 0 > desired))
  | .le => some (decide (values.headD 0 ≥ desired))
  | .gt => some (decide (values.headD 0 < desired))
  | .ge => some (decide (values.headD 0 ≤ desired))
  | .na => none

/-- `getDomainValidity`. -/
def getDomainValidity (extractedSupCANsignal : QVariant) : Bool :=
  match extractedSupCANsignal, d.itsDomainTrueValues with
  | .int desired, some values =>
    ((compare d.itsDomainSetOp values desired).map (· == d.polarity)).getD true
  | _, _ => true

/-- `extractSetUnsetAction`: whether there is an answer, and `do_active`. -/
def extractSetUnsetAction (extractedCANsignal : QVariant) (do_active : Bool) : Bool × Bool :=
  match extractedCANsignal, d.trueValues with
  | .bool desired, _ => (true, desired == d.polarity)
  | .int desired, some values =>
    (true, ((compare d.trueValuesOp values desired).map (· == d.polarity)).getD do_active)
  | _, _ => (false, do_active)

/-- A signal with a value table has the same `getDomainValidity`. -/
theorem getDomainValidity_eq {τ π ι κ : Type*} (s : AMJsonSignal τ π ι κ) (v : QVariant) :
    s.getDomainValidity v =
      (Decision.mk s.isSupplementedSignalEntry s.polarity .na none s.itsDomainSetOp
        s.itsDomainTrueValues).getDomainValidity v := by
  cases s with
  | mk _ _ _ _ _ op values =>
    cases v with
    | int desired =>
      cases values with
      | none => rfl
      | some values => cases op <;> rfl
    | invalid => rfl
    | bool b => rfl
    | double x => rfl

end Decision

/-! ## What is written -/

/-- A field, as it is written. -/
inductive SetField
  | single (n : ℤ)
  | list (n : ℤ) (l : List ℤ)
  | gt (n : ℤ)
  | ge (n : ℤ)
  | lt (n : ℤ)
  | le (n : ℤ)

namespace SetField

/-- The value in the entry. -/
def toJson : SetField → JsonValue
  | single n => .double n
  | list n l => .array ((n :: l).map fun n : ℤ => .double n)
  | gt n => .array [.string (chars "gt"), .double n]
  | ge n => .array [.string (chars "ge"), .double n]
  | lt n => .array [.string (chars "lt"), .double n]
  | le n => .array [.string (chars "le"), .double n]

/-- The predicate that is written. -/
def Satisfies (v : ℤ) : SetField → Prop
  | single n => v = n
  | list n l => v ∈ n :: l
  | gt n => v > n
  | ge n => v ≥ n
  | lt n => v < n
  | le n => v ≤ n

/-- The field after the conversion of its numbers to `int`. -/
def converted (f : SetField) : SetField :=
  let toInt := fun n : ℤ => (JsonValue.double n).toInt overflow 0
  match f with
  | single n => single (toInt n)
  | list n l => list (toInt n) (l.map toInt)
  | gt n => gt (toInt n)
  | ge n => ge (toInt n)
  | lt n => lt (toInt n)
  | le n => le (toInt n)

/-- The operation of a field. -/
def op : SetField → SetOp
  | single _ => .or
  | list _ _ => .or
  | gt _ => .gt
  | ge _ => .ge
  | lt _ => .lt
  | le _ => .le

/-- Its operands. -/
def values : SetField → List ℤ
  | single n => [n]
  | list n l => n :: l
  | gt n => [n]
  | ge n => [n]
  | lt n => [n]
  | le n => [n]

instance (v : ℤ) : ∀ f : SetField, Decidable (f.Satisfies v)
  | single n => inferInstanceAs (Decidable (v = n))
  | list n l => inferInstanceAs (Decidable (v ∈ n :: l))
  | gt n => inferInstanceAs (Decidable (v > n))
  | ge n => inferInstanceAs (Decidable (v ≥ n))
  | lt n => inferInstanceAs (Decidable (v < n))
  | le n => inferInstanceAs (Decidable (v ≤ n))

/-- What is to be read of a field, if there is one. -/
def read : Option SetField → SetOp × Option (List ℤ)
  | none => (.na, none)
  | some f => ((f.converted overflow).op, some (f.converted overflow).values)

end SetField

section

variable {overflow} {signal_obj signal_obj' : JsonObject} {fieldName key : List UInt8}
  {f : SetField} {v : ℤ} {o : Option SetField}

/-- What the code makes of a field as it is written. -/
theorem compare_eq (f : SetField) (v : ℤ) :
    Decision.compare f.op f.values v = some (decide (f.Satisfies v)) := by
  cases f with
  | single n => exact congrArg some (decide_eq_decide.2 List.mem_singleton)
  | list n l => rfl
  | gt n => rfl
  | ge n => rfl
  | lt n => rfl
  | le n => rfl

theorem extract_none (h : find? fieldName signal_obj = none) :
    extractSetValuesField overflow signal_obj fieldName = (.na, none) := by
  rw [extractSetValuesField, JsonObject.contains, h]
  rfl

/-- Of a single integer, what is read is the field `Set`. -/
theorem extract_single {n : ℤ} (h : find? fieldName signal_obj = some (.double n)) :
    extractSetValuesField overflow signal_obj fieldName =
      (.or, some [(JsonObject.value signal_obj (chars "Set")).toInt overflow 0]) := by
  rw [extractSetValuesField, JsonObject.contains, JsonObject.value, h]
  rfl

/-- Of the other forms, what is read is what is written. -/
theorem extract_of_not_single (hf : ∀ n, f ≠ .single n)
    (h : find? fieldName signal_obj = some f.toJson) :
    extractSetValuesField overflow signal_obj fieldName = SetField.read overflow (some f) := by
  rw [extractSetValuesField, JsonObject.contains, JsonObject.value, h]
  cases f with
  | single n => exact absurd rfl (hf n)
  | list n l =>
    simp [SetField.toJson, JsonValue.isArray, JsonValue.toArray, JsonArray.value,
      JsonValue.isString, SetField.read, SetField.converted, SetField.op, SetField.values]
  | gt n => rfl
  | ge n => rfl
  | lt n => rfl
  | le n => rfl

/-- Of `Set`, what is read is always what is written. -/
theorem extract_set (h : find? (chars "Set") signal_obj = o.map SetField.toJson) :
    extractSetValuesField overflow signal_obj (chars "Set") = SetField.read overflow o := by
  cases o with
  | none => exact extract_none h
  | some f =>
    by_cases hf : ∃ n, f = .single n
    · obtain ⟨n, rfl⟩ := hf
      rw [extract_single h, JsonObject.value, h]
      rfl
    · exact extract_of_not_single (fun n hn => hf ⟨n, hn⟩) h

end

/-! ## The entries -/

/-- The values of an `int`. -/
def IsInt (v : ℤ) : Prop := -2147483648 ≤ v ∧ v ≤ 2147483647

instance (v : ℤ) : Decidable (IsInt v) := inferInstanceAs (Decidable (_ ∧ _))

open Decision

/-- All is decided as the fields `set` and `domain` say, and neither field has an influence on what
    is made of the other. -/
structure Decides (signal_obj : JsonObject) (set domain : Option SetField) (d : Decision) :
    Prop where
  /-- There is an answer if `Set` is read. -/
  answers : readsSet overflow signal_obj → set.isSome → ∀ v b,
    (d.extractSetUnsetAction (.int v) b).1
  /-- The answer, if there is one. -/
  set : ∀ f ∈ set, ∀ v, IsInt v → ∀ b, (d.extractSetUnsetAction (.int v) b).1 →
    ((d.extractSetUnsetAction (.int v) b).2 ↔ (f.Satisfies v ↔ sigPolarity signal_obj))
  domain : sigPolarity signal_obj → isSupplemented signal_obj → ∀ f ∈ domain, ∀ w, IsInt w →
    (d.getDomainValidity (.int w) ↔ f.Satisfies w)
  set_apart : ∀ signal_obj' : JsonObject,
    (∀ key ≠ chars "Domain", find? key signal_obj' = find? key signal_obj) →
      ∀ d' ∈ construct overflow signal_obj', ∀ v b,
        d'.extractSetUnsetAction v b = d.extractSetUnsetAction v b
  domain_apart : ∀ signal_obj' : JsonObject,
    (∀ key ≠ chars "Set", find? key signal_obj' = find? key signal_obj) →
      ∀ d' ∈ construct overflow signal_obj', ∀ w, d'.getDomainValidity w = d.getDomainValidity w

/-- The conversion of the numbers leaves the predicate as it is. -/
def SetField.Keeps (f : SetField) : Prop :=
  ∀ v, IsInt v → (f.Satisfies v ↔ (f.converted overflow).Satisfies v)

section

variable {overflow} {signal_obj signal_obj' : JsonObject} {fieldName : List UInt8}
  {set domain : Option SetField} {d : Decision} {f : SetField} {v : ℤ} {b : Bool}

theorem construct_eq_some (hd : d ∈ construct overflow signal_obj) :
    d = init overflow signal_obj (sigPolarity signal_obj)
      (if readsSet overflow signal_obj then
        extractSetValuesField overflow signal_obj (chars "Set") else (.na, none)) := by
  rw [construct] at hd
  split_ifs at hd with hreads hpolarity
  · rw [if_pos hreads]
    exact (Option.some.inj hd).symm
  · rw [if_neg hreads, hpolarity]
    exact (Option.some.inj hd).symm
  · exact absurd hd (Option.not_mem_none _)

theorem exists_construct (h : readsSet overflow signal_obj ∨ sigPolarity signal_obj) :
    ∃ d, d ∈ construct overflow signal_obj := by
  rw [construct]
  split_ifs with hreads hpolarity
  · exact ⟨_, rfl⟩
  · exact ⟨_, rfl⟩
  · exact absurd h (by simp [hreads, hpolarity])

/-- The fields but for `Set` and `Domain` are the same. -/
theorem entry_congr (h : ∀ key ≠ chars "Set", key ≠ chars "Domain" →
    find? key signal_obj' = find? key signal_obj) :
    isSupplemented signal_obj' = isSupplemented signal_obj ∧
      sigPolarity signal_obj' = sigPolarity signal_obj ∧
      readsSet overflow signal_obj' = readsSet overflow signal_obj := by
  have hname := h (chars "name") (by decide) (by decide)
  have haction := h (chars "action") (by decide) (by decide)
  have hindex := h (chars "index") (by decide) (by decide)
  have htable := h (chars "isValueTable") (by decide) (by decide)
  have hpolarity : sigPolarity signal_obj' = sigPolarity signal_obj := by
    rw [sigPolarity, sigPolarity, JsonObject.value, JsonObject.value, haction]
  have hsig : sigIndex overflow signal_obj' = sigIndex overflow signal_obj := by
    rw [sigIndex, sigIndex, JsonObject.value, JsonObject.value, hindex]
  refine ⟨?_, hpolarity, ?_⟩
  · rw [isSupplemented, isSupplemented, JsonObject.value, JsonObject.value, hname]
  · rw [readsSet, readsSet, isValueTable, isValueTable, hpolarity, hsig, JsonObject.contains,
      JsonObject.contains, JsonObject.value, JsonObject.value, htable]

theorem extract_congr (h : find? fieldName signal_obj' = find? fieldName signal_obj)
    (hset : find? (chars "Set") signal_obj' = find? (chars "Set") signal_obj) :
    extractSetValuesField overflow signal_obj' fieldName =
      extractSetValuesField overflow signal_obj fieldName := by
  rw [extractSetValuesField, extractSetValuesField, JsonObject.contains, JsonObject.contains,
    JsonObject.value, JsonObject.value, JsonObject.value, JsonObject.value, h, hset]

theorem reads_or_polarity (hd : d ∈ construct overflow signal_obj) :
    readsSet overflow signal_obj ∨ sigPolarity signal_obj := by
  rw [construct] at hd
  split_ifs at hd with hreads hpolarity
  · exact .inl hreads
  · exact .inr hpolarity
  · exact absurd hd (Option.not_mem_none _)

/-- The answer to a value, as `Set` has been read. -/
theorem extractSetUnsetAction_init (p : Bool)
    (hset : find? (chars "Set") signal_obj = some f.toJson) :
    (init overflow signal_obj p
      (extractSetValuesField overflow signal_obj (chars "Set"))).extractSetUnsetAction (.int v) b =
        (true, decide ((f.converted overflow).Satisfies v) == p) := by
  rw [extract_set (o := some f) hset]
  simp only [init, SetField.read, Decision.extractSetUnsetAction, compare_eq]
  rfl

/-- The validity of a supplementary value, as `Domain` has been read. -/
theorem getDomainValidity_init (p : Bool) (set : SetOp × Option (List ℤ))
    (hs : isSupplemented signal_obj)
    (hdomain : extractSetValuesField overflow signal_obj (chars "Domain") =
      (f.op, some f.values)) :
    (init overflow signal_obj p set).getDomainValidity (.int v) =
      (decide (f.Satisfies v) == p) := by
  simp only [init, hs, if_true, hdomain, getDomainValidity, compare_eq]
  rfl

/-- An entry with a single integer as its `Domain` has what `Set` is instead. -/
theorem not_domain_apart (hs : isSupplemented signal_obj)
    (hd : d ∈ construct overflow signal_obj) {n : ℤ}
    (hdomain : find? (chars "Domain") signal_obj = some (.double n)) :
    ¬∀ signal_obj' : JsonObject,
      (∀ key ≠ chars "Set", find? key signal_obj' = find? key signal_obj) →
        ∀ d' ∈ construct overflow signal_obj', ∀ w,
          d'.getDomainValidity w = d.getDomainValidity w := by
  intro h
  generalize hx : (JsonObject.value signal_obj (chars "Set")).toInt overflow 0 = x
  -- another integer for `Set`
  obtain ⟨m, hm, hmx⟩ : ∃ m : ℤ, (JsonValue.double m).toInt overflow 0 = m ∧ m ≠ x := by
    by_cases hzero : x = 0
    · exact ⟨1, by simp [JsonValue.toInt, JsonValue.truncate], by omega⟩
    · exact ⟨0, by simp [JsonValue.toInt, JsonValue.truncate], Ne.symm hzero⟩
  have hother : ∀ key ≠ chars "Set",
      find? key (assign (chars "Set") (.double m) signal_obj) = find? key signal_obj :=
    fun key hkey => find?_assign_of_ne hkey _
  obtain ⟨hs', hp', hr'⟩ := @entry_congr overflow _ _ fun key hkey _ => hother key hkey
  obtain ⟨d', hd'⟩ : ∃ d',
      d' ∈ construct overflow (assign (chars "Set") (.double m) signal_obj) := by
    refine exists_construct ?_
    rw [hr', hp']
    exact reads_or_polarity hd
  have hvalidity := h _ hother d' hd' (.int m)
  have hsingle : extractSetValuesField overflow signal_obj (chars "Domain") =
      ((SetField.single x).op, some (SetField.single x).values) := by
    rw [extract_single hdomain, hx]
    rfl
  have hsingle' : extractSetValuesField overflow (assign (chars "Set") (.double m) signal_obj)
      (chars "Domain") = ((SetField.single m).op, some (SetField.single m).values) := by
    rw [extract_single ((hother _ (by decide)).trans hdomain), JsonObject.value,
      find?_assign_self, Option.getD_some, hm]
    rfl
  rw [construct_eq_some hd, construct_eq_some hd', getDomainValidity_init _ _ hs hsingle,
    getDomainValidity_init _ _ (hs'.trans hs) hsingle', hp'] at hvalidity
  have htrue : decide ((SetField.single m).Satisfies m) = true := decide_eq_true rfl
  have hfalse : decide ((SetField.single x).Satisfies m) = false := decide_eq_false hmx
  rw [htrue, hfalse] at hvalidity
  revert hvalidity
  cases sigPolarity signal_obj <;> decide

/-- An answer is right just if the predicate is. -/
theorem beq_polarity_iff {p q : Prop} [Decidable q] (c : Bool) :
    ((decide q == c) = true ↔ (p ↔ c = true)) ↔ (p ↔ q) := by
  by_cases hq : q <;> by_cases hp : p <;> cases c <;> simp [hq, hp]

/-- Of a `Domain` that is not a single integer, what is read is what is written. -/
theorem extract_domain (hsingle : ∀ n, domain ≠ some (.single n))
    (hdomain : find? (chars "Domain") signal_obj = domain.map SetField.toJson) :
    extractSetValuesField overflow signal_obj (chars "Domain") = SetField.read overflow domain := by
  cases domain with
  | none => exact extract_none hdomain
  | some f => exact extract_of_not_single (fun n hn => hsingle n (hn ▸ rfl)) hdomain

/-- All is decided as it is written just if there is no supplementary signal or the `Domain` is not
    a single integer, and the conversion of the numbers does not matter. -/
theorem decides_iff (hset : find? (chars "Set") signal_obj = set.map SetField.toJson)
    (hdomain : find? (chars "Domain") signal_obj = domain.map SetField.toJson) :
    (∀ d ∈ construct overflow signal_obj, Decides overflow signal_obj set domain d) ↔
      (readsSet overflow signal_obj → ∀ f ∈ set, f.Keeps overflow) ∧
        (readsSet overflow signal_obj ∨ sigPolarity signal_obj → isSupplemented signal_obj →
          (∀ n, domain ≠ some (.single n)) ∧
            (sigPolarity signal_obj → ∀ f ∈ domain, f.Keeps overflow)) := by
  constructor
  · intro h
    refine ⟨fun hreads f hf v hv => ?_, fun hinit hs => ?_⟩
    · obtain ⟨d, hd⟩ := exists_construct (.inl hreads)
      obtain rfl : set = some f := hf
      have hright := h d hd
      obtain rfl := construct_eq_some hd
      rw [if_pos hreads] at hright
      have hanswer := hright.set f rfl v hv false
      rw [extractSetUnsetAction_init _ hset] at hanswer
      exact (beq_polarity_iff _).1 (hanswer rfl)
    · obtain ⟨d, hd⟩ := exists_construct hinit
      have hsingle : ∀ n, domain ≠ some (.single n) := by
        rintro n rfl
        exact not_domain_apart hs hd hdomain (h d hd).domain_apart
      refine ⟨hsingle, fun hpolarity f hf w hw => ?_⟩
      obtain rfl : domain = some f := hf
      have hvalidity := (h d hd).domain hpolarity hs f rfl w hw
      obtain rfl := construct_eq_some hd
      rw [getDomainValidity_init _ _ hs (extract_domain hsingle hdomain), hpolarity, beq_true,
        decide_eq_true_iff] at hvalidity
      exact hvalidity.symm
  · rintro ⟨hkeeps, hdom⟩ d hd
    have hdom := hdom (reads_or_polarity hd)
    have hd' := construct_eq_some hd
    subst hd'
    refine ⟨fun hreads hsome v b => ?_, fun f hf v hv b => ?_, fun hpolarity hs f hf w hw => ?_,
      fun signal_obj' hsame d' hd' v b => ?_, fun signal_obj' hsame d' hd' w => ?_⟩
    · obtain ⟨f, rfl⟩ := Option.isSome_iff_exists.1 hsome
      rw [if_pos hreads, extractSetUnsetAction_init _ hset]
    · obtain rfl : set = some f := hf
      by_cases hreads : readsSet overflow signal_obj
      · rw [if_pos hreads, extractSetUnsetAction_init _ hset]
        exact fun _ => (beq_polarity_iff _).2 (hkeeps hreads f rfl v hv)
      · rw [if_neg hreads]
        exact fun hfalse => absurd hfalse Bool.false_ne_true
    · obtain rfl : domain = some f := hf
      rw [getDomainValidity_init _ _ hs (extract_domain (hdom hs).1 hdomain), hpolarity, beq_true,
        decide_eq_true_iff]
      exact ((hdom hs).2 hpolarity f rfl w hw).symm
    · have hset' := hsame (chars "Set") (by decide)
      obtain ⟨-, hp', hr'⟩ := @entry_congr overflow _ _ fun key _ hkey => hsame key hkey
      obtain rfl := construct_eq_some hd'
      rw [hp', hr', extract_congr hset' hset']
      rfl
    · obtain ⟨hs', hp', hr'⟩ := @entry_congr overflow _ _ fun key hkey _ => hsame key hkey
      obtain rfl := construct_eq_some hd'
      -- without a supplementary signal, there is no domain
      by_cases hs : isSupplemented signal_obj
      · have hsame' := (hsame (chars "Domain") (by decide)).trans hdomain
        simp only [init, hs', hs, if_true, hp', extract_domain (hdom hs).1 hsame',
          extract_domain (hdom hs).1 hdomain, getDomainValidity]
      · simp only [init, hs', if_neg hs, hp', getDomainValidity]

end

/-- An entry with a supplementary signal, with `Set` and `Domain`. -/
def supplemented (set domain : SetField) : JsonObject :=
  [(chars "Domain", domain.toJson), (chars "Set", set.toJson),
    (chars "name", .array [.string (chars "speed"), .string (chars "gear")])]

theorem toInt_intCast {n : ℤ} (hn : IsInt n) : (JsonValue.double n).toInt overflow 0 = n := by
  have htruncate : JsonValue.truncate n = n := by
    rw [JsonValue.truncate, Int.floor_intCast, Int.ceil_intCast, ite_self]
  rw [JsonValue.toInt, htruncate]
  exact if_pos hn

/-- With a list as its `Domain`, the entry is as it is written. -/
theorem decides_list :
    ∃ d ∈ construct (fun _ => 0) (supplemented (.gt 3) (.list 5 [6])),
      Decides (fun _ => 0) (supplemented (.gt 3) (.list 5 [6])) (some (.gt 3)) (some (.list 5 [6]))
        d := by
  have hset : ∀ f ∈ some (SetField.gt 3), f.Keeps (fun _ => 0) := by
    intro f hf v _
    obtain rfl := Option.some.inj hf
    simp only [SetField.converted, toInt_intCast _ (show IsInt 3 by decide)]
  have hdomain : ∀ f ∈ some (SetField.list 5 [6]), f.Keeps (fun _ => 0) := by
    intro f hf v _
    obtain rfl := Option.some.inj hf
    simp only [SetField.converted, List.map, toInt_intCast _ (show IsInt 5 by decide),
      toInt_intCast _ (show IsInt 6 by decide)]
  have hsingle : ∀ n, some (SetField.list 5 [6]) ≠ some (.single n) :=
    fun _ h => SetField.noConfusion (Option.some.inj h)
  exact ⟨_, rfl, (decides_iff rfl rfl).2
    ⟨fun _ => hset, fun _ _ => ⟨hsingle, fun _ => hdomain⟩⟩ _ rfl⟩

/-- With `Set` 3 and the `Domain` 5, a supplementary 5 is not valid. -/
theorem decides_fails_of_single :
    ¬∀ d ∈ construct (fun _ => 0) (supplemented (.single 3) (.single 5)),
      Decides (fun _ => 0) (supplemented (.single 3) (.single 5)) (some (.single 3))
        (some (.single 5)) d := by
  intro h
  have hthree := toInt_intCast (fun _ => 0) (show IsInt 3 by decide)
  have hvalidity := ((h _ rfl).domain rfl rfl _ rfl 5 (by decide)).2 rfl
  rw [getDomainValidity_init (f := .single 3) _ _ rfl] at hvalidity
  · exact absurd hvalidity (by decide)
  · rw [extract_single rfl]
    exact congrArg (fun n => (SetOp.or, some [n])) hthree

end EW8.Display

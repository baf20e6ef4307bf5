import Mathlib

/-!
# The model of signals

The signals that the unit reacts to are declared by protocol in a JSON file; for a protocol
on the CAN bus, a DBC file says where in which message they are. A start goes through the
protocols in order, has the DBC file of each parsed, and constructs an `AMJsonSignal` for each
entry; all of these are in a pool, with the size of the pool as their index. A protocol whose
DBC file fails is skipped.

* `initProtocols`: the pool, the signals of each protocol, and the messages;
* `processOrder`: the order in which the signals of a message are processed;
* `completeInit`: for each message, where its signals are, with their indices in the pool.
-/

namespace EW8.Config

/-- `action_type_e`. -/
inductive ActionType
  | graphicItem | enabler | stringArgument | intArgument | requestId | validator | systemRequest
  deriving DecidableEq, Repr

/-- `protocol_type_e`. -/
inductive ProtocolType
  | gpio | can | disabled
  deriving DecidableEq, Repr

/-- `SignalValueType`. -/
inductive SignalValueType
  | integer | float | double
  deriving DecidableEq, Repr

/-- A `Signal` of a DBC file: a field of a message. The doubles are given by their bits. -/
structure Signal where
  name : String
  startByte : UInt32
  startBit : UInt32
  numOfBits : UInt32
  sign : Bool
  factor : UInt64
  offset : UInt64
  min : UInt64
  max : UInt64
  valueType : SignalValueType
  AMJsonSignalIdx : ℕ
  deriving DecidableEq, Repr

/-- An entry of `signals`. The second name is that of a supplementary signal. -/
structure JsonSignal where
  name : String
  supName : Option String
  action : String
  /-- Not `inverted`. -/
  polarity : Bool
  type : ActionType
  index : ℤ
  isValueTable : Bool
  deriving DecidableEq, Repr

/-- An entry of `Protocols`, with the names and types of its value tables. -/
structure Protocol where
  type : ProtocolType
  valueTables : List (String × ActionType)
  signals : List JsonSignal
  deriving DecidableEq, Repr

/-- What comes of the DBC file of a protocol: the messages that are found, also where the file fails
    later. -/
structure Dbc where
  messages : List (ℕ × List Signal)
  status : Bool
  deriving DecidableEq, Repr

/-- An `AMJsonSignal`. -/
structure AMJsonSignal where
  itsName : String
  itsSupName : String
  isSupplementedSignalEntry : Bool
  type : ActionType
  index : ℤ
  poolIndex : ℕ
  deriving DecidableEq, Repr

/-- The constructor: how often it appends the signal to those of its protocol. The type is not
    initialized where there is no table with the name of the action. -/
def JsonSignal.construct (uninitialized : ActionType) (valueTables : List (String × ActionType))
    (poolIndex : ℕ) (j : JsonSignal) : List AMJsonSignal :=
  let init (isValueTable : Bool) : AMJsonSignal :=
    { itsName := j.name
      itsSupName := j.supName.getD ""
      isSupplementedSignalEntry := j.supName.isSome
      type :=
        if isValueTable then (valueTables.lookup j.action).getD uninitialized else j.type
      index := j.index
      poolIndex := poolIndex }
  let isValueTable := j.polarity && j.index == -1 && j.isValueTable
  (if j.polarity then [init isValueTable] else []) ++
    if !isValueTable && j.index == -1 then [init false] else []

/-- A `CanRxMsg`, as the DBC files leave it. -/
structure CanRxMsg where
  canSignalsArray : List Signal
  /-- The number of the protocol. -/
  itsJsonProtocol : ℕ
  deriving DecidableEq, Repr

/-- `CanRxMsgsPool[StdId] = x`, in the order of the ids. -/
def insert {α : Type*} (StdId : ℕ) (x : α) : List (ℕ × α) → List (ℕ × α)
  | [] => [(StdId, x)]
  | (id, y) :: l =>
    if StdId < id then (StdId, x) :: (id, y) :: l
    else if StdId = id then (StdId, x) :: l
    else (id, y) :: insert StdId x l

/-- What a start builds. An entry is named by the number of its protocol and its own. -/
structure Started where
  objectsPool : List (ℕ × ℕ)
  /-- The signals of each protocol: none if it is skipped. -/
  jsonSignals : List (List AMJsonSignal)
  CanRxMsgsPool : List (ℕ × CanRxMsg)
  deriving DecidableEq, Repr

/-- What `processDBCFile` returns, where it is called. -/
def status (isAlreadyLoaded : Bool) (x : Protocol × Dbc) : Bool :=
  if x.1.type = .can ∧ isAlreadyLoaded = false then x.2.status else true

/-- The next protocol. -/
def initProtocol (uninitialized : ActionType) (isAlreadyLoaded : Bool) (m : Started)
    (x : Protocol × Dbc) : Started where
  objectsPool :=
    if status isAlreadyLoaded x then
      m.objectsPool ++ (List.range x.1.signals.length).map fun e => (m.jsonSignals.length, e)
    else m.objectsPool
  jsonSignals := m.jsonSignals ++ [
    if status isAlreadyLoaded x then
      (x.1.signals.zipIdx m.objectsPool.length).flatMap fun j =>
        j.1.construct uninitialized x.1.valueTables j.2
    else []]
  CanRxMsgsPool :=
    if x.1.type = .can ∧ isAlreadyLoaded = false then
      x.2.messages.foldl (fun pool msg => insert msg.1 ⟨msg.2, m.jsonSignals.length⟩ pool)
        m.CanRxMsgsPool
    else m.CanRxMsgsPool

/-- `jsonInitProtocolsAndSignalsVectors`. -/
def initProtocols (uninitialized : ActionType) (isAlreadyLoaded : Bool)
    (l : List (Protocol × Dbc)) : Started :=
  l.foldl (initProtocol uninitialized isAlreadyLoaded) ⟨[], [], []⟩

/-! ## The process order of a message -/

/-- The entries that are named by the signals of a message, as `getSignalEntries` finds them. -/
def named (jsonSignals : List AMJsonSignal) (canSignalsArray : List Signal) : List AMJsonSignal :=
  canSignalsArray.flatMap fun curSignal => jsonSignals.filter fun j => j.itsName = curSignal.name

/-- The variables of `initCanJsonSignalsListInProcessOrder`. -/
structure Sorted where
  signalValidator : Option AMJsonSignal
  signalsRequestId₀ : Option AMJsonSignal
  signalsRequestId₁ : Option AMJsonSignal
  requestidcount : UInt8
  inProcessOrder : List AMJsonSignal
  signalsToAppendList : List AMJsonSignal
  deriving DecidableEq, Repr

/-- The next entry is sorted by its type. -/
def Sorted.add (s : Sorted) (j : AMJsonSignal) : Sorted :=
  match j.type with
  | .validator => { s with signalValidator := some j }
  | .requestId =>
    if j.index = 0 then
      { s with signalsRequestId₀ := some j, requestidcount := s.requestidcount + 1 }
    else if j.index = 1 then
      { s with signalsRequestId₁ := some j, requestidcount := s.requestidcount + 1 }
    else s
  | .enabler => { s with inProcessOrder := j :: s.inProcessOrder }
  | .stringArgument | .intArgument => { s with inProcessOrder := s.inProcessOrder ++ [j] }
  | .graphicItem | .systemRequest =>
    { s with signalsToAppendList := s.signalsToAppendList ++ [j] }

/-- All of them. -/
def sorted (l : List AMJsonSignal) : Sorted := l.foldl Sorted.add ⟨none, none, none, 0, [], []⟩

/-- The two entries of the request, if there are two: `none` where one of the two pointers has not
    been set. -/
def Sorted.requestIds (s : Sorted) : Option (List AMJsonSignal) :=
  if s.requestidcount = 2 then
    s.signalsRequestId₀.bind fun j₀ => s.signalsRequestId₁.map fun j₁ => [j₀, j₁]
  else some []

/-- `canJsonSignalsListInProcessOrder`. -/
def processOrder (l : List AMJsonSignal) : Option (List AMJsonSignal) :=
  (sorted l).requestIds.map fun requestIds =>
    (sorted l).signalValidator.toList ++ requestIds ++ (sorted l).inProcessOrder ++
      (sorted l).signalsToAppendList

/-- What `itsCanDbSignal` and `itsSecondCanDbSignal` of the signals of the pool are. -/
abbrev Fields := ℕ → Signal × Signal

/-- `setItsCanDbSignal` and `setItsCanSecDbSignal`, for the signals of a message: the last field of a
    name counts. -/
def setFields (jsonSignals : List AMJsonSignal) (canSignalsArray : List Signal) (f : Fields) :
    Fields :=
  canSignalsArray.foldl (fun f curSignal =>
    (jsonSignals.filter fun j => j.itsName = curSignal.name).foldl (fun f j =>
      Function.update f j.poolIndex
        (curSignal,
          if j.itsSupName = "" then (f j.poolIndex).2
          else (canSignalsArray.findRev? fun iSignal => iSignal.name = j.itsSupName).getD
            (f j.poolIndex).2)) f) f

/-- `canJsonSignalsPoolIdxInProcessOrder`: the fields with the pool indices. `none` where the second
    field of an entry is asked for that has an empty name for it. -/
def poolIdxInProcessOrder (f : Fields) : List AMJsonSignal → Option (List Signal)
  | [] => some []
  | j :: l =>
    let first := { (f j.poolIndex).1 with AMJsonSignalIdx := j.poolIndex }
    let second := { (f j.poolIndex).2 with AMJsonSignalIdx := j.poolIndex }
    if j.isSupplementedSignalEntry then
      if j.itsSupName = "" then none
      else (poolIdxInProcessOrder f l).map fun l => first :: second :: l
    else (poolIdxInProcessOrder f l).map fun l => first :: l

/-- A message after the start-up. -/
structure Complete where
  StdId : ℕ
  canJsonSignalsListInProcessOrder : List AMJsonSignal
  canJsonSignalsPoolIdxInProcessOrder : List Signal
  deriving DecidableEq, Repr

/-- `completeInitCanRxMsgsPool`. -/
def completeInit (jsonSignals : List (List AMJsonSignal)) :
    Fields → List (ℕ × CanRxMsg) → Option (List Complete)
  | _, [] => some []
  | f, (id, msg) :: l =>
    let js := jsonSignals.getD msg.itsJsonProtocol []
    let f := setFields js msg.canSignalsArray f
    (processOrder (named js msg.canSignalsArray)).bind fun order =>
      (poolIdxInProcessOrder f order).bind fun signals =>
        (completeInit jsonSignals f l).map fun l => ⟨id, order, signals⟩ :: l

/-! ## Entries and indices -/

section

variable {u : ActionType} {b : Bool} {l l₁ l₂ : List (Protocol × Dbc)} {x : Protocol × Dbc}
  {j : AMJsonSignal}

theorem initProtocols_concat :
    initProtocols u b (l ++ [x]) = initProtocol u b (initProtocols u b l) x :=
  List.foldl_concat ..

theorem length_jsonSignals : (initProtocols u b l).jsonSignals.length = l.length := by
  induction l using List.reverseRecOn with
  | nil => rfl
  | append_singleton l x ih =>
    rw [initProtocols_concat, List.length_append, ← ih]
    exact List.length_append ..

variable (u b l₁ l₂) in
/-- Later protocols leave the pool and the signals of earlier ones. -/
theorem isPrefix_append :
    (initProtocols u b l₁).objectsPool <+: (initProtocols u b (l₁ ++ l₂)).objectsPool ∧
      (initProtocols u b l₁).jsonSignals <+: (initProtocols u b (l₁ ++ l₂)).jsonSignals := by
  induction l₂ using List.reverseRecOn with
  | nil => rw [List.append_nil]; exact ⟨List.prefix_refl _, List.prefix_refl _⟩
  | append_singleton l₂ x ih =>
    rw [← List.append_assoc, initProtocols_concat]
    refine ⟨ih.1.trans ?_, ih.2.trans (List.prefix_append ..)⟩
    simp only [initProtocol]
    split_ifs
    · exact List.prefix_append ..
    · exact List.prefix_refl _

variable (u l₁ l₂) in
/-- The labels of a protocol in the pool, where it is not skipped. -/
theorem pool_of_status (hstatus : status b x = true) :
    (initProtocols u b l₁).objectsPool ++
        (List.range x.1.signals.length).map (fun e => (l₁.length, e)) <+:
      (initProtocols u b (l₁ ++ x :: l₂)).objectsPool := by
  have hconcat : (initProtocols u b (l₁ ++ [x])).objectsPool = (initProtocols u b l₁).objectsPool ++
      (List.range x.1.signals.length).map fun e => (l₁.length, e) := by
    rw [initProtocols_concat, initProtocol, if_pos hstatus, length_jsonSignals]
  have happend : l₁ ++ x :: l₂ = l₁ ++ [x] ++ l₂ := by simp
  rw [← hconcat, happend]
  exact (isPrefix_append u b _ l₂).1

theorem poolIndex_construct {t : List (String × ActionType)} {k : ℕ} {e : JsonSignal}
    (hj : j ∈ e.construct u t k) : j.poolIndex = k := by
  simp only [JsonSignal.construct, List.mem_append, List.mem_ite_nil_right, List.mem_singleton] at hj
  rcases hj with ⟨-, rfl⟩ | ⟨-, rfl⟩ <;> rfl

/-- A signal of a protocol: the protocol has not been skipped, and the index is that of one of its
    entries. -/
theorem poolIndex_of_mem
    (hj : j ∈ (initProtocols u b (l₁ ++ x :: l₂)).jsonSignals.getD l₁.length []) :
    status b x = true ∧ ∃ e < x.1.signals.length,
      j.poolIndex = (initProtocols u b l₁).objectsPool.length + e := by
  have hprefix := (isPrefix_append u b (l₁ ++ [x]) l₂).2
  have happend : l₁ ++ x :: l₂ = l₁ ++ [x] ++ l₂ := by simp
  obtain ⟨rest, hrest⟩ := hprefix
  rw [happend, ← hrest, initProtocols_concat, List.getD_eq_getElem?_getD] at hj
  have hlast : (initProtocols u b l₁).jsonSignals.length = l₁.length := length_jsonSignals
  simp only [initProtocol] at hj
  rw [List.append_assoc, List.getElem?_append_right (by omega), hlast, Nat.sub_self] at hj
  simp only [List.singleton_append, List.getElem?_cons_zero, Option.getD_some] at hj
  split_ifs at hj with hstatus
  · obtain ⟨⟨e, k⟩, hek, hj⟩ := List.mem_flatMap.1 hj
    have hk := List.mem_zipIdx hek
    refine ⟨hstatus, k - (initProtocols u b l₁).objectsPool.length, by omega, ?_⟩
    rw [poolIndex_construct hj]
    omega
  · exact absurd hj List.not_mem_nil

end

/-! ## Entries in order -/

section

variable {l o : List AMJsonSignal} {j k : AMJsonSignal}

theorem sorted_concat : sorted (l ++ [j]) = (sorted l).add j := List.foldl_concat ..

/-- What has been sorted. -/
def Sorted.all (s : Sorted) : List AMJsonSignal :=
  s.signalValidator.toList ++ s.signalsRequestId₀.toList ++ s.signalsRequestId₁.toList ++
    s.inProcessOrder ++ s.signalsToAppendList

theorem Sorted.mem_all_add {s : Sorted} (h : k ∈ (s.add j).all) : k ∈ s.all ∨ k = j := by
  unfold Sorted.add at h
  cases hj : j.type <;> simp only [hj] at h
  case requestId =>
    split_ifs at h <;> simp only [all, List.mem_append, Option.mem_toList,
      Option.some.injEq] at h ⊢ <;> tauto
  all_goals
    simp only [all, List.mem_append, List.mem_cons, Option.mem_toList,
      Option.some.injEq] at h ⊢
    tauto

theorem mem_of_mem_sorted (h : j ∈ (sorted l).all) : j ∈ l := by
  induction l using List.reverseRecOn with
  | nil => exact absurd h List.not_mem_nil
  | append_singleton l k ih =>
    rw [sorted_concat] at h
    rw [List.mem_append, List.mem_singleton]
    exact (Sorted.mem_all_add h).imp_left ih

/-- Where the entries other than for requests are. -/
theorem others_sorted : (sorted l).signalValidator.toList ++ (sorted l).inProcessOrder ++
    (sorted l).signalsToAppendList ≠ [] ↔ ∃ j ∈ l, j.type ≠ .requestId := by
  induction l using List.reverseRecOn with
  | nil => simp [sorted]
  | append_singleton l j ih =>
    have hadd : (∃ k ∈ l ++ [j], k.type ≠ .requestId) ↔
        (∃ k ∈ l, k.type ≠ .requestId) ∨ j.type ≠ .requestId := by
      simp [or_and_right, exists_or]
    rw [sorted_concat, hadd, ← ih, Sorted.add]
    cases hj : j.type
    case requestId =>
      simp only [ne_eq, not_true_eq_false, or_false]
      split_ifs <;> rfl
    all_goals simp

theorem requestidcount_sorted : (sorted l).requestidcount =
    UInt8.ofNat (l.countP fun j => j.type = .requestId ∧ (j.index = 0 ∨ j.index = 1)) := by
  induction l using List.reverseRecOn with
  | nil => rfl
  | append_singleton l j ih =>
    rw [sorted_concat, List.countP_append, UInt8.ofNat_add, ← ih, Sorted.add]
    cases hj : j.type
    case requestId =>
      simp only [List.countP_singleton, hj, true_and, decide_eq_true_eq]
      split_ifs <;> first | rfl | simp_all
    all_goals simp [hj]

/-- The message has signals in its process order: entries other than for requests, or the two
    of a request. -/
def Processed (l : List AMJsonSignal) : Prop :=
  (∃ j ∈ l, j.type ≠ .requestId) ∨
    (l.countP fun j => j.type = .requestId ∧ (j.index = 0 ∨ j.index = 1)) % 256 = 2

/-- The entries of a request. -/
theorem requestIds_spec {s : Sorted} {r : List AMJsonSignal} (h : s.requestIds = some r) :
    (∀ j ∈ r, j ∈ s.all) ∧ (r ≠ [] ↔ s.requestidcount = 2) := by
  unfold Sorted.requestIds at h
  split_ifs at h with hcount
  · obtain ⟨j₀, h₀, h⟩ := Option.bind_eq_some_iff.1 h
    obtain ⟨j₁, h₁, rfl⟩ := Option.map_eq_some_iff.1 h
    refine ⟨fun j hj => ?_, by simp [hcount]⟩
    simp only [List.mem_cons, List.not_mem_nil, or_false] at hj
    rcases hj with rfl | rfl <;> simp [Sorted.all, h₀, h₁]
  · obtain rfl := Option.some.inj h
    exact ⟨fun _ hj => absurd hj List.not_mem_nil, by simp [hcount]⟩

/-- Only entries that a message names are processed with it. -/
theorem mem_of_mem_processOrder (h : processOrder l = some o) (hj : j ∈ o) : j ∈ l := by
  obtain ⟨r, hr, rfl⟩ := Option.map_eq_some_iff.1 h
  refine mem_of_mem_sorted ?_
  simp only [List.mem_append] at hj
  rcases hj with ((hj | hj) | hj) | hj
  · simp [Sorted.all, hj]
  · exact (requestIds_spec hr).1 j hj
  · simp [Sorted.all, hj]
  · simp [Sorted.all, hj]

theorem processOrder_ne_nil (h : processOrder l = some o) : o ≠ [] ↔ Processed l := by
  obtain ⟨r, hr, rfl⟩ := Option.map_eq_some_iff.1 h
  have hcount : (sorted l).requestidcount = 2 ↔
      (l.countP fun j => j.type = .requestId ∧ (j.index = 0 ∨ j.index = 1)) % 256 = 2 := by
    rw [requestidcount_sorted, ← UInt8.toNat_inj, UInt8.toNat_ofNat']
    rfl
  rw [Processed, ← others_sorted, ← hcount, ← (requestIds_spec hr).2]
  simp only [ne_eq, List.append_eq_nil_iff]
  tauto

end

/-! ## Fields with indices -/

/-- The indices are those of the entries in order. -/
theorem poolIdxInProcessOrder_spec {f : Fields} {o : List AMJsonSignal} {sigs : List Signal}
    (h : poolIdxInProcessOrder f o = some sigs) :
    (∀ sig ∈ sigs, ∃ j ∈ o, sig.AMJsonSignalIdx = j.poolIndex) ∧
      ∀ j ∈ o, ∃ sig ∈ sigs, sig.AMJsonSignalIdx = j.poolIndex := by
  induction o generalizing sigs with
  | nil =>
    obtain rfl := Option.some.inj h
    exact ⟨fun _ hs => absurd hs List.not_mem_nil, fun _ hj => absurd hj List.not_mem_nil⟩
  | cons j o ih =>
    -- the fields of `j`, with or without a second one, and those of the others
    obtain ⟨own, rest, hrest, rfl, hne, hown⟩ : ∃ own rest, poolIdxInProcessOrder f o = some rest ∧
        own ++ rest = sigs ∧ own ≠ [] ∧ ∀ sig ∈ own, sig.AMJsonSignalIdx = j.poolIndex := by
      unfold poolIdxInProcessOrder at h
      split_ifs at h
      · obtain ⟨rest, hrest, rfl⟩ := Option.map_eq_some_iff.1 h
        exact ⟨[_, _], rest, hrest, rfl, by simp, by simp⟩
      · obtain ⟨rest, hrest, rfl⟩ := Option.map_eq_some_iff.1 h
        exact ⟨[_], rest, hrest, rfl, by simp, by simp⟩
    obtain ⟨hfrom, hto⟩ := ih hrest
    constructor
    · intro sig hsig
      rcases List.mem_append.1 hsig with hsig | hsig
      · exact ⟨j, List.mem_cons_self, hown sig hsig⟩
      · obtain ⟨k, hk, heq⟩ := hfrom sig hsig
        exact ⟨k, List.mem_cons_of_mem j hk, heq⟩
    · intro k hk
      rcases List.mem_cons.1 hk with rfl | hk
      · obtain ⟨sig, hsig⟩ := List.exists_mem_of_ne_nil own hne
        exact ⟨sig, List.mem_append_left rest hsig, hown sig hsig⟩
      · obtain ⟨sig, hsig, heq⟩ := hto k hk
        exact ⟨sig, List.mem_append_right own hsig, heq⟩

/-- A message, and what the start-up makes of it. -/
structure Completes (jsonSignals : List (List AMJsonSignal)) (x : ℕ × CanRxMsg) (c : Complete) :
    Prop where
  StdId : c.StdId = x.1
  order : processOrder (named (jsonSignals.getD x.2.itsJsonProtocol []) x.2.canSignalsArray) =
    some c.canJsonSignalsListInProcessOrder
  signals : ∃ f, poolIdxInProcessOrder f c.canJsonSignalsListInProcessOrder =
    some c.canJsonSignalsPoolIdxInProcessOrder

theorem completes_of_completeInit {jsonSignals : List (List AMJsonSignal)} {f : Fields}
    {l : List (ℕ × CanRxMsg)} {pool : List Complete}
    (h : completeInit jsonSignals f l = some pool) :
    List.Forall₂ (Completes jsonSignals) l pool := by
  induction l generalizing f pool with
  | nil =>
    obtain rfl := Option.some.inj h
    exact .nil
  | cons x l ih =>
    obtain ⟨o, ho, h⟩ := Option.bind_eq_some_iff.1 h
    obtain ⟨sigs, hsigs, h⟩ := Option.bind_eq_some_iff.1 h
    obtain ⟨rest, hrest, rfl⟩ := Option.map_eq_some_iff.1 h
    exact .cons ⟨rfl, ho, _, hsigs⟩ (ih hrest)

end EW8.Config

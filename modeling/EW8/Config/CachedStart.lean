import EW8.Config.Model
import EW8.Lib.Codec

/-!
# The cached start

A start that has parsed the DBC files writes `config.dat`: for each message with signals in
its process order, their fields with the indices of the signals in the pool. The next
start reads the file instead of the DBC files, and finds the signals by these indices in the
pool that it constructs itself.

But it does not know which DBC files have failed, and constructs the signals of all
protocols: those of a protocol that was skipped move the indices of all protocols after
it. The cached start builds the same association exactly if no protocol with signals was
skipped before one with a message in the file (`association_eq_iff`).

* `Codec`s for the file, with numbers and raw `SerializedSignal`s as its items: the counts
  fit their 32 bits, as the lists do the memory.
-/

namespace EW8.Config

/-! ## The file -/

/-- `SerializedSignal_t`. -/
structure SerializedSignal where
  startByte : UInt32
  startBit : UInt32
  numOfBits : UInt32
  sign : UInt8
  factor : UInt64
  offset : UInt64
  min : UInt64
  max : UInt64
  enumValueType : ℤ
  AMJsonSignalIdx : ℕ
  deriving DecidableEq, Repr

/-- The number of a value type. -/
def SignalValueType.toInt : SignalValueType → ℤ
  | .integer => 0
  | .float => 1
  | .double => 2

/-- And back. -/
def SignalValueType.ofInt (i : ℤ) : SignalValueType :=
  if i = 0 then .integer else if i = 1 then .float else .double

/-- `operator<<`. -/
def Signal.serialize (any : Signal) : SerializedSignal where
  startByte := any.startByte
  startBit := any.startBit
  numOfBits := any.numOfBits
  sign := if any.sign then 1 else 0
  factor := any.factor
  offset := any.offset
  min := any.min
  max := any.max
  enumValueType := any.valueType.toInt
  AMJsonSignalIdx := any.AMJsonSignalIdx

/-- `operator>>`, into a new `Signal`. -/
def SerializedSignal.signal (sesig : SerializedSignal) : Signal where
  name := ""
  startByte := sesig.startByte
  startBit := sesig.startBit
  numOfBits := sesig.numOfBits
  sign := if sesig.sign = 0 then false else true
  factor := sesig.factor
  offset := sesig.offset
  min := sesig.min
  max := sesig.max
  valueType := .ofInt sesig.enumValueType
  AMJsonSignalIdx := sesig.AMJsonSignalIdx

/-- What is written to `config.dat`. -/
inductive Item
  | number (n : ℕ)
  | raw (sesig : SerializedSignal)
  deriving DecidableEq, Repr

/-- A number. -/
def numberCodec : Codec Item ℕ where
  put n := [.number n]
  get
    | .number n :: s => some (n, s)
    | _ => none
  get_put _ _ := rfl

/-- A signal. -/
def signalCodec : Codec Item SerializedSignal where
  put sesig := [.raw sesig]
  get
    | .raw sesig :: s => some (sesig, s)
    | _ => none
  get_put _ _ := rfl

/-- `config.dat`: the id of the keep-alive message, and the messages with their signals. -/
def configCodec : Codec Item (ℕ × List (ℕ × List SerializedSignal)) :=
  numberCodec.prod (.list numberCodec (numberCodec.prod (.list numberCodec signalCodec)))

/-- `saveToStorage`. -/
def saveToStorage (keepAliveMsgId : ℕ) (pool : List Complete) : List Item :=
  let msgsWhiteList :=
    (pool.filter fun msg => msg.canJsonSignalsListInProcessOrder ≠ []).map Complete.StdId
  configCodec.put (keepAliveMsgId,
    (pool.filter fun msg => msg.StdId ∈ msgsWhiteList).map fun msg =>
      (msg.StdId, msg.canJsonSignalsPoolIdxInProcessOrder.map Signal.serialize))

/-- `loadFromStorage`: the signals that are read for each id. -/
def loadFromStorage (s : List Item) : Option (List (ℕ × List Signal)) :=
  (configCodec.get s).map fun x =>
    x.1.2.map fun msg => (msg.1, msg.2.map SerializedSignal.signal)

/-! ## Starts -/

/-- A start: the pool of signals, and what is appended to the list of each message. -/
structure Start where
  objectsPool : List (ℕ × ℕ)
  canRxMsgs : List (ℕ × List Signal)
  deriving DecidableEq, Repr

/-- A start that parses the DBC files, and the file it writes: `none` where it uses a pointer that
    has not been set. -/
def parsingStart (uninitialized : ActionType) (f : Fields) (keepAliveMsgId : ℕ)
    (l : List (Protocol × Dbc)) : Option (Start × List Item) :=
  let m := initProtocols uninitialized false l
  (completeInit m.jsonSignals f m.CanRxMsgsPool).map fun pool =>
    (⟨m.objectsPool,
      pool.map fun msg => (msg.StdId, msg.canJsonSignalsPoolIdxInProcessOrder)⟩,
      saveToStorage keepAliveMsgId pool)

/-- A start that reads the file: it does not look at the DBC files. -/
def cachedStart (uninitialized : ActionType) (l : List (Protocol × Dbc)) (s : List Item) :
    Option Start :=
  (loadFromStorage s).map fun canRxMsgs =>
    ⟨(initProtocols uninitialized true l).objectsPool, canRxMsgs⟩

namespace Start

variable (t : Start) (StdId : ℕ)

/-- The list of a message. -/
def signals : List Signal :=
  (t.canRxMsgs.filter fun msg => msg.1 = StdId).flatMap Prod.snd

/-- The entries that a message leads to, by field and in order. -/
def association : List (SerializedSignal × Option (ℕ × ℕ)) :=
  (t.signals StdId).map fun sig =>
    ({ sig with AMJsonSignalIdx := 0 }.serialize, t.objectsPool[sig.AMJsonSignalIdx]?)

end Start

/-! ## Which entries move -/

/-- A protocol that is skipped, and has signals. -/
def Skipped (x : Protocol × Dbc) : Prop := status false x = false ∧ x.1.signals ≠ []

/-- Nothing is skipped before a protocol with a message that has signals. -/
def Unmoved (uninitialized : ActionType) (l : List (Protocol × Dbc)) : Prop :=
  ∀ msg ∈ (initProtocols uninitialized false l).CanRxMsgsPool,
    Processed (named
      ((initProtocols uninitialized false l).jsonSignals.getD msg.2.itsJsonProtocol [])
      msg.2.canSignalsArray) →
    ∀ x ∈ l.take msg.2.itsJsonProtocol, ¬Skipped x

variable {u u' : ActionType} {b : Bool} {l l₁ : List (Protocol × Dbc)} {j : AMJsonSignal} {p : ℕ}

theorem status_true (x : Protocol × Dbc) : status true x = true := if_neg (by simp)

theorem length_objectsPool_concat (x : Protocol × Dbc) :
    (initProtocols u b (l ++ [x])).objectsPool.length =
      (initProtocols u b l).objectsPool.length +
        if status b x then x.1.signals.length else 0 := by
  rw [initProtocols_concat]
  simp only [initProtocol]
  split_ifs <;> simp

/-- A start that skips nothing has at least as many signals, and more if something is skipped. -/
theorem length_objectsPool (u u' : ActionType) (l : List (Protocol × Dbc)) :
    (initProtocols u false l).objectsPool.length ≤ (initProtocols u' true l).objectsPool.length ∧
      ((initProtocols u false l).objectsPool.length = (initProtocols u' true l).objectsPool.length ↔
        ∀ x ∈ l, ¬Skipped x) := by
  induction l using List.reverseRecOn with
  | nil => simp [initProtocols]
  | append_singleton l x ih =>
    have hskip : (if status false x then x.1.signals.length else 0) ≤ x.1.signals.length ∧
        ((if status false x then x.1.signals.length else 0) = x.1.signals.length ↔ ¬Skipped x) := by
      unfold Skipped
      cases status false x with
      | true => simp
      | false => simp [eq_comm, List.length_eq_zero_iff]
    rw [length_objectsPool_concat, length_objectsPool_concat, if_pos (status_true x)]
    have hall : (∀ y ∈ l ++ [x], ¬Skipped y) ↔ (∀ y ∈ l, ¬Skipped y) ∧ ¬Skipped x := by
      simp [or_imp, forall_and]
    rw [hall, ← ih.2, ← hskip.2]
    omega

/-- The labels of the first protocols. -/
theorem lt_of_mem_objectsPool {y : ℕ × ℕ} (hy : y ∈ (initProtocols u b l).objectsPool) :
    y.1 < l.length := by
  induction l using List.reverseRecOn with
  | nil => exact absurd hy List.not_mem_nil
  | append_singleton l x ih =>
    rw [initProtocols_concat] at hy
    simp only [initProtocol, length_jsonSignals] at hy
    rw [List.length_append, List.length_singleton]
    split_ifs at hy
    · rcases List.mem_append.1 hy with hy | hy
      · exact Nat.lt_succ_of_lt (ih hy)
      · obtain ⟨e, -, rfl⟩ := List.mem_map.1 hy
        exact Nat.lt_succ_self _
    · exact Nat.lt_succ_of_lt (ih hy)

theorem getElem?_of_isPrefix {α : Type*} {xs ys : List α} (h : xs <+: ys) {i : ℕ}
    (hi : i < xs.length) : ys[i]? = xs[i]? := by
  obtain ⟨rest, rfl⟩ := h
  exact List.getElem?_append_left hi

/-- The entry that an index of the parsing start leads to in the cached one. -/
theorem getElem?_objectsPool_iff (u' : ActionType)
    (hj : j ∈ (initProtocols u false l).jsonSignals.getD p []) :
    (initProtocols u' true l).objectsPool[j.poolIndex]? =
      (initProtocols u false l).objectsPool[j.poolIndex]? ↔ ∀ x ∈ l.take p, ¬Skipped x := by
  -- the protocol, and those before it
  have hp : p < l.length := by
    by_contra hle
    rw [List.getD_eq_default _ _ (by rw [length_jsonSignals]; omega)] at hj
    exact absurd hj List.not_mem_nil
  obtain ⟨l₁, x, l₂, rfl, rfl⟩ : ∃ l₁ x l₂, l = l₁ ++ x :: l₂ ∧ l₁.length = p :=
    ⟨l.take p, l[p], l.drop (p + 1), by simp, by simp [hp.le]⟩
  rw [List.take_left]
  obtain ⟨hstatus, e, he, hindex⟩ := poolIndex_of_mem hj
  obtain ⟨hle, hiff⟩ := length_objectsPool u u' l₁
  rw [← hiff, hindex]
  have hparsed := pool_of_status u l₁ l₂ hstatus
  have hcached := pool_of_status u' l₁ l₂ (status_true x)
  have hlabel : (initProtocols u false (l₁ ++ x :: l₂)).objectsPool[
      (initProtocols u false l₁).objectsPool.length + e]? = some (l₁.length, e) := by
    rw [getElem?_of_isPrefix hparsed (by simpa using he), List.getElem?_append_right (by omega)]
    simp [he]
  have hlength : (initProtocols u false l₁).objectsPool.length + e <
      ((initProtocols u' true l₁).objectsPool ++
        (List.range x.1.signals.length).map fun e => (l₁.length, e)).length := by
    simp only [List.length_append, List.length_map, List.length_range]
    omega
  rw [hlabel, getElem?_of_isPrefix hcached hlength]
  by_cases hlt : (initProtocols u false l₁).objectsPool.length + e <
      (initProtocols u' true l₁).objectsPool.length
  · -- an entry of an earlier protocol
    rw [List.getElem?_append_left hlt]
    refine iff_of_false (fun h => ?_) (by omega)
    have hearlier := lt_of_mem_objectsPool (List.mem_of_getElem? h)
    exact absurd hearlier (Nat.lt_irrefl _)
  · -- an entry of the protocol: the same one, or one before it
    rw [List.getElem?_append_right (not_lt.1 hlt), List.getElem?_map, List.getElem?_range (by omega),
      Option.map_some, Option.some_inj, Prod.mk.injEq]
    omega

/-! ## What is read back -/

theorem signal_serialize (sig : Signal) : sig.serialize.signal = { sig with name := "" } := by
  obtain ⟨name, startByte, startBit, numOfBits, sign, factor, offset, min, max, valueType, idx⟩ := sig
  cases sign <;> cases valueType <;> rfl

/-- The messages in the file: those with signals. -/
theorem loadFromStorage_saveToStorage (k : ℕ) (pool : List Complete) :
    loadFromStorage (saveToStorage k pool) = some ((pool.filter fun msg => msg.StdId ∈
      (pool.filter fun msg => msg.canJsonSignalsListInProcessOrder ≠ []).map Complete.StdId).map
        fun msg => (msg.StdId, msg.canJsonSignalsPoolIdxInProcessOrder.map fun sig =>
          { sig with name := "" })) := by
  rw [loadFromStorage, saveToStorage, Codec.get_put_self, Option.map_some, List.map_map]
  simp only [Function.comp_def, List.map_map, signal_serialize]

/-- The list of a message of the pool. -/
theorem signals_map (objectsPool : List (ℕ × ℕ)) (pool : List Complete)
    (g : Complete → List Signal) (id : ℕ) :
    Start.signals ⟨objectsPool, pool.map fun msg => (msg.StdId, g msg)⟩ id =
      (pool.filter fun msg => msg.StdId = id).flatMap g := by
  unfold Start.signals
  rw [List.filter_map, List.flatMap_map]
  rfl

/-- Those without a list do not count. -/
theorem flatMap_filter {α β : Type*} (l : List α) (q r : α → Bool) (g : α → List β)
    (h : ∀ x ∈ l, r x = false → g x = []) :
    ((l.filter r).filter q).flatMap g = (l.filter q).flatMap g := by
  induction l with
  | nil => rfl
  | cons x l ih =>
    have ih := ih fun y hy => h y (List.mem_cons_of_mem x hy)
    cases hr : r x with
    | true =>
      rw [List.filter_cons_of_pos hr]
      cases hq : q x with
      | true =>
        rw [List.filter_cons_of_pos hq, List.filter_cons_of_pos hq, List.flatMap_cons,
          List.flatMap_cons, ih]
      | false =>
        rw [List.filter_cons_of_neg (by simp [hq]), List.filter_cons_of_neg (by simp [hq]), ih]
    | false =>
      rw [List.filter_cons_of_neg (by simp [hr]), ih]
      cases hq : q x with
      | true =>
        rw [List.filter_cons_of_pos hq, List.flatMap_cons, h x List.mem_cons_self hr,
          List.nil_append]
      | false => rw [List.filter_cons_of_neg (by simp [hq])]

theorem forall_iff_of_forall₂ {α β : Type*} {R : α → β → Prop} {P : α → Prop} {Q : β → Prop}
    {l : List α} {l' : List β} (h : List.Forall₂ R l l') (hPQ : ∀ x y, R x y → (P x ↔ Q y)) :
    (∀ x ∈ l, P x) ↔ ∀ y ∈ l', Q y := by
  induction h with
  | nil => simp
  | cons hxy _ ih => rw [List.forall_mem_cons, List.forall_mem_cons, hPQ _ _ hxy, ih]

/-- The cached start has the lists of the parsing one, but for the names. -/
theorem signals_cached {js : List (List AMJsonSignal)} {msgs : List (ℕ × CanRxMsg)}
    {pool : List Complete} (h : List.Forall₂ (Completes js) msgs pool) (o o' : List (ℕ × ℕ))
    (id : ℕ) :
    Start.signals ⟨o', (pool.filter fun msg => msg.StdId ∈
      (pool.filter fun msg => msg.canJsonSignalsListInProcessOrder ≠ []).map Complete.StdId).map
        fun msg => (msg.StdId, msg.canJsonSignalsPoolIdxInProcessOrder.map fun sig =>
          { sig with name := "" })⟩ id =
      (Start.signals ⟨o, pool.map fun msg =>
        (msg.StdId, msg.canJsonSignalsPoolIdxInProcessOrder)⟩ id).map
          fun sig => { sig with name := "" } := by
  rw [signals_map, signals_map, List.map_flatMap]
  refine flatMap_filter _ _ _ _ fun msg hmsg hout => ?_
  -- a message that is not in the file has no signals
  have horder : msg.canJsonSignalsListInProcessOrder = [] := by
    by_contra hne
    refine absurd ?_ (of_decide_eq_false hout)
    exact List.mem_map.2 ⟨msg, List.mem_filter.2 ⟨hmsg, decide_eq_true hne⟩, rfl⟩
  have hsignals : ∀ msg ∈ pool, msg.canJsonSignalsListInProcessOrder = [] →
      msg.canJsonSignalsPoolIdxInProcessOrder = [] := by
    refine (forall_iff_of_forall₂ (P := fun _ => True) h fun x c hc => ?_).1 fun _ _ => trivial
    obtain ⟨f, hf⟩ := hc.signals
    refine iff_of_true trivial fun hnil => ?_
    rw [hnil] at hf
    exact (Option.some.inj hf).symm
  rw [hsignals msg hmsg horder, List.map_nil]

/-- The same signals lead to the same entries just if their indices do. -/
theorem association_eq_iff_index {s t : Start} {id : ℕ}
    (h : t.signals id = (s.signals id).map fun sig => { sig with name := "" }) :
    t.association id = s.association id ↔ ∀ sig ∈ s.signals id,
      t.objectsPool[sig.AMJsonSignalIdx]? = s.objectsPool[sig.AMJsonSignalIdx]? := by
  unfold Start.association
  rw [h, List.map_map, List.map_inj_left]
  refine forall₂_congr fun sig _ => ?_
  simp [Signal.serialize]

/-- The start from the file that a parsing start has written builds the same association exactly if
    no protocol with signals was skipped before one with a message that has signals. -/
theorem association_eq_iff {f : Fields} {k : ℕ} {s : Start} {file : List Item}
    (h : parsingStart u f k l = some (s, file)) (u' : ActionType) :
    ∃ t, cachedStart u' l file = some t ∧
      ((∀ id, t.association id = s.association id) ↔ Unmoved u l) := by
  obtain ⟨pool, hpool, heq⟩ := Option.map_eq_some_iff.1 h
  obtain ⟨rfl, rfl⟩ := Prod.mk.inj heq
  have hcomp := completes_of_completeInit hpool
  refine ⟨_, by rw [cachedStart, loadFromStorage_saveToStorage, Option.map_some], ?_⟩
  simp only [association_eq_iff_index (signals_cached hcomp _ _ _), signals_map]
  -- message by message
  have hmsgs : (∀ id, ∀ sig ∈ (pool.filter fun msg => msg.StdId = id).flatMap
        Complete.canJsonSignalsPoolIdxInProcessOrder,
        (initProtocols u' true l).objectsPool[sig.AMJsonSignalIdx]? =
          (initProtocols u false l).objectsPool[sig.AMJsonSignalIdx]?) ↔
      ∀ msg ∈ pool, ∀ sig ∈ msg.canJsonSignalsPoolIdxInProcessOrder,
        (initProtocols u' true l).objectsPool[sig.AMJsonSignalIdx]? =
          (initProtocols u false l).objectsPool[sig.AMJsonSignalIdx]? := by
    constructor
    · intro hall msg hmsg sig hsig
      refine hall msg.StdId sig (List.mem_flatMap.2 ⟨msg, ?_, hsig⟩)
      exact List.mem_filter.2 ⟨hmsg, decide_eq_true rfl⟩
    · intro hall id sig hsig
      obtain ⟨msg, hmsg, hsig⟩ := List.mem_flatMap.1 hsig
      exact hall msg (List.mem_of_mem_filter hmsg) sig hsig
  rw [hmsgs]
  refine (forall_iff_of_forall₂ hcomp fun x msg hx => ?_).symm
  obtain ⟨-, horder, f', hsignals⟩ := hx
  obtain ⟨hfrom, hto⟩ := poolIdxInProcessOrder_spec hsignals
  have hentry : ∀ j ∈ msg.canJsonSignalsListInProcessOrder,
      j ∈ (initProtocols u false l).jsonSignals.getD x.2.itsJsonProtocol [] := fun j hj => by
    obtain ⟨c, -, hj⟩ := List.mem_flatMap.1 (mem_of_mem_processOrder horder hj)
    exact List.mem_of_mem_filter hj
  rw [← processOrder_ne_nil horder]
  constructor
  · intro hnone sig hsig
    obtain ⟨j, hj, hidx⟩ := hfrom sig hsig
    rw [hidx]
    exact (getElem?_objectsPool_iff u' (hentry j hj)).2 (hnone (List.ne_nil_of_mem hj))
  · intro hall hne
    obtain ⟨j, hj⟩ := List.exists_mem_of_ne_nil _ hne
    obtain ⟨sig, hsig, hidx⟩ := hto j hj
    exact (getElem?_objectsPool_iff u' (hentry j hj)).1 (hidx ▸ hall sig hsig)

/-! ## A protocol that is skipped -/

/-- A protocol on the CAN bus with one signal. -/
def oneSignal : Protocol where
  type := .can
  valueTables := []
  signals := [⟨"speed", none, "ALERT_SPEED", true, .graphicItem, -1, false⟩]

/-- A field of that name. -/
def speedField : Signal := ⟨"speed", 0, 0, 8, true, 0, 0, 0, 0, .integer, 0⟩

/-- Two such protocols: the DBC file of the first one is missing. -/
def skippedFirst : List (Protocol × Dbc) :=
  [(oneSignal, ⟨[], false⟩), (oneSignal, ⟨[(257, [speedField])], true⟩)]

/-- The same two, in the other order. -/
def skippedLast : List (Protocol × Dbc) :=
  [(oneSignal, ⟨[(257, [speedField])], true⟩), (oneSignal, ⟨[], false⟩)]

/-- What the fields are before they are set. -/
def someFields : Fields := fun _ => (speedField, speedField)

theorem isSome_parsingStart_skippedLast :
    (parsingStart .graphicItem someFields 0 skippedLast).isSome := by decide +kernel

theorem association_eq_iff_skippedLast :
    let r := (parsingStart .graphicItem someFields 0 skippedLast).get isSome_parsingStart_skippedLast
    ∃ t, cachedStart .graphicItem skippedLast r.2 = some t ∧
      ((∀ id, t.association id = r.1.association id) ↔ Unmoved .graphicItem skippedLast) :=
  association_eq_iff (Option.some_get isSome_parsingStart_skippedLast).symm .graphicItem

/-- Where the first one was skipped, the cached start takes the signal of the first protocol for that
    of the second one. -/
theorem association_fails_of_skippedFirst :
    ¬ ∀ (u u' : ActionType) (f : Fields) (k : ℕ) (l : List (Protocol × Dbc)) (s t : Start)
      (file : List Item), parsingStart u f k l = some (s, file) → cachedStart u' l file = some t →
        ∀ id, t.association id = s.association id := by
  intro hall
  have hne : ((parsingStart .graphicItem someFields 0 skippedFirst).bind fun r =>
      (cachedStart .graphicItem skippedFirst r.2).map fun t =>
        decide (t.association 257 = r.1.association 257)) = some false := by decide +kernel
  obtain ⟨⟨s, file⟩, hparsing, hne⟩ := Option.bind_eq_some_iff.1 hne
  obtain ⟨t, hcached, hne⟩ := Option.map_eq_some_iff.1 hne
  exact of_decide_eq_false hne (hall _ _ _ _ _ _ _ _ hparsing hcached 257)

end EW8.Config

import EW8.Rx.Extraction
import EW8.Display.Enablers

/-!
# Replies to requests

A request that the unit sends has an id of two bytes; the reply has it in two signals of the
type `RequestId`, which come first in the process order of a message, after its
validator. The other signals of the message are processed if the id is that of the request
that is outstanding. All messages share the variables for this (`Request`), and a frame is
processed signal by signal (`parse`).

* `outstanding`: the request that is waited for, by what has happened.
* A frame is accepted exactly if its validator accepts it and its id is that of the
  outstanding request, which is answered by it (`accepted_of_run`).
-/

namespace EW8.Rx

open EW8.Config
open EW8.Display (QVariant SetOp extractSetUnsetAction)

/-! ## The request -/

/-- The static variables of `CanRxMsg` for requests. -/
structure Request where
  requestId : UInt16
  isRequestSent : Bool
  isRequestIdLSBByteReceived : Bool
  deriving DecidableEq, Repr

namespace Request

variable (r : Request)

/-- `expectRequestId`. -/
def expectRequestId (aRequestId : UInt16) : Request := ⟨aRequestId, true, false⟩

/-- `receiveRequestIdByteLSB`. -/
def receiveRequestIdByteLSB (aByte : UInt8) : Request :=
  { r with isRequestIdLSBByteReceived :=
      r.isRequestSent && aByte.toUInt16 == (r.requestId &&& 0xff) }

/-- `receiveRequestIdByteMSB`. -/
def receiveRequestIdByteMSB (aByte : UInt8) : Request :=
  if r.isRequestIdLSBByteReceived && aByte.toUInt16 == (r.requestId >>> 8 &&& 0xff) then
    { r with isRequestSent := false }
  else r

/-- `discardRequestId`. -/
def discardRequestId : Request :=
  { r with isRequestIdLSBByteReceived := false, isRequestSent := false }

/-- `AMJsonRequestIdAction::process`. -/
def process (itsIndex : ℤ) (extractedCANsignal : QVariant) : Request :=
  let r := if itsIndex = 0 then r.receiveRequestIdByteLSB (.ofInt extractedCANsignal.toInt) else r
  if itsIndex = 1 then r.receiveRequestIdByteMSB (.ofInt extractedCANsignal.toInt) else r

end Request

/-! ## Messages -/

/-- The pool of signals, with what decides on their values. -/
structure Pool where
  getByIndex : ℕ → Option AMJsonSignal
  polarity : ℕ → Bool
  trueValuesOp : ℕ → SetOp
  trueValues : ℕ → Option (List ℤ)

/-- A message with the entries of its protocol that it names, in its process order. -/
structure Message where
  named : List AMJsonSignal
  fields : Fields
  canJsonSignalsListInProcessOrder : List AMJsonSignal
  canJsonSignalsPoolIdxInProcessOrder : List Signal
  order : processOrder named = some canJsonSignalsListInProcessOrder
  signals : poolIdxInProcessOrder fields canJsonSignalsListInProcessOrder =
    some canJsonSignalsPoolIdxInProcessOrder

/-- A frame with a message: what the data are, which signals are enabled, with their protocols, and
    what variables are that have not been set, and shifts that are not defined. -/
structure Frame where
  msg : Message
  data : Data
  isEnabled : ℕ → Bool
  uninitialized : Bool
  undefinedShift : ℕ → UInt32 → ℕ

/-- The value of a field of the frame. -/
def Frame.extract (frame : Frame) (canSignal : Signal) : QVariant :=
  extractSignal frame.undefinedShift canSignal frame.data

/-- The loop over the signals of a frame, with the calls of `process` it has made: the signal and its
    values. -/
structure Loop where
  request : Request
  discardMsgOnRequestIdFail : Bool
  processed : List (AMJsonSignal × QVariant × QVariant)

namespace Loop

variable (s : Loop)

/-- The check of the request id: whether the rest of the message is discarded. -/
def check (type : ActionType) : Loop × Bool :=
  if type = .requestId then ({ s with discardMsgOnRequestIdFail := true }, false)
  else if s.discardMsgOnRequestIdFail then
    if s.request.isRequestIdLSBByteReceived && !s.request.isRequestSent then
      ({ s with discardMsgOnRequestIdFail := false }, false)
    else ({ s with request := { s.request with isRequestIdLSBByteReceived := false } }, true)
  else (s, false)

end Loop

namespace Pool

variable (x : Pool) (frame : Frame)

/-- `extractSetUnsetAction` of a signal. -/
def extractSetUnset (idx : ℕ) (v : QVariant) : Option Bool :=
  extractSetUnsetAction (x.polarity idx) (x.trueValuesOp idx) (x.trueValues idx)
    frame.uninitialized v

/-- What the action of a signal without a value table is given. -/
def value (idx : ℕ) (v : QVariant) : QVariant :=
  ((x.extractSetUnset frame idx v).map QVariant.bool).getD v

/-- `AMJsonSignal::process`, as far as the request goes. -/
def process (j : AMJsonSignal) (arg sup : QVariant) (s : Loop) : Loop where
  request :=
    if j.type = .requestId ∧ frame.isEnabled j.poolIndex then
      s.request.process j.index (x.value frame j.poolIndex arg)
    else s.request
  discardMsgOnRequestIdFail := s.discardMsgOnRequestIdFail
  processed := s.processed ++ [(j, arg, sup)]

/-- The loop of `canRxJsonSignalsParseAndProcess`: after a supplemented signal, the next one is its
    second field, and skipped. No value is null. -/
def parse : List Signal → Bool → Loop → Loop
  | [], _, s => s
  | _ :: l, true, s => parse l false s
  | sig :: l, false, s =>
    match x.getByIndex sig.AMJsonSignalIdx with
    | none => parse l false s
    | some j =>
      let arg := frame.extract sig
      if j.type = .validator then
        if x.extractSetUnset frame j.poolIndex arg = some true then parse l false s else s
      else
        let (s, discardMsg) := s.check j.type
        if discardMsg then s
        else
          let sup :=
            if j.isSupplementedSignalEntry then
              l.head?.elim (.int 0) fun supSig => frame.extract supSig
            else .int 0
          parse l j.isSupplementedSignalEntry (x.process frame j arg sup s)

/-- `canRxJsonSignalsParseAndProcess`. -/
def canRxJsonSignalsParseAndProcess (r : Request) : Loop :=
  x.parse frame frame.msg.canJsonSignalsPoolIdxInProcessOrder false ⟨r, false, []⟩

end Pool

/-! ## Events -/

/-- What can happen. -/
inductive Event
  | expectRequestId (aRequestId : UInt16)
  | discardRequestId
  | frame (frame : Frame)

/-- A step. -/
def step (x : Pool) (r : Request) : Event → Request
  | .expectRequestId aRequestId => .expectRequestId aRequestId
  | .discardRequestId => r.discardRequestId
  | .frame frame => (x.canRxJsonSignalsParseAndProcess frame r).request

/-- One event after the other. -/
def run (x : Pool) (l : List Event) : Request := l.foldl (step x) ⟨0, false, false⟩

/-! ## What is waited for -/

/-- The message has the two signals of the type `RequestId`. -/
def Message.Gated (m : Message) : Prop := (sorted m.named).requestidcount = 2

instance (m : Message) : Decidable m.Gated := inferInstanceAs (Decidable (_ = _))

/-- The fields of an entry. -/
def Message.fieldsOf (m : Message) (j : AMJsonSignal) : List Signal :=
  (m.fields j.poolIndex).1 :: if j.isSupplementedSignalEntry then [(m.fields j.poolIndex).2] else []

/-- The signals that are processed with a message. -/
def Message.following (m : Message) : List AMJsonSignal :=
  m.canJsonSignalsListInProcessOrder.filter fun j => j.type ≠ .requestId ∧ j.type ≠ .validator

namespace Frame

variable (x : Pool) (frame : Frame)

/-- The call of `process` for an entry. -/
def call (j : AMJsonSignal) : AMJsonSignal × QVariant × QVariant :=
  (j, frame.extract (frame.msg.fields j.poolIndex).1,
    if j.isSupplementedSignalEntry then frame.extract (frame.msg.fields j.poolIndex).2
    else .int 0)

/-- The validator, if there is one, accepts the frame. -/
def Valid : Prop :=
  ∀ j ∈ frame.msg.canJsonSignalsListInProcessOrder, j.type = .validator →
    ∀ sig ∈ frame.msg.fieldsOf j,
      x.extractSetUnset frame j.poolIndex (frame.extract sig) = some true

/-- A byte of the request id that the frame carries. -/
def requestIdByte (i : ℤ) : Option UInt8 :=
  (frame.msg.canJsonSignalsListInProcessOrder.find? fun j => j.type = .requestId ∧ j.index = i).map
    fun j => .ofInt (x.value frame j.poolIndex
      (frame.extract (frame.msg.fields j.poolIndex).1)).toInt

/-- The frame carries this id. -/
def Matches (requestId : UInt16) : Prop :=
  frame.requestIdByte x 0 = some requestId.toUInt8 ∧
    frame.requestIdByte x 1 = some (requestId >>> 8).toUInt8

/-- The frame is valid, and the reply to the request that is waited for. -/
def Accepts (outstanding : Option UInt16) : Prop :=
  frame.Valid x ∧ ∃ requestId ∈ outstanding, frame.Matches x requestId

instance : Decidable (frame.Valid x) :=
  inferInstanceAs (Decidable (∀ j ∈ frame.msg.canJsonSignalsListInProcessOrder, j.type = .validator →
    ∀ sig ∈ frame.msg.fieldsOf j,
      x.extractSetUnset frame j.poolIndex (frame.extract sig) = some true))

instance (requestId : UInt16) : Decidable (frame.Matches x requestId) := instDecidableAnd

instance (outstanding : Option UInt16) : Decidable (frame.Accepts x outstanding) :=
  inferInstanceAs (Decidable (_ ∧ ∃ requestId ∈ outstanding, frame.Matches x requestId))

/-- The entries of the message are those of the pool, and its two signals for the request are
    enabled, with their protocol. -/
structure Proper : Prop where
  getByIndex : ∀ j ∈ frame.msg.canJsonSignalsListInProcessOrder, x.getByIndex j.poolIndex = some j
  isEnabled : ∀ j ∈ frame.msg.canJsonSignalsListInProcessOrder, j.type = .requestId →
    frame.isEnabled j.poolIndex = true

end Frame

/-- The request that is waited for after an event: a frame with its id is the reply to it. -/
def await (x : Pool) (outstanding : Option UInt16) : Event → Option UInt16
  | .expectRequestId aRequestId => some aRequestId
  | .discardRequestId => none
  | .frame frame => if frame.msg.Gated ∧ frame.Accepts x outstanding then none else outstanding

/-- The request that is waited for after these events. -/
def outstanding (x : Pool) (l : List Event) : Option UInt16 := l.foldl (await x) none

/-- What a signal of a whole byte gives for the request: this byte. -/
theorem ofInt_value {x : Pool} {frame : Frame} {idx : ℕ} {sig : Signal} (hbits : sig.numOfBits = 8)
    (hstart : sig.startBit = 0) (htype : sig.valueType = .integer)
    (hmax : sig.max ≠ 0x3FF0000000000000) (hset : x.trueValues idx = none) :
    UInt8.ofInt (x.value frame idx (frame.extract sig)).toInt =
      frame.data sig.startByte.toNat := by
  have hraw : (raw_val frame.undefinedShift sig frame.data).toNat =
      (frame.data sig.startByte.toNat).toNat := by
    have hmask : (cut_mask frame.undefinedShift sig.numOfBits).toNat = 2 ^ 8 - 1 := by
      rw [toNat_cut_mask (by simp [hbits]), hbits]
      rfl
    rw [toNat_raw_val (by simp [hstart]), hmask, hstart, Nat.and_two_pow_sub_one_eq_mod]
    exact Nat.mod_eq_of_lt (UInt8.toNat_lt _)
  have hextract : frame.extract sig = .int (frame.data sig.startByte.toNat).toNat := by
    unfold Frame.extract extractSignal
    rw [htype]
    simp [hbits, hmax, hraw]
  have hvalue : x.value frame idx (.int (frame.data sig.startByte.toNat).toNat) =
      .int (frame.data sig.startByte.toNat).toNat := by
    rw [Pool.value, Pool.extractSetUnset, hset]
    rfl
  have hlt := (frame.data sig.startByte.toNat).toNat_lt
  rw [hextract, hvalue, QVariant.toInt, UInt8.ofInt, Int.emod_eq_of_lt (by omega) (by omega),
    Int.toNat_natCast, UInt8.ofNat_toNat]

/-! ## The order of the signals -/

section

variable {s : Sorted} {l : List AMJsonSignal} {j : AMJsonSignal}

/-- The entries are sorted by their types. -/
structure Typed (s : Sorted) : Prop where
  signalValidator : ∀ j ∈ s.signalValidator, j.type = .validator
  signalsRequestId₀ : ∀ j ∈ s.signalsRequestId₀, j.type = .requestId ∧ j.index = 0
  signalsRequestId₁ : ∀ j ∈ s.signalsRequestId₁, j.type = .requestId ∧ j.index = 1
  rest : ∀ j ∈ s.inProcessOrder ++ s.signalsToAppendList, j.type ≠ .requestId ∧ j.type ≠ .validator

theorem Typed.add (h : Typed s) (j : AMJsonSignal) : Typed (s.add j) := by
  obtain ⟨hvalidator, hid₀, hid₁, hrest⟩ := h
  unfold Sorted.add
  cases hj : j.type
  case requestId =>
    dsimp only
    split_ifs with h₀ h₁
    · exact ⟨hvalidator, fun k hk => Option.some.inj hk ▸ ⟨hj, h₀⟩, hid₁, hrest⟩
    · exact ⟨hvalidator, hid₀, fun k hk => Option.some.inj hk ▸ ⟨hj, h₁⟩, hrest⟩
    · exact ⟨hvalidator, hid₀, hid₁, hrest⟩
  case validator =>
    exact ⟨fun k hk => Option.some.inj hk ▸ hj, hid₀, hid₁, hrest⟩
  all_goals
    refine ⟨hvalidator, hid₀, hid₁, fun k hk => ?_⟩
    have hk : k ∈ s.inProcessOrder ++ s.signalsToAppendList ∨ k = j := by
      simp only [List.mem_append, List.mem_cons] at hk ⊢
      tauto
    rcases hk with hk | rfl
    · exact hrest k hk
    · simp [hj]

theorem typed_sorted (l : List AMJsonSignal) : Typed (sorted l) := by
  induction l using List.reverseRecOn with
  | nil => exact ⟨by simp [sorted], by simp [sorted], by simp [sorted], by simp [sorted]⟩
  | append_singleton l j ih => exact sorted_concat ▸ ih.add j

/-- First the validator, then the two signals of the request, if there are two, then the others. -/
theorem Message.order_eq (m : Message) : ∃ validator requestIds : List AMJsonSignal,
    m.canJsonSignalsListInProcessOrder = validator ++ requestIds ++ m.following ∧
    (∀ j ∈ validator, j.type = .validator) ∧
    if m.Gated then ∃ j₀ j₁, requestIds = [j₀, j₁] ∧ (j₀.type = .requestId ∧ j₀.index = 0) ∧
      j₁.type = .requestId ∧ j₁.index = 1
    else requestIds = [] := by
  obtain ⟨r, hr, horder⟩ := Option.map_eq_some_iff.1 m.order
  have htyped := typed_sorted m.named
  have hvalidator : ∀ j ∈ (sorted m.named).signalValidator.toList, j.type = .validator :=
    fun j hj => htyped.signalValidator j (Option.mem_toList.1 hj)
  -- the two signals of the request
  have hids : if m.Gated then ∃ j₀ j₁, r = [j₀, j₁] ∧ (j₀.type = .requestId ∧ j₀.index = 0) ∧
      j₁.type = .requestId ∧ j₁.index = 1 else r = [] := by
    rw [Sorted.requestIds] at hr
    split_ifs at hr ⊢ with hcount hgated hgated
    · obtain ⟨j₀, h₀, hr⟩ := Option.bind_eq_some_iff.1 hr
      obtain ⟨j₁, h₁, rfl⟩ := Option.map_eq_some_iff.1 hr
      exact ⟨j₀, j₁, rfl, htyped.signalsRequestId₀ j₀ h₀, htyped.signalsRequestId₁ j₁ h₁⟩
    · exact absurd hcount hgated
    · exact absurd hgated hcount
    · exact (Option.some.inj hr).symm
  have hrequestId : ∀ j ∈ r, j.type = .requestId := by
    split_ifs at hids
    · obtain ⟨j₀, j₁, rfl, h₀, h₁⟩ := hids
      exact List.forall_mem_cons.2 ⟨h₀.1, List.forall_mem_singleton.2 h₁.1⟩
    · rw [hids]
      exact List.forall_mem_nil _
  refine ⟨(sorted m.named).signalValidator.toList, r, ?_, hvalidator, hids⟩
  have hfollowing : m.following =
      (sorted m.named).inProcessOrder ++ (sorted m.named).signalsToAppendList := by
    rw [Message.following, ← horder, List.append_assoc, List.filter_append, List.filter_append,
      List.filter_eq_nil_iff.2 fun j hj => by simp [hvalidator j hj],
      List.filter_eq_nil_iff.2 fun j hj => by simp [hrequestId j hj],
      List.filter_eq_self.2 fun j hj => by simpa using htyped.rest j hj]
    rfl
  rw [hfollowing, ← horder, List.append_assoc, List.append_assoc]

end

/-! ## The bytes of the id -/

namespace Request

variable {r : Request} {b₀ b₁ : UInt8}

/-- A byte is compared with the low byte of a word. -/
theorem eq_low_iff (b : UInt8) (w : UInt16) :
    (b.toUInt16 == (w &&& 0xff)) = decide (b = w.toUInt8) := by
  rw [Bool.eq_iff_iff, beq_iff_eq, decide_eq_true_iff, ← UInt16.toNat_inj, ← UInt8.toNat_inj,
    UInt8.toNat_toUInt16, UInt16.toNat_and, UInt16.toNat_toUInt8]
  have hmod : w.toNat &&& (0xff : UInt16).toNat = w.toNat % 2 ^ 8 :=
    Nat.and_two_pow_sub_one_eq_mod w.toNat 8
  rw [hmod]

/-- The id that two bytes make. -/
def Is (r : Request) (b₀ b₁ : UInt8) : Prop :=
  r.isRequestSent = true ∧ b₀ = r.requestId.toUInt8 ∧ b₁ = (r.requestId >>> 8).toUInt8

instance : Decidable (r.Is b₀ b₁) := instDecidableAnd

/-- After both bytes, the request is answered if they are those of its id. -/
theorem receive_spec (r : Request) (b₀ b₁ : UInt8) :
    let r' := (r.receiveRequestIdByteLSB b₀).receiveRequestIdByteMSB b₁
    (r'.isRequestIdLSBByteReceived && !r'.isRequestSent) = decide (r.Is b₀ b₁) ∧
      r'.requestId = r.requestId ∧
      r'.isRequestSent = (r.isRequestSent && !decide (r.Is b₀ b₁)) := by
  intro r'
  have hr' : r' = (r.receiveRequestIdByteLSB b₀).receiveRequestIdByteMSB b₁ := rfl
  clear_value r'
  rw [receiveRequestIdByteLSB, receiveRequestIdByteMSB, eq_low_iff, eq_low_iff] at hr'
  unfold Is
  by_cases hsent : r.isRequestSent = true <;> by_cases h₀ : b₀ = r.requestId.toUInt8 <;>
    by_cases h₁ : b₁ = (r.requestId >>> 8).toUInt8 <;> simp_all

end Request

/-! ## The loop -/

section

variable {x : Pool} {frame : Frame} {s : Loop} {j : AMJsonSignal} {l : List Signal}
  {o : List AMJsonSignal}

/-- The signals of an entry, with its index. -/
def Message.indexed (m : Message) (j : AMJsonSignal) : List Signal :=
  (m.fieldsOf j).map fun sig => { sig with AMJsonSignalIdx := j.poolIndex }

theorem Message.signals_eq (m : Message) : m.canJsonSignalsPoolIdxInProcessOrder =
    m.canJsonSignalsListInProcessOrder.flatMap m.indexed := by
  have hsignals := m.signals
  generalize m.canJsonSignalsListInProcessOrder = o at hsignals ⊢
  generalize m.canJsonSignalsPoolIdxInProcessOrder = sigs at hsignals ⊢
  induction o generalizing sigs with
  | nil => exact (Option.some.inj hsignals).symm
  | cons j o ih =>
    rw [poolIdxInProcessOrder] at hsignals
    rw [List.flatMap_cons]
    split_ifs at hsignals with hsup hname
    · obtain ⟨rest, hrest, rfl⟩ := Option.map_eq_some_iff.1 hsignals
      rw [← ih rest hrest, Message.indexed, Message.fieldsOf, if_pos hsup]
      rfl
    · obtain ⟨rest, hrest, rfl⟩ := Option.map_eq_some_iff.1 hsignals
      rw [← ih rest hrest, Message.indexed, Message.fieldsOf, if_neg hsup]
      rfl

/-- The validator: nothing happens, or the rest is discarded. -/
theorem parse_validator (hget : x.getByIndex j.poolIndex = some j) (hj : j.type = .validator)
    (l : List Signal) (s : Loop) : x.parse frame (frame.msg.indexed j ++ l) false s =
      if ∀ sig ∈ frame.msg.fieldsOf j,
          x.extractSetUnset frame j.poolIndex (frame.extract sig) = some true then
        x.parse frame l false s
      else s := by
  have hone (sig : Signal) (l : List Signal) :
      x.parse frame ({ sig with AMJsonSignalIdx := j.poolIndex } :: l) false s =
        if x.extractSetUnset frame j.poolIndex (frame.extract sig) = some true then
          x.parse frame l false s
        else s := by
    rw [Pool.parse, hget]
    simp only [hj, if_true]
    rfl
  unfold Message.indexed Message.fieldsOf
  split_ifs with hsup hall hall
  · rw [List.forall_mem_cons, List.forall_mem_singleton] at hall
    rw [List.map_cons, List.map_singleton, List.cons_append, hone, if_pos hall.1,
      List.singleton_append, hone, if_pos hall.2]
  · rw [List.forall_mem_cons, List.forall_mem_singleton] at hall
    rw [List.map_cons, List.map_singleton, List.cons_append, hone, List.singleton_append, hone]
    split_ifs with h₁ h₂
    · exact absurd ⟨h₁, h₂⟩ hall
    · rfl
    · rfl
  · rw [List.forall_mem_singleton] at hall
    rw [List.map_singleton, List.singleton_append, hone, if_pos hall]
  · rw [List.forall_mem_singleton] at hall
    rw [List.map_singleton, List.singleton_append, hone, if_neg hall]

/-- Any other signal. -/
theorem parse_signal (hget : x.getByIndex j.poolIndex = some j) (hj : j.type ≠ .validator)
    (l : List Signal) (s : Loop) : x.parse frame (frame.msg.indexed j ++ l) false s =
      if (s.check j.type).2 then (s.check j.type).1
      else x.parse frame l false (x.process frame j (frame.call j).2.1 (frame.call j).2.2
        (s.check j.type).1) := by
  unfold Message.indexed Message.fieldsOf Frame.call
  split_ifs with hsup hdiscard hdiscard
  · rw [List.map_cons, List.map_singleton, List.cons_append, Pool.parse, hget]
    simp only [if_neg hj, hdiscard, if_true]
  · rw [List.map_cons, List.map_singleton, List.cons_append, Pool.parse, hget]
    simp only [if_neg hj, hdiscard, hsup, if_true]
    rfl
  · rw [List.map_singleton, List.singleton_append, Pool.parse, hget]
    simp only [if_neg hj, hdiscard, if_true]
  · rw [List.map_singleton, List.singleton_append, Pool.parse, hget]
    simp only [if_neg hj, hdiscard, hsup]
    rfl

/-- A signal that is neither for the request nor the validator. -/
theorem process_of_ne (hj : j.type ≠ .requestId) (arg sup : QVariant) (s : Loop) :
    x.process frame j arg sup s = { s with processed := s.processed ++ [(j, arg, sup)] } := by
  rw [Pool.process, if_neg fun h => hj h.1]

/-- Without a check, all signals are processed. -/
theorem parse_processed (hget : ∀ j ∈ o, x.getByIndex j.poolIndex = some j)
    (ho : ∀ j ∈ o, j.type ≠ .requestId ∧ j.type ≠ .validator)
    (hs : s.discardMsgOnRequestIdFail = false) :
    x.parse frame (o.flatMap frame.msg.indexed) false s =
      { s with processed := s.processed ++ o.map frame.call } := by
  induction o generalizing s with
  | nil => simp [Pool.parse]
  | cons j o ih =>
    obtain ⟨hget₁, hget⟩ := List.forall_mem_cons.1 hget
    obtain ⟨⟨hid, hvalidator⟩, ho⟩ := List.forall_mem_cons.1 ho
    have hcheck : s.check j.type = (s, false) := by
      rw [Loop.check, if_neg hid, if_neg (by rw [hs]; exact Bool.false_ne_true)]
    rw [List.flatMap_cons, parse_signal hget₁ hvalidator, hcheck, if_neg Bool.false_ne_true,
      process_of_ne hid]
    refine Eq.trans (ih hget ho ?_) ?_
    · exact hs
    · rw [List.map_cons, List.append_assoc, List.singleton_append]
      rfl

/-- The first signal after those of the request decides for all. -/
theorem parse_following (frame : Frame) (hget : ∀ j ∈ o, x.getByIndex j.poolIndex = some j)
    (ho : ∀ j ∈ o, j.type ≠ .requestId ∧ j.type ≠ .validator)
    (hs : s.discardMsgOnRequestIdFail = true) :
    let accepted := s.request.isRequestIdLSBByteReceived && !s.request.isRequestSent
    let s' := x.parse frame (o.flatMap frame.msg.indexed) false s
    s'.processed = s.processed ++ (if accepted then o.map frame.call else []) ∧
      s'.request.requestId = s.request.requestId ∧
      s'.request.isRequestSent = s.request.isRequestSent := by
  cases o with
  | nil => simp [Pool.parse]
  | cons j o =>
    obtain ⟨hget₁, hget'⟩ := List.forall_mem_cons.1 hget
    obtain ⟨⟨hid, hvalidator⟩, ho'⟩ := List.forall_mem_cons.1 ho
    intro accepted s'
    have hs' : s' = x.parse frame (frame.msg.indexed j ++ o.flatMap frame.msg.indexed) false s := rfl
    rw [parse_signal hget₁ hvalidator, Loop.check, if_neg hid, if_pos hs] at hs'
    by_cases haccepted : accepted = true
    · rw [if_pos haccepted, if_neg Bool.false_ne_true, process_of_ne hid, parse_processed hget' ho' rfl]
        at hs'
      rw [hs', if_pos haccepted]
      exact ⟨by simp [Frame.call], rfl, rfl⟩
    · rw [if_neg haccepted, if_pos rfl] at hs'
      rw [hs', if_neg haccepted]
      exact ⟨(List.append_nil _).symm, rfl, rfl⟩

/-- The validators are asked first. -/
theorem parse_validators (hget : ∀ j ∈ o, x.getByIndex j.poolIndex = some j)
    (ho : ∀ j ∈ o, j.type = .validator) (l : List Signal) (s : Loop) :
    x.parse frame (o.flatMap frame.msg.indexed ++ l) false s =
      if ∀ j ∈ o, ∀ sig ∈ frame.msg.fieldsOf j,
          x.extractSetUnset frame j.poolIndex (frame.extract sig) = some true then
        x.parse frame l false s
      else s := by
  induction o with
  | nil => simp
  | cons j o ih =>
    obtain ⟨hget₁, hget⟩ := List.forall_mem_cons.1 hget
    obtain ⟨hj, ho⟩ := List.forall_mem_cons.1 ho
    rw [List.flatMap_cons, List.append_assoc, parse_validator hget₁ hj, ih hget ho]
    simp only [List.forall_mem_cons]
    split_ifs <;> first | rfl | tauto

theorem Message.mem_following {m : Message} (hj : j ∈ m.following) :
    j.type ≠ .requestId ∧ j.type ≠ .validator := of_decide_eq_true (List.mem_filter.1 hj).2

/-- A frame is parsed up to its validator, and further if that accepts it. -/
theorem canRxJsonSignalsParseAndProcess_eq
    (hget : ∀ j ∈ frame.msg.canJsonSignalsListInProcessOrder, x.getByIndex j.poolIndex = some j)
    (r : Request) : ∃ requestIds : List AMJsonSignal,
      (∀ j ∈ requestIds, x.getByIndex j.poolIndex = some j) ∧
      (∀ j ∈ frame.msg.following, x.getByIndex j.poolIndex = some j) ∧
      (∃ validator : List AMJsonSignal, (∀ j ∈ validator, j.type = .validator) ∧
        frame.msg.canJsonSignalsListInProcessOrder = validator ++ requestIds ++ frame.msg.following) ∧
      (if frame.msg.Gated then ∃ j₀ j₁, requestIds = [j₀, j₁] ∧
        (j₀.type = .requestId ∧ j₀.index = 0) ∧ j₁.type = .requestId ∧ j₁.index = 1
      else requestIds = []) ∧
      x.canRxJsonSignalsParseAndProcess frame r =
        if frame.Valid x then
          x.parse frame (requestIds.flatMap frame.msg.indexed ++
            frame.msg.following.flatMap frame.msg.indexed) false ⟨r, false, []⟩
        else ⟨r, false, []⟩ := by
  obtain ⟨validator, requestIds, horder, hvalidator, hids⟩ := frame.msg.order_eq
  rw [horder, List.forall_mem_append, List.forall_mem_append] at hget
  obtain ⟨⟨hget₁, hget₂⟩, hget₃⟩ := hget
  refine ⟨requestIds, hget₂, hget₃, ⟨validator, hvalidator, horder⟩, hids, ?_⟩
  -- whether the frame is valid depends on the validators only
  have hrest : ∀ j ∈ requestIds ++ frame.msg.following, j.type ≠ .validator := by
    refine List.forall_mem_append.2 ⟨fun j hj => ?_, fun j hj => (Message.mem_following hj).2⟩
    split_ifs at hids
    · obtain ⟨j₀, j₁, rfl, h₀, h₁⟩ := hids
      rcases List.mem_pair.1 hj with rfl | rfl
      · simp [h₀.1]
      · simp [h₁.1]
    · exact absurd (hids ▸ hj) List.not_mem_nil
  have hvalid : frame.Valid x ↔ ∀ j ∈ validator, ∀ sig ∈ frame.msg.fieldsOf j,
      x.extractSetUnset frame j.poolIndex (frame.extract sig) = some true := by
    unfold Frame.Valid
    rw [horder, List.append_assoc, List.forall_mem_append]
    refine (and_iff_left fun j hj hval => absurd hval (hrest j hj)).trans ?_
    exact forall₂_congr fun j hj => forall_prop_of_true (hvalidator j hj)
  rw [Pool.canRxJsonSignalsParseAndProcess, Message.signals_eq, horder, List.append_assoc,
    List.flatMap_append, parse_validators hget₁ hvalidator, List.flatMap_append]
  split_ifs with h h' h'
  · rfl
  · exact absurd (hvalid.2 h) h'
  · exact absurd (hvalid.1 h') h
  · rfl

/-- A frame that is not valid leaves everything as it is. -/
theorem frame_of_not_valid (hproper : frame.Proper x) (h : ¬frame.Valid x) (r : Request) :
    x.canRxJsonSignalsParseAndProcess frame r = ⟨r, false, []⟩ := by
  obtain ⟨_, -, -, -, -, heq⟩ := canRxJsonSignalsParseAndProcess_eq hproper.getByIndex r
  rw [heq, if_neg h]

/-- A frame of a message without a request is processed. -/
theorem frame_of_not_gated (hproper : frame.Proper x) (h : frame.Valid x) (hm : ¬frame.msg.Gated)
    (r : Request) : x.canRxJsonSignalsParseAndProcess frame r =
      ⟨r, false, frame.msg.following.map frame.call⟩ := by
  obtain ⟨requestIds, -, hget, -, hids, heq⟩ := canRxJsonSignalsParseAndProcess_eq hproper.getByIndex r
  rw [if_neg hm] at hids
  rw [heq, if_pos h, hids, List.flatMap_nil, List.nil_append]
  exact parse_processed hget (fun j hj => Message.mem_following hj) rfl

/-- The two signals of the request. -/
theorem parse_requestIds {j₀ j₁ : AMJsonSignal}
    (hget : ∀ j ∈ [j₀, j₁], x.getByIndex j.poolIndex = some j)
    (hj₀ : j₀.type = .requestId ∧ j₀.index = 0) (hj₁ : j₁.type = .requestId ∧ j₁.index = 1)
    (he₀ : frame.isEnabled j₀.poolIndex = true) (he₁ : frame.isEnabled j₁.poolIndex = true)
    (l : List Signal) (r : Request) :
    x.parse frame ([j₀, j₁].flatMap frame.msg.indexed ++ l) false ⟨r, false, []⟩ =
      x.parse frame l false ⟨(r.receiveRequestIdByteLSB (.ofInt (x.value frame j₀.poolIndex
        (frame.call j₀).2.1).toInt)).receiveRequestIdByteMSB (.ofInt (x.value frame j₁.poolIndex
        (frame.call j₁).2.1).toInt), true, [frame.call j₀, frame.call j₁]⟩ := by
  obtain ⟨hget₀, hget₁⟩ := List.forall_mem_cons.1 hget
  have hget₁ := List.forall_mem_singleton.1 hget₁
  have hv₀ : j₀.type ≠ .validator := by simp [hj₀.1]
  have hv₁ : j₁.type ≠ .validator := by simp [hj₁.1]
  rw [List.flatMap_cons, List.flatMap_singleton, List.append_assoc, parse_signal hget₀ hv₀,
    Loop.check, if_pos hj₀.1, if_neg Bool.false_ne_true, parse_signal hget₁ hv₁, Loop.check,
    if_pos hj₁.1, if_neg Bool.false_ne_true]
  simp only [Pool.process, hj₀, hj₁, he₀, he₁, Request.process, and_self, if_true, zero_ne_one,
    one_ne_zero, if_false, List.nil_append, List.singleton_append]
  rfl

/-- A frame of a message with one is processed if it answers the request. -/
theorem frame_of_gated (hproper : frame.Proper x) (h : frame.Valid x) (hm : frame.msg.Gated)
    (r : Request) :
    let s := x.canRxJsonSignalsParseAndProcess frame r
    (s.processed.filter fun c => c.1.type ≠ .requestId) =
        (if r.isRequestSent = true ∧ frame.Matches x r.requestId then
          frame.msg.following.map frame.call else []) ∧
      s.request.requestId = r.requestId ∧
      (s.request.isRequestSent = true ↔
        r.isRequestSent = true ∧ ¬frame.Matches x r.requestId) := by
  obtain ⟨requestIds, hget, hget', ⟨validator, hvalidator, horder⟩, hids, heq⟩ :=
    canRxJsonSignalsParseAndProcess_eq hproper.getByIndex r
  rw [if_pos hm] at hids
  obtain ⟨j₀, j₁, rfl, hj₀, hj₁⟩ := hids
  have hmem : ∀ j ∈ [j₀, j₁], j ∈ frame.msg.canJsonSignalsListInProcessOrder := fun j hj => by
    rw [horder]
    exact List.mem_append_left _ (List.mem_append_right _ hj)
  have he₀ := hproper.isEnabled j₀ (hmem j₀ (by simp)) hj₀.1
  have he₁ := hproper.isEnabled j₁ (hmem j₁ (by simp)) hj₁.1
  rw [if_pos h, parse_requestIds hget hj₀ hj₁ he₀ he₁] at heq
  -- the bytes of the id that the frame carries
  set b₀ := UInt8.ofInt (x.value frame j₀.poolIndex (frame.call j₀).2.1).toInt with hb₀
  set b₁ := UInt8.ofInt (x.value frame j₁.poolIndex (frame.call j₁).2.1).toInt with hb₁
  have hnone (i : ℤ) : validator.find? (fun j => j.type = .requestId ∧ j.index = i) = none :=
    List.find?_eq_none.2 fun j hj => by simp [hvalidator j hj]
  have hbyte₀ : frame.requestIdByte x 0 = some b₀ := by
    rw [Frame.requestIdByte, horder, List.append_assoc, List.find?_append, hnone, Option.none_or,
      List.cons_append, List.find?_cons_of_pos (by simpa using hj₀)]
    rfl
  have hbyte₁ : frame.requestIdByte x 1 = some b₁ := by
    rw [Frame.requestIdByte, horder, List.append_assoc, List.find?_append, hnone, Option.none_or,
      List.cons_append, List.find?_cons_of_neg (by simp [hj₀.2]), List.cons_append,
      List.find?_cons_of_pos (by simpa using hj₁)]
    rfl
  have hmatches : r.Is b₀ b₁ ↔ r.isRequestSent = true ∧ frame.Matches x r.requestId := by
    rw [Request.Is, Frame.Matches, hbyte₀, hbyte₁, Option.some_inj, Option.some_inj]
  obtain ⟨haccepted, hid, hsent⟩ := r.receive_spec b₀ b₁
  have hfollowing := parse_following (x := x) (o := frame.msg.following) (s :=
    ⟨(r.receiveRequestIdByteLSB b₀).receiveRequestIdByteMSB b₁, true, [frame.call j₀, frame.call j₁]⟩)
    frame hget' (fun j hj => Message.mem_following hj) rfl
  obtain ⟨hprocessed, hid', hsent'⟩ := hfollowing
  rw [← heq] at hprocessed hid' hsent'
  rw [haccepted] at hprocessed
  refine ⟨?_, hid'.trans hid, ?_⟩
  · have hids : [frame.call j₀, frame.call j₁].filter (fun c => c.1.type ≠ .requestId) = [] :=
      List.filter_eq_nil_iff.2 (by simp [Frame.call, hj₀.1, hj₁.1])
    have hall : (frame.msg.following.map frame.call).filter (fun c => c.1.type ≠ .requestId) =
        frame.msg.following.map frame.call :=
      List.filter_eq_self.2 (List.forall_mem_map.2 fun j hj =>
        decide_eq_true (Message.mem_following hj).1)
    rw [hprocessed, List.filter_append, hids, List.nil_append]
    by_cases hmatch : r.Is b₀ b₁
    · rw [if_pos (decide_eq_true hmatch), if_pos (hmatches.1 hmatch), hall]
    · rw [if_neg (by simpa using hmatch), if_neg fun h => hmatch (hmatches.2 h), List.filter_nil]
  · rw [hsent'.trans hsent, Bool.and_eq_true, Bool.not_eq_true', decide_eq_false_iff_not, hmatches]
    tauto

end

/-! ## Every run -/

section

variable {x : Pool} {frame : Frame} {l l₁ l₂ : List Event} {r : Request} {o : Option UInt16}

/-- The request that the variables stand for. -/
def Request.outstanding (r : Request) : Option UInt16 :=
  if r.isRequestSent then some r.requestId else none

theorem accepts_outstanding_iff :
    frame.Accepts x r.outstanding ↔
      frame.Valid x ∧ r.isRequestSent = true ∧ frame.Matches x r.requestId := by
  unfold Frame.Accepts Request.outstanding
  split_ifs with hsent <;> simp [hsent]

/-- The variables stand for the request that is waited for. -/
theorem outstanding_step (e : Event) (hproper : ∀ frame, e = .frame frame → frame.Proper x) :
    (step x r e).outstanding = await x r.outstanding e := by
  cases e with
  | expectRequestId aRequestId => rfl
  | discardRequestId => rfl
  | frame frame =>
    have hproper := hproper frame rfl
    rw [step, await]
    by_cases hvalid : frame.Valid x
    · by_cases hgated : frame.msg.Gated
      · obtain ⟨-, hid, hsent⟩ := frame_of_gated hproper hvalid hgated r
        rw [Request.outstanding, hid, if_congr (and_congr Iff.rfl accepts_outstanding_iff) rfl rfl,
          Request.outstanding]
        by_cases hr : r.isRequestSent = true <;> by_cases hm : frame.Matches x r.requestId <;>
          simp [hsent, hr, hm, hvalid, hgated]
      · rw [frame_of_not_gated hproper hvalid hgated, if_neg fun h => hgated h.1]
    · rw [frame_of_not_valid hproper hvalid, if_neg fun h => hvalid h.2.1]

theorem outstanding_run (hproper : ∀ frame, .frame frame ∈ l → frame.Proper x) :
    (run x l).outstanding = outstanding x l := by
  induction l using List.reverseRecOn with
  | nil => rfl
  | append_singleton l e ih =>
    rw [run, outstanding, List.foldl_concat, List.foldl_concat, ← outstanding, ← run,
      outstanding_step e fun frame he => hproper frame (by simp [he]),
      ih fun frame hframe => hproper frame (List.mem_append_left _ hframe)]

/-- Nothing is waited for before something is expected. -/
theorem foldl_await_none (h : ∀ aRequestId, .expectRequestId aRequestId ∉ l) :
    l.foldl (await x) none = none := by
  induction l with
  | nil => rfl
  | cons e l ih =>
    have hnone : await x none e = none := by
      cases e with
      | expectRequestId aRequestId => exact absurd List.mem_cons_self (h aRequestId)
      | discardRequestId => rfl
      | frame frame => exact ite_self none
    rw [List.foldl_cons, hnone]
    exact ih fun aRequestId hmem => h aRequestId (List.mem_cons_of_mem _ hmem)

/-- A request is answered once. -/
theorem exists_expectRequestId {frame' : Frame} (hgated : frame.msg.Gated)
    (h : frame.Accepts x (outstanding x l₁))
    (h' : frame'.Accepts x (outstanding x (l₁ ++ .frame frame :: l₂))) :
    ∃ aRequestId, .expectRequestId aRequestId ∈ l₂ := by
  by_contra hnone
  rw [not_exists] at hnone
  rw [outstanding, List.foldl_append, List.foldl_cons, ← outstanding, await, if_pos ⟨hgated, h⟩,
    foldl_await_none hnone] at h'
  obtain ⟨-, requestId, hmem, -⟩ := h'
  exact absurd hmem (by simp)

end

/-- The signals of a message: a validator, the two for the request and one that is processed. -/
def replySignals : List AMJsonSignal :=
  [⟨"valid", "", false, .validator, -1, 0⟩, ⟨"lsb", "", false, .requestId, 0, 1⟩,
    ⟨"msb", "", false, .requestId, 1, 2⟩, ⟨"volume", "", false, .graphicItem, -1, 3⟩]

/-- Their fields: a byte each, of which the validator is the lowest bit. -/
def replyField (i : ℕ) : Signal :=
  ⟨"", .ofNat i, 0, if i = 0 then 1 else 8, false, 0, 0, 0, 0, .integer, i⟩

/-- A message with these signals. -/
def replyMessage : Message where
  named := replySignals
  fields i := (replyField i, replyField i)
  canJsonSignalsListInProcessOrder := replySignals
  canJsonSignalsPoolIdxInProcessOrder := (List.range 4).map replyField
  order := rfl
  signals := rfl

/-- The pool of these signals. -/
def replyPool : Pool where
  getByIndex i := replySignals[i]?
  polarity _ := true
  trueValuesOp _ := .na
  trueValues _ := none

/-- A frame with the id 0x0201, valid or not. -/
def replyFrame (valid : UInt8) : Frame where
  msg := replyMessage
  data i := [valid, 1, 2, 5].getD i 0
  isEnabled _ := true
  uninitialized := false
  undefinedShift _ _ := 0

theorem proper_replyFrame (valid : UInt8) : (replyFrame valid).Proper replyPool where
  getByIndex :=
    (by decide +kernel : ∀ j ∈ replySignals, replyPool.getByIndex j.poolIndex = some j)
  isEnabled := fun _ _ _ => rfl

end EW8.Rx

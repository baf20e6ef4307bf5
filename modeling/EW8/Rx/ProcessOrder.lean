import EW8.Config.ProcessOrder
import EW8.Rx.Gate

/-!
# Processing in order

A frame is processed entry by entry, in the process order of its message. Behind the field of a
supplemented entry stands its second one, which is read together with it.

* Where neither the validator nor the check of the request rejects the frame, each entry after
  the validator is processed, in this order, with the fields that it names
  (`processed_in_order`).
-/

namespace EW8.Rx

open EW8.Config
open EW8.Display (QVariant)

/-! ## Frames that are not rejected -/

namespace Frame

variable (x : Pool) (frame : Frame)

/-- The request after an entry for it. -/
def receive (r : Request) (j : AMJsonSignal) : Request :=
  if frame.isEnabled j.poolIndex then
    r.process j.index (x.value frame j.poolIndex (frame.call j).2.1)
  else r

/-- The request after the entries for it. -/
def received (r : Request) : Request :=
  (frame.msg.canJsonSignalsListInProcessOrder.filter fun j => j.type = .requestId).foldl
    (frame.receive x) r

/-- No check rejects the frame: the validator accepts it, and where there is an entry after those
    for the request, this has been received. -/
structure Passes (r : Request) : Prop where
  valid : frame.Valid x
  received : frame.msg.Gated → frame.msg.following ≠ [] →
    (frame.received x r).isRequestIdLSBByteReceived = true ∧
      (frame.received x r).isRequestSent = false

end Frame

section

variable {x : Pool} {frame : Frame} {s : Loop} {o : List AMJsonSignal} {r : Request}

/-- The entries for the request are processed without a check. -/
theorem parse_received (hget : ∀ j ∈ o, x.getByIndex j.poolIndex = some j)
    (ho : ∀ j ∈ o, j.type = .requestId) (l : List Signal) (s : Loop) :
    x.parse frame (o.flatMap frame.msg.indexed ++ l) false s =
      x.parse frame l false
        { request := o.foldl (frame.receive x) s.request
          discardMsgOnRequestIdFail := s.discardMsgOnRequestIdFail || o ≠ []
          processed := s.processed ++ o.map frame.call } := by
  induction o generalizing s with
  | nil => simp
  | cons j o ih =>
    obtain ⟨hget₁, hget⟩ := List.forall_mem_cons.1 hget
    obtain ⟨hj, ho⟩ := List.forall_mem_cons.1 ho
    have hvalidator : j.type ≠ .validator := by simp [hj]
    rw [List.flatMap_cons, List.append_assoc, parse_signal hget₁ hvalidator, Loop.check, if_pos hj,
      if_neg Bool.false_ne_true, ih hget ho]
    simp [Pool.process, hj, Frame.receive, Frame.call]

/-- Where no check rejects the frame, all entries after the validator are processed. -/
theorem processed_of_passes
    (hget : ∀ j ∈ frame.msg.canJsonSignalsListInProcessOrder, x.getByIndex j.poolIndex = some j)
    (h : frame.Passes x r) : (x.canRxJsonSignalsParseAndProcess frame r).processed =
      (frame.msg.canJsonSignalsListInProcessOrder.filter fun j => j.type ≠ .validator).map
        frame.call := by
  obtain ⟨requestIds, hget₁, hget₂, ⟨validator, hvalidator, horder⟩, hids, heq⟩ :=
    canRxJsonSignalsParseAndProcess_eq hget r
  have hrequestIds : ∀ j ∈ requestIds, j.type = .requestId := by
    split_ifs at hids
    · obtain ⟨j₀, j₁, rfl, h₀, h₁⟩ := hids
      exact List.forall_mem_cons.2 ⟨h₀.1, List.forall_mem_singleton.2 h₁.1⟩
    · rw [hids]
      exact List.forall_mem_nil _
  -- the entries after the validator, and those for the request
  have hrest : (frame.msg.canJsonSignalsListInProcessOrder.filter fun j => j.type ≠ .validator) =
      requestIds ++ frame.msg.following := by
    rw [horder, List.filter_append, List.filter_append,
      List.filter_eq_nil_iff.2 fun j hj => by simp [hvalidator j hj],
      List.filter_eq_self.2 fun j hj => by simp [hrequestIds j hj],
      List.filter_eq_self.2 fun j hj => by simpa using (Message.mem_following hj).2]
    rfl
  have hreceived : frame.received x r = requestIds.foldl (frame.receive x) r := by
    rw [Frame.received, horder, List.filter_append, List.filter_append,
      List.filter_eq_nil_iff.2 fun j hj => by simp [hvalidator j hj],
      List.filter_eq_self.2 fun j hj => by simp [hrequestIds j hj],
      List.filter_eq_nil_iff.2 fun j hj => by simpa using (Message.mem_following hj).1,
      List.nil_append, List.append_nil]
  have hpassed := h.received
  rw [hreceived] at hpassed
  rw [heq, if_pos h.valid, parse_received hget₁ hrequestIds, hrest, List.map_append]
  by_cases hgated : frame.msg.Gated
  · -- the first entry after those for the request is checked
    rw [if_pos hgated] at hids
    obtain ⟨j₀, j₁, rfl, -, -⟩ := hids
    have hfollowing := (parse_following (x := x) frame hget₂ (fun j hj => Message.mem_following hj)
      (s := ⟨[j₀, j₁].foldl (frame.receive x) r, true, [j₀, j₁].map frame.call⟩) rfl).1
    refine Eq.trans hfollowing ?_
    by_cases hnil : frame.msg.following = []
    · simp [hnil]
    · obtain ⟨hlsb, hsent⟩ := hpassed hgated hnil
      rw [hlsb, hsent]
      rfl
  · rw [if_neg hgated] at hids
    rw [hids, parse_processed hget₂ (fun j hj => Message.mem_following hj) rfl]
    rfl

end

/-! ## The entries of a message -/

/-- The entries that are bound to the signals of a message: the names of the signals are those of
    identifiers, and distinct; the entries are those of the pool, at most one for the validator and
    either none or the two for the request; and the signal that supplements an entry is in the
    message. -/
structure Bound (x : Pool) (jsonSignals : List AMJsonSignal) (canSignalsArray : List Signal) :
    Prop where
  names : (canSignalsArray.map Signal.name).Nodup
  name : ∀ sig ∈ canSignalsArray, sig.name ≠ ""
  getByIndex : ∀ j ∈ jsonSignals, x.getByIndex j.poolIndex = some j
  single : Single (named jsonSignals canSignalsArray)
  supplement : ∀ j ∈ named jsonSignals canSignalsArray, j.isSupplementedSignalEntry = true →
    j.itsSupName ∈ canSignalsArray.map Signal.name

/-- A call of `process` for an entry, with the values of the fields that it names. -/
def Fits (canSignalsArray : List Signal) (frame : Frame) (j : AMJsonSignal)
    (c : AMJsonSignal × QVariant × QVariant) : Prop :=
  c.1 = j ∧ (∃ sig ∈ canSignalsArray, sig.name = j.itsName ∧ c.2.1 = frame.extract sig) ∧
    if j.isSupplementedSignalEntry then
      ∃ supSig ∈ canSignalsArray, supSig.name = j.itsSupName ∧ c.2.2 = frame.extract supSig
    else c.2.2 = .int 0

section

variable {x : Pool} {jsonSignals o : List AMJsonSignal} {canSignalsArray : List Signal}
  {f : Fields} {j : AMJsonSignal}

/-- The second field of an entry is asked for only if it has a name. -/
theorem exists_poolIdxInProcessOrder
    (h : ∀ j ∈ o, j.isSupplementedSignalEntry = true → j.itsSupName ≠ "") :
    ∃ sigs, poolIdxInProcessOrder f o = some sigs := by
  induction o with
  | nil => exact ⟨[], rfl⟩
  | cons j o ih =>
    obtain ⟨hj, ho⟩ := List.forall_mem_cons.1 h
    obtain ⟨sigs, hsigs⟩ := ih ho
    rw [poolIdxInProcessOrder, hsigs]
    by_cases hsup : j.isSupplementedSignalEntry = true
    · exact ⟨_, by rw [if_pos hsup, if_neg (hj hsup)]; rfl⟩
    · exact ⟨_, by rw [if_neg hsup]; rfl⟩

theorem Bound.supName_ne (h : Bound x jsonSignals canSignalsArray)
    (hj : j ∈ named jsonSignals canSignalsArray) (hsup : j.isSupplementedSignalEntry = true) :
    j.itsSupName ≠ "" := by
  obtain ⟨sig, hsig, hname⟩ := List.mem_map.1 (h.supplement j hj hsup)
  exact hname ▸ h.name sig hsig

theorem Bound.fits_call (h : Bound x jsonSignals canSignalsArray) {frame : Frame}
    (hfields : frame.msg.fields = setFields jsonSignals canSignalsArray f)
    (hj : j ∈ named jsonSignals canSignalsArray) :
    Fits canSignalsArray frame j (frame.call j) := by
  have hindex : ∀ j ∈ jsonSignals, ∀ k ∈ jsonSignals, j.poolIndex = k.poolIndex → j = k :=
    fun j hj k hk heq => Option.some.inj
      ((h.getByIndex j hj).symm.trans ((congrArg x.getByIndex heq).trans (h.getByIndex k hk)))
  obtain ⟨⟨sig, hsig, hname, hfirst⟩, hsecond⟩ := setFields_spec (f := f) h.names hindex hj
  rw [← hfields] at hfirst hsecond
  refine ⟨rfl, ⟨sig, hsig, hname, congrArg frame.extract hfirst⟩, ?_⟩
  unfold Frame.call
  split_ifs with hsup
  · obtain ⟨supSig, hmem, hname, heq⟩ := hsecond (h.supName_ne hj hsup) (h.supplement j hj hsup)
    exact ⟨supSig, hmem, hname, congrArg frame.extract heq⟩
  · rfl

/-- The process order has first the validator, then the two entries for the request, the enablers,
    the arguments and the others, each entry as often as it is named; and each frame that no check
    rejects is processed entry by entry in this order, after the validator, each one with the
    values of its own fields. -/
theorem processed_in_order (f : Fields) (h : Bound x jsonSignals canSignalsArray) :
    ∃ msg : Message, msg.named = named jsonSignals canSignalsArray ∧
      msg.fields = setFields jsonSignals canSignalsArray f ∧
      (msg.canJsonSignalsListInProcessOrder.Perm (named jsonSignals canSignalsArray) ∧
        msg.canJsonSignalsListInProcessOrder.Pairwise fun j k => j.place ≤ k.place) ∧
      ∀ (frame : Frame) (r : Request), frame.msg = msg → frame.Passes x r →
        List.Forall₂ (Fits canSignalsArray frame)
          (msg.canJsonSignalsListInProcessOrder.filter fun j => j.type ≠ .validator)
          (x.canRxJsonSignalsParseAndProcess frame r).processed := by
  obtain ⟨o, ho, hperm, hplace⟩ := processOrder_spec h.single
  obtain ⟨sigs, hsigs⟩ := exists_poolIdxInProcessOrder
    (f := setFields jsonSignals canSignalsArray f) (o := o)
    fun j hj => h.supName_ne (hperm.mem_iff.1 hj)
  refine ⟨⟨_, _, o, sigs, ho, hsigs⟩, rfl, rfl, ⟨hperm, hplace⟩, ?_⟩
  rintro frame r hmsg hpasses
  have horder : frame.msg.canJsonSignalsListInProcessOrder = o := by rw [hmsg]
  have hfields : frame.msg.fields = setFields jsonSignals canSignalsArray f := by rw [hmsg]
  have hget : ∀ j ∈ frame.msg.canJsonSignalsListInProcessOrder, x.getByIndex j.poolIndex = some j :=
    fun j hj => by
      obtain ⟨_, -, hmem, -⟩ := mem_named.1 (hperm.mem_iff.1 (horder ▸ hj))
      exact h.getByIndex j hmem
  rw [processed_of_passes hget hpasses, horder]
  refine List.forall₂_map_right_iff.2 (List.forall₂_same.2 fun j hj => ?_)
  exact h.fits_call hfields (hperm.mem_iff.1 (List.mem_filter.1 hj).1)

end

/-- Entries of every kind, in another order: the first one is supplemented. -/
def unorderedEntries : List AMJsonSignal :=
  [⟨"speed", "unit", true, .graphicItem, -1, 0⟩, ⟨"digit", "", false, .intArgument, 0, 1⟩,
    ⟨"msb", "", false, .requestId, 1, 2⟩, ⟨"lsb", "", false, .requestId, 0, 3⟩,
    ⟨"on", "", false, .enabler, -1, 4⟩, ⟨"valid", "", false, .validator, -1, 5⟩]

/-- The signals of their message: a byte each. -/
def unorderedSignals : List Signal :=
  ["speed", "unit", "digit", "msb", "lsb", "on", "valid"].zipIdx.map fun name =>
    ⟨name.1, .ofNat name.2, 0, 8, false, 0, 0, 0, 0, .integer, 0⟩

/-- The pool of these entries. -/
def unorderedPool : Pool where
  getByIndex i := unorderedEntries[i]?
  polarity _ := true
  trueValuesOp _ := .na
  trueValues _ := none

theorem bound_unordered : Bound unorderedPool unorderedEntries unorderedSignals where
  names := by decide +kernel
  name := by decide +kernel
  getByIndex := by decide +kernel
  single := ⟨by decide +kernel, by decide +kernel, by decide +kernel, by decide +kernel⟩
  supplement := by decide +kernel

/-- They are processed in order. -/
theorem processed_in_order_unordered : ∃ msg : Message,
    msg.named = named unorderedEntries unorderedSignals ∧
      msg.fields = setFields unorderedEntries unorderedSignals replyMessage.fields ∧
      (msg.canJsonSignalsListInProcessOrder.Perm (named unorderedEntries unorderedSignals) ∧
        msg.canJsonSignalsListInProcessOrder.Pairwise fun j k => j.place ≤ k.place) ∧
      ∀ (frame : Frame) (r : Request), frame.msg = msg → frame.Passes unorderedPool r →
        List.Forall₂ (Fits unorderedSignals frame)
          (msg.canJsonSignalsListInProcessOrder.filter fun j => j.type ≠ .validator)
          (unorderedPool.canRxJsonSignalsParseAndProcess frame r).processed :=
  processed_in_order replyMessage.fields bound_unordered

end EW8.Rx

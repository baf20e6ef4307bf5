import EW8.Lib.Transition
import EW8.Can.Resequencing

/-!
# The receiver of the update engine

`CANUpdateEngine::IncomingCommandData` on the device takes the frames of the bus
one by one, at any time, and hands complete logical packets to `CommandHandler`
or, for data, to `DataHandler`. What these do is not modelled here: they leave the
receiver alone, but for `m_inputState`, which the receiver resets anyway.

Every frame is treated in the same way (`receive_cases`): after the resets that the
state, the time and the frame call for (`restart`), it is a duplicate, or it is
stored; then the packet is still incomplete, or it is rejected, or accepted. From
this follow

* *delivery*: the frames of a packet deliver it, in whatever order and however
  often they come (`packet_delivered`);
* *memory safety*: frames of any content stay within the arrays of the receiver
  exactly as long as no header announces less than its own length and passes the
  check (`memorySafe_iff`);
* *integrity*: every packet handed over is covered by frames received since the
  last reset, with the CRC of its header, under the same condition (`integral_iff`).
-/

namespace EW8.Can

/-- `CommunicationInputState`. -/
inductive CommunicationInputState
  | ready
  | transport
  deriving DecidableEq

/-- The receiver of `CANUpdateEngine`. -/
structure CANUpdateEngine extends SeqData where
  inputState : CommunicationInputState

namespace CANUpdateEngine

/-- `ResetLogic`. -/
def resetLogic (e : CANUpdateEngine) (now : ℤ) : CANUpdateEngine :=
  { e with toSeqData := e.toSeqData.resetLogic now }

/-- When as many frames are stored as the packet has, all but one are kept:
    `m_seqStored = m_seqMax-1`. -/
def full (seqMax : ℕ) : ℕ × List Event := (usub 32 seqMax 1, [.sub seqMax 1])

/-- The resets at the start of `IncomingCommandData`: a new packet in the state
    `READY`, a timeout, a sequence number out of range. -/
def restart (e : CANUpdateEngine) (now : ℤ) (f : CanFrame) : CANUpdateEngine × List Event :=
  let r : CANUpdateEngine × List Event :=
    if e.inputState = .ready then ({ e.resetLogic now with inputState := .transport }, [.reset])
    else (e, [])
  let r :=
    if maxTimeout < now - r.1.timeoutTimer then
      ({ r.1.resetLogic now with inputState := .transport }, r.2 ++ [.reset])
    else r
  if r.1.seqMax ≤ f.seqNo then (r.1.resetLogic now, r.2 ++ [.nack, .reset]) else r

/-- An accepted packet is extracted and handed to its handler; the receiver is
    ready for the next one. -/
def accept (d : SeqData) (now : ℤ) (x : Extracted) : CANUpdateEngine × List Event :=
  ({ toSeqData := { d with payloadBuffer := x.payload }.resetLogic now, inputState := .ready },
    x.subs.map (fun q => .sub q.1 q.2) ++
      [.dispatch ⟨d.seqLen, x.command, x.payload, x.len⟩, .reset])

/-- The rest of `IncomingCommandData` once a frame is stored. -/
def gotPart (s : CommunicationInputState) (d : SeqData) (now : ℤ) :
    Except Fault (CANUpdateEngine × List Event) :=
  if d.seqStored = d.seqMax then do
    let r ← d.checkPacket
    if r.2 then do
      let x ← extractCANData r.1.payloadBuffer r.1.seqLen r.1.seqBuffer
      return accept r.1 now x
    else
      return ({ toSeqData := { r.1 with timeoutTimer := now }, inputState := .ready }, [.nack])
  else
    return ({ toSeqData := { d with timeoutTimer := now }, inputState := s }, [])

/-- `IncomingCommandData`, for the frame `f` at the time `now`. The status it returns
    is dropped by the reader of the bus. -/
def incomingCommandData (e : CANUpdateEngine) (now : ℤ) (f : CanFrame) (flag : CANIncomingFlag) :
    Except Fault (CANUpdateEngine × List Event) :=
  if flag = .canErr then .ok (e, [])
  else do
    let r := e.restart now f
    let filled ← r.1.fillSeqBuffer.read .fillSeqBuffer f.seqNo 1
    if filled = [0] then do
      let s ← r.1.fillInPart full f
      let t ← gotPart r.1.inputState s.1 now
      return (t.1, r.2 ++ s.2 ++ t.2)
    else
      return ({ r.1 with timeoutTimer := now }, r.2)

/-- `CANPacketReceptor`: a frame read from the bus. -/
def canPacketReceptor (e : CANUpdateEngine) (now : ℤ) (f : CanFrame) :
    Except Fault (CANUpdateEngine × List Event) :=
  e.incomingCommandData now f .canOk

/-- Frames arriving one after the other, each at its time. -/
def feed (e : CANUpdateEngine) (l : List (ℤ × CanFrame)) :
    Except Fault (CANUpdateEngine × List Event) := Can.feed canPacketReceptor e l

/-- The engine as constructed: its `Reset` sets nothing but the input state. -/
def Initial (e : CANUpdateEngine) : Prop := e.inputState = .ready

/-- An engine constructed in zeroed memory. -/
def zeroed : CANUpdateEngine where
  seqStored := 0
  seqBuffer := fun _ => 0
  fillSeqBuffer := fun _ => 0
  seqMax := 0
  seqLen := 0
  seqCrc32 := 0
  seqComm := 0
  payloadBuffer := fun _ => 0
  timeoutTimer := 0
  inputState := .ready

theorem initial_zeroed : Initial zeroed := rfl

variable {e e' : CANUpdateEngine} {now : ℤ} {f : CanFrame} {got : List CanFrame}
  {l : List (ℤ × CanFrame)} {ev : List Event} {d : SeqData}

/-! ## The resets -/

/-- The number of the frame is free, or a reset frees it. -/
def Free (e : CANUpdateEngine) (now : ℤ) (f : CanFrame) : Prop :=
  e.inputState = .ready ∨ maxTimeout < now - e.timeoutTimer ∨ e.seqMax ≤ f.seqNo ∨
    e.fillSeqBuffer.byteAt f.seqNo = 0

theorem byteAt_fillSeqBuffer_resetLogic :
    (d.resetLogic now).fillSeqBuffer.byteAt f.seqNo = 0 := Bytes.byteAt_of_lt f.seqNo_lt

theorem not_timeout_resetLogic : ¬maxTimeout < now - (d.resetLogic now).timeoutTimer := by
  simp [SeqData.resetLogic, maxTimeout]

theorem not_seqMax_le_resetLogic : ¬(d.resetLogic now).seqMax ≤ f.seqNo :=
  not_le.2 f.seqNo_lt

/-- In the state `READY`, and after a timeout, everything is reset. -/
theorem restart_of_fresh (h : e.inputState = .ready ∨ maxTimeout < now - e.timeoutTimer) :
    e.restart now f = ({ e.resetLogic now with inputState := .transport }, [.reset]) := by
  have ht : ¬maxTimeout < now - (e.resetLogic now).timeoutTimer := not_timeout_resetLogic
  have hs : ¬(e.resetLogic now).seqMax ≤ f.seqNo := not_seqMax_le_resetLogic
  by_cases hr : e.inputState = .ready
  · simp only [restart, if_pos hr, if_neg ht, if_neg hs]
  · simp only [restart, if_neg hr, if_pos (h.resolve_left hr), if_neg hs, List.nil_append]

/-- While a packet is received, a number in range resets nothing. -/
theorem restart_of_transport (hs : e.inputState = .transport)
    (ht : ¬maxTimeout < now - e.timeoutTimer) (hm : f.seqNo < e.seqMax) :
    e.restart now f = (e, []) := by
  have hr : ¬e.inputState = .ready := by rw [hs]; exact nofun
  simp only [restart, if_neg hr, if_neg ht, if_neg (not_le.2 hm)]

/-- A number out of range resets, too. -/
theorem restart_of_le (hs : e.inputState = .transport)
    (ht : ¬maxTimeout < now - e.timeoutTimer) (hm : e.seqMax ≤ f.seqNo) :
    e.restart now f = (e.resetLogic now, [.nack, .reset]) := by
  have hr : ¬e.inputState = .ready := by rw [hs]; exact nofun
  simp only [restart, if_neg hr, if_neg ht, if_pos hm, List.nil_append]

/-- A receiver in the middle of a packet has stored `got` since the last reset,
    and its header, if any, announces more than itself: a shorter packet would be
    complete, and checked, with the header. -/
def Inv (e : CANUpdateEngine) (got : List CanFrame) : Prop :=
  e.inputState = .transport → e.Holds got ∧ ∀ g ∈ got, g.seqNo = 0 → 8 < g.headerLen

theorem inv_of_ready (h : e.inputState = .ready) : Inv e got := fun ht => by
  rw [h] at ht
  exact nomatch ht

/-- What the resets leave: a receiver `r` in the middle of a packet, that has
    stored what it had before the events `ev`, or nothing. -/
structure Restarts (e : CANUpdateEngine) (got : List CanFrame) (now : ℤ) (f : CanFrame)
    (r : CANUpdateEngine) (ev : List Event) : Prop where
  eq : e.restart now f = (r, ev)
  quiet : ∀ x ∈ ev, x = .reset ∨ x = .nack
  transport : r.inputState = .transport
  seqBuffer : r.seqBuffer = e.seqBuffer
  inv : Inv r (storedAfter got ev)
  free_iff : r.fillSeqBuffer.byteAt f.seqNo = 0 ↔ e.Free now f

theorem Restarts.of_resetLogic {r : CANUpdateEngine} (heq : e.restart now f = (r, ev))
    (hquiet : ∀ x ∈ ev, x = .reset ∨ x = .nack) (hs : r.inputState = .transport)
    (hreset : r.toSeqData = e.toSeqData.resetLogic now) (hgot : storedAfter got ev = [])
    (hfree : e.Free now f) : Restarts e got now f r ev where
  eq := heq
  quiet := hquiet
  transport := hs
  seqBuffer := by rw [hreset]; rfl
  inv _ := by
    rw [hreset, hgot]
    exact ⟨SeqData.holds_resetLogic now, nofun⟩
  free_iff := iff_of_true (by rw [hreset]; exact byteAt_fillSeqBuffer_resetLogic) hfree

theorem restart_spec (h : Inv e got) (now : ℤ) (f : CanFrame) :
    ∃ r ev, Restarts e got now f r ev := by
  by_cases hf : e.inputState = .ready ∨ maxTimeout < now - e.timeoutTimer
  · exact ⟨_, _, .of_resetLogic (restart_of_fresh hf) (by simp) rfl rfl rfl
      (hf.imp_right .inl)⟩
  push Not at hf
  have hs : e.inputState = .transport := by
    cases h : e.inputState with
    | ready => exact absurd h hf.1
    | transport => rfl
  by_cases hm : e.seqMax ≤ f.seqNo
  · exact ⟨_, _, .of_resetLogic (restart_of_le hs (not_lt.2 hf.2) hm) (by simp) hs rfl rfl
      (.inr (.inr (.inl hm)))⟩
  · refine ⟨_, _, restart_of_transport hs (not_lt.2 hf.2) (not_le.1 hm), nofun, hs, rfl, h,
      ⟨fun h0 => .inr (.inr (.inr h0)), fun hfree => ?_⟩⟩
    exact ((hfree.resolve_left hf.1).resolve_left (not_lt.2 hf.2)).resolve_left hm

/-! ## One frame -/

/-- A frame whose number is free is stored; another one is a duplicate. -/
theorem receive_eq (e : CANUpdateEngine) (now : ℤ) (f : CanFrame) :
    e.canPacketReceptor now f =
      if (e.restart now f).1.fillSeqBuffer.byteAt f.seqNo = 0 then
        (gotPart (e.restart now f).1.inputState ((e.restart now f).1.store full f) now).map fun t =>
          (t.1, (e.restart now f).2 ++
            ((e.restart now f).1.storeEvents full f ++ [.stored f]) ++ t.2)
      else .ok ({ (e.restart now f).1 with timeoutTimer := now }, (e.restart now f).2) := by
  have hread : (e.restart now f).1.fillSeqBuffer.read RxArray.fillSeqBuffer f.seqNo 1 = _ :=
    Bytes.read_eq f.seqNo_lt
  simp only [canPacketReceptor, incomingCommandData, hread, bind, Except.bind, pure, Except.pure,
    Bytes.slice_one, List.cons.injEq, and_true, if_false, reduceCtorEq, SeqData.fillInPart_eq]
  split_ifs
  · cases gotPart (e.restart now f).1.inputState ((e.restart now f).1.store full f) now <;> rfl
  · rfl

theorem receive_duplicate (h : (e.restart now f).1.Holds got)
    (hf : f.seqNo ∈ got.map CanFrame.seqNo) :
    e.canPacketReceptor now f =
      .ok ({ (e.restart now f).1 with timeoutTimer := now }, (e.restart now f).2) := by
  rw [receive_eq, if_neg fun h0 => (h.free_iff f).1 h0 hf]

theorem receive_new (h : (e.restart now f).1.Holds got)
    (hf : f.seqNo ∉ got.map CanFrame.seqNo) :
    e.canPacketReceptor now f =
      (gotPart (e.restart now f).1.inputState ((e.restart now f).1.store full f) now).map fun t =>
        (t.1, (e.restart now f).2 ++
          ((e.restart now f).1.storeEvents full f ++ [.stored f]) ++ t.2) := by
  rw [receive_eq, if_pos ((h.free_iff f).2 hf)]

theorem gotPart_incomplete {s : CommunicationInputState} (h : d.seqStored ≠ d.seqMax) :
    gotPart s d now = .ok ({ toSeqData := { d with timeoutTimer := now }, inputState := s }, []) := by
  rw [gotPart, if_neg h]
  rfl

theorem gotPart_rejected {s : CommunicationInputState} {d' : SeqData}
    (h : d.seqStored = d.seqMax) (hc : d.checkPacket = .ok (d', false)) :
    gotPart s d now =
      .ok ({ toSeqData := { d' with timeoutTimer := now }, inputState := .ready }, [.nack]) := by
  rw [gotPart, if_pos h, hc]
  rfl

theorem gotPart_accepted {s : CommunicationInputState} {d' : SeqData}
    (h : d.seqStored = d.seqMax) (hc : d.checkPacket = .ok (d', true)) :
    gotPart s d now =
      (extractCANData d'.payloadBuffer d'.seqLen d'.seqBuffer).map (accept d' now) := by
  rw [gotPart, if_pos h, hc]
  simp only [bind, Except.bind, if_true]
  cases extractCANData d'.payloadBuffer d'.seqLen d'.seqBuffer <;> rfl

theorem feed_cons {a : ℤ × CanFrame} (h : e.canPacketReceptor a.1 a.2 = .ok (e', ev)) :
    e.feed (a :: l) = (e'.feed l).map fun r => (r.1, ev ++ r.2) := Can.feed_cons h l

theorem feed_cons_error {a : ℤ × CanFrame} {x : Fault}
    (h : e.canPacketReceptor a.1 a.2 = .error x) : e.feed (a :: l) = .error x :=
  Can.feed_cons_error h l

/-! ## Delivery of a packet -/

theorem dispatched_stored : dispatched [.stored f] = [] := rfl

theorem storeEvents_ne_dispatch : ∀ x ∈ d.storeEvents full f, ∀ p, x ≠ .dispatch p := by
  rintro _ hx p rfl
  simp only [SeqData.storeEvents, SeqData.takeHeader] at hx
  split_ifs at hx <;> simp [full] at hx

theorem dispatched_storeEvents : dispatched (d.storeEvents full f) = [] :=
  dispatched_eq_nil storeEvents_ne_dispatch

section Packet

variable {c : UInt8} {p b : List UInt8} {i k : ℕ}

/-- Whichever frame of the packet `b` comes at the time `now`, the receiver has
    stored `got` of the packet when it gets to store it. -/
def Awaits (b : List UInt8) (e : CANUpdateEngine) (got : List CanFrame) (now : ℤ) : Prop :=
  ∀ i < numFrames b.length, ∀ f, Carries b i f →
    SeqData.Collects b (e.restart now f).1.toSeqData got ∧
      (e.restart now f).1.inputState = .transport ∧ dispatched (e.restart now f).2 = []

/-- A receiver that is ready, or timed out, awaits all frames. -/
theorem awaits_of_fresh (h : e.inputState = .ready ∨ maxTimeout < now - e.timeoutTimer) :
    Awaits b e [] now := fun i _ f _ => by
  rw [restart_of_fresh h]
  exact ⟨SeqData.collects_resetLogic now, rfl, rfl⟩

/-- A receiver that has stored some frames awaits the others, if not timed out. -/
theorem awaits_of_collects (hb : IsPacket c p b) (h : SeqData.Collects b e.toSeqData got)
    (hs : e.inputState = .transport) (ht : now - e.timeoutTimer ≤ maxTimeout) :
    Awaits b e got now := fun i hi f hf => by
  rw [restart_of_transport hs (not_lt.2 ht) (hf.seqNo hb hi ▸ h.lt_seqMax hb hi)]
  exact ⟨h, hs, rfl⟩

/-- A frame of the packet that does not complete it is stored, or is there already. -/
theorem receive_of_awaits (hb : IsPacket c p b) (h : Awaits b e got now)
    (hi : i < numFrames b.length) (hf : Carries b i f) (hk : k < numFrames b.length)
    (hik : i ≠ k) (hgot : k ∉ got.map CanFrame.seqNo) :
    ∃ e' ev got', e.canPacketReceptor now f = .ok (e', ev) ∧ dispatched ev = [] ∧
      SeqData.Collects b e'.toSeqData got' ∧ e'.inputState = .transport ∧
      e'.timeoutTimer = now ∧
      ∀ u, u ∈ got'.map CanFrame.seqNo ↔ u ∈ got.map CanFrame.seqNo ∨ u = i := by
  obtain ⟨hcol, hs, hev⟩ := h i hi f hf
  have hnum := hf.seqNo hb hi
  by_cases hmem : f.seqNo ∈ got.map CanFrame.seqNo
  · refine ⟨_, _, got, receive_duplicate hcol.toHolds hmem, hev,
      ⟨hcol.toHolds.congr_timer now, hcol.carried, hcol.stored_eq⟩, hs, rfl, fun u => ?_⟩
    rw [hnum] at hmem
    exact ⟨.inl, fun hu => hu.elim id fun hu => hu ▸ hmem⟩
  · -- the frame is stored; the packet still lacks the frame `k`
    have hstore := hcol.store full hb hi hf hmem
    have hincomplete : ((e.restart now f).1.store full f).seqStored ≠
        ((e.restart now f).1.store full f).seqMax := fun heq => by
      obtain ⟨g, hg, hgk⟩ := (hstore.complete_iff hb).1 heq k hk
      rcases List.mem_append.1 hg with hg | hg
      · exact hgot (hgk ▸ List.mem_map_of_mem hg)
      · rw [List.mem_singleton.1 hg, hnum] at hgk
        exact hik hgk
    have hrec : e.canPacketReceptor now f =
        .ok ({ toSeqData := { (e.restart now f).1.store full f with timeoutTimer := now }
               inputState := (e.restart now f).1.inputState },
          (e.restart now f).2 ++ ((e.restart now f).1.storeEvents full f ++ [.stored f]) ++ []) := by
      rw [receive_new hcol.toHolds hmem, gotPart_incomplete hincomplete]
      rfl
    refine ⟨_, _, got ++ [f], hrec, ?_, ⟨hstore.toHolds.congr_timer now, hstore.carried,
      hstore.stored_eq⟩, hs, rfl, fun u => ?_⟩
    · simp only [dispatched_append, hev, dispatched_storeEvents, dispatched_stored,
        List.nil_append]
      rfl
    · rw [List.map_append, List.mem_append, List.map_singleton, List.mem_singleton, hnum]

/-- The frame that completes the packet delivers it. -/
theorem receive_last (hb : IsPacket c p b) (h : Awaits b e got now)
    (hk : k < numFrames b.length) (hf : Carries b k f) (hgot : k ∉ got.map CanFrame.seqNo)
    (hall : ∀ i < numFrames b.length, i ≠ k → i ∈ got.map CanFrame.seqNo) :
    ∃ e' ev, e.canPacketReceptor now f = .ok (e', ev) ∧ dispatched ev = [(c, p)] ∧
      e'.inputState = .ready := by
  obtain ⟨hcol, hs, hev⟩ := h k hk f hf
  have hnum := hf.seqNo hb hk
  rw [← hnum] at hgot
  have hstore := hcol.store full hb hk hf hgot
  have hcov : Pieces.Covers CanFrame.seqNo (got ++ [f]) (numFrames b.length) :=
    .concat fun u hu huk => hall u hu (hnum ▸ huk)
  obtain ⟨d', hcheck, pb, subs, hext, hpayload⟩ := hstore.checkPacket hb hcov
  have hrec := receive_new hcol.toHolds hgot
  rw [gotPart_accepted ((hstore.complete_iff hb).2 hcov) hcheck, hext] at hrec
  refine ⟨_, _, hrec, ?_, rfl⟩
  have hsubs := dispatched_eq_nil (sub_ne_dispatch subs)
  simp only [accept, dispatched_append, hev, dispatched_storeEvents, dispatched_stored, hsubs,
    List.nil_append]
  simp only [dispatched, List.filterMap_cons, List.filterMap_nil, Dispatch.payload, hpayload]

/-- `pre` and then `last` are the frames of `b` in some order, each of them any
    number of times, but for the last one, which has not come before. -/
structure Shuffled (b : List UInt8) (pre : List (ℤ × CanFrame)) (last : CanFrame) : Prop where
  frames : ∀ a ∈ pre, ∃ i < numFrames b.length, Carries b i a.2
  last_frame : ∃ k < numFrames b.length, Carries b k last ∧ ∀ a ∈ pre, a.2.seqNo ≠ k
  all : ∀ i < numFrames b.length, (∃ a ∈ pre, a.2.seqNo = i) ∨ last.seqNo = i

/-- So are the frames written for a packet, permuted, and repeated before the last
    of them that is new. -/
theorem shuffled_of_mem (stale : Bytes 8) {pre : List (ℤ × CanFrame)} {last : CanFrame}
    (hb : IsPacket c p b) (hpre : ∀ a ∈ pre, a.2 ∈ writeLogicalCANPacket stale b)
    (hlast : last ∈ writeLogicalCANPacket stale b) (hnew : ∀ a ∈ pre, a.2 ≠ last)
    (hall : ∀ f ∈ writeLogicalCANPacket stale b, f = last ∨ ∃ a ∈ pre, a.2 = f) :
    Shuffled b pre last := by
  have hlen := length_writeLogicalCANPacket stale b
  have hcarries (f : CanFrame) (hf : f ∈ writeLogicalCANPacket stale b) :
      ∃ i < numFrames b.length, Carries b i f ∧ (writeLogicalCANPacket stale b)[i]? = some f := by
    obtain ⟨i, hi, rfl⟩ := List.mem_iff_getElem.1 hf
    exact ⟨i, hlen ▸ hi, carries_writeLogicalCANPacket stale b i hi, List.getElem?_eq_getElem hi⟩
  obtain ⟨k, hk, hkc, hkl⟩ := hcarries last hlast
  refine ⟨fun a ha => ?_, ⟨k, hk, hkc, fun a ha hak => hnew a ha ?_⟩, fun i hi => ?_⟩
  · obtain ⟨i, hi, hic, -⟩ := hcarries a.2 (hpre a ha)
    exact ⟨i, hi, hic⟩
  · -- frames of one number are one frame
    obtain ⟨i, hi, hic, hia⟩ := hcarries a.2 (hpre a ha)
    rw [hic.seqNo hb hi] at hak
    exact Option.some.inj (hia.symm.trans (hak ▸ hkl))
  · have hi' : i < (writeLogicalCANPacket stale b).length := hlen.symm ▸ hi
    have hnum := (carries_writeLogicalCANPacket stale b i hi').seqNo hb hi
    rcases hall _ (List.getElem_mem hi') with h | ⟨a, ha, h⟩
    · exact .inr (h ▸ hnum)
    · exact .inl ⟨a, ha, h ▸ hnum⟩

/-- The time of the first frame, of `pre` or at `t`. -/
def firstTime (pre : List (ℤ × CanFrame)) (t : ℤ) : ℤ := (pre.map Prod.fst).headD t

/-- Frames of the packet that do not complete it are collected. -/
theorem feed_of_awaits (hb : IsPacket c p b) (hk : k < numFrames b.length)
    (pre : List (ℤ × CanFrame)) (t : ℤ)
    (hgap : List.IsChain (fun s t => t - s ≤ maxTimeout) (pre.map Prod.fst ++ [t]))
    (hpre : ∀ a ∈ pre, ∃ i < numFrames b.length, i ≠ k ∧ Carries b i a.2)
    (h : Awaits b e got (firstTime pre t)) (hgot : k ∉ got.map CanFrame.seqNo) :
    ∃ e' ev got', e.feed pre = .ok (e', ev) ∧ dispatched ev = [] ∧ Awaits b e' got' t ∧
      k ∉ got'.map CanFrame.seqNo ∧
      ∀ u, u ∈ got'.map CanFrame.seqNo ↔
        u ∈ got.map CanFrame.seqNo ∨ ∃ a ∈ pre, a.2.seqNo = u := by
  induction pre generalizing e got with
  | nil => exact ⟨e, [], got, rfl, rfl, h, hgot, by simp⟩
  | cons a pre ih =>
    obtain ⟨i, hi, hik, hf⟩ := hpre a List.mem_cons_self
    obtain ⟨e₁, ev₁, got₁, hrec, hev₁, hcol, hs, htime, hmem⟩ :=
      receive_of_awaits hb h hi hf hk hik hgot
    rw [List.map_cons, List.cons_append, List.isChain_cons] at hgap
    have hhead : firstTime pre t ∈ (pre.map Prod.fst ++ [t]).head? := by
      cases pre <;> rfl
    have haw : Awaits b e₁ got₁ (firstTime pre t) :=
      awaits_of_collects hb hcol hs (by rw [htime]; exact hgap.1 _ hhead)
    have hk₁ : k ∉ got₁.map CanFrame.seqNo := fun hk' =>
      ((hmem k).1 hk').elim hgot fun hki => hik hki.symm
    obtain ⟨e', ev, got', hfeed, hev, haw', hk', hmem'⟩ :=
      ih hgap.2 (fun a ha => hpre a (List.mem_cons_of_mem _ ha)) haw hk₁
    refine ⟨e', ev₁ ++ ev, got', ?_, by rw [dispatched_append, hev₁, hev]; rfl, haw', hk',
      fun u => ?_⟩
    · rw [feed_cons hrec, hfeed]
      rfl
    · rw [hmem', hmem, List.exists_mem_cons_iff, hf.seqNo hb hi, or_assoc, eq_comm (b := u)]

/-- The frames of a packet, arriving in whatever order, each of them any number of
    times before the last one, deliver it with the last one and not before, to any
    receiver that is ready or timed out; it is ready again afterwards. -/
theorem packet_delivered (c : UInt8) {p : List UInt8} (hp : p.length ≤ maxLogicalPacket)
    {e : CANUpdateEngine} {pre : List (ℤ × CanFrame)} {t : ℤ} {last : CanFrame}
    (h : Shuffled (formCANPacket c p) pre last)
    (hgap : List.IsChain (fun s t => t - s ≤ maxTimeout) (pre.map Prod.fst ++ [t]))
    (hstart : e.inputState = .ready ∨ maxTimeout < firstTime pre t - e.timeoutTimer) :
    ∃ e₁ ev₁ e₂ ev₂, e.feed pre = .ok (e₁, ev₁) ∧ dispatched ev₁ = [] ∧
      e₁.canPacketReceptor t last = .ok (e₂, ev₂) ∧ dispatched ev₂ = [(c, p)] ∧
      e₂.inputState = .ready := by
  have hb := isPacket_formCANPacket c hp
  obtain ⟨k, hk, hlast, hnew⟩ := h.last_frame
  have hpre : ∀ a ∈ pre, ∃ i < numFrames (formCANPacket c p).length, i ≠ k ∧
      Carries (formCANPacket c p) i a.2 := fun a ha => by
    obtain ⟨i, hi, hf⟩ := h.frames a ha
    exact ⟨i, hi, fun hik => hnew a ha (by rw [hf.seqNo hb hi, hik]), hf⟩
  obtain ⟨e₁, ev₁, got, hfeed, hev, haw, hkgot, hmem⟩ :=
    feed_of_awaits hb hk pre t hgap hpre (awaits_of_fresh hstart) List.not_mem_nil
  obtain ⟨e₂, ev₂, hrec, hdis, hready⟩ := receive_last hb haw hk hlast hkgot fun i hi hik => by
    refine (hmem i).2 (.inr ?_)
    refine (h.all i hi).resolve_right fun hl => hik ?_
    rw [← hl, hlast.seqNo hb hk]
  exact ⟨e₁, ev₁, e₂, ev₂, hfeed, hev, hrec, hdis, hready⟩

/-- The last frame of two comes first, and twice. -/
theorem packet_delivered_reversed :
    ∃ g₀ g₁, writeLogicalCANPacket (fun _ => 0) (formCANPacket 7 [5]) = [g₀, g₁] ∧
      ∃ e₁ ev₁ e₂ ev₂, zeroed.feed [(0, g₁), (9, g₁)] = .ok (e₁, ev₁) ∧ dispatched ev₁ = [] ∧
        e₁.canPacketReceptor 10 g₀ = .ok (e₂, ev₂) ∧ dispatched ev₂ = [(7, [5])] ∧
        e₂.inputState = .ready := by
  have hb := isPacket_formCANPacket 7 (show [5].length ≤ maxLogicalPacket by decide)
  have hlen : (writeLogicalCANPacket (fun _ => 0) (formCANPacket 7 [5])).length = 2 := by
    rw [length_writeLogicalCANPacket]
    decide +kernel
  obtain ⟨g₀, g₁, hg⟩ := List.length_eq_two.1 hlen
  have hne : g₁ ≠ g₀ := by
    rintro rfl
    have hseq : (writeLogicalCANPacket (fun _ => 0) (formCANPacket 7 [5])).map CanFrame.seqNo =
        [0, 1] := by decide +kernel
    rw [hg] at hseq
    simp at hseq
    omega
  refine ⟨g₀, g₁, hg, packet_delivered 7 (by decide)
    (shuffled_of_mem (fun _ => 0) hb ?_ ?_ ?_ ?_) ?_ (.inl rfl)⟩
  · simp [hg]
  · simp [hg]
  · simp [hne]
  · simp [hg]
  · simp [maxTimeout]

end Packet

/-! ## What a frame can do -/

theorem storedAfter_append (got : List CanFrame) (ev₁ ev₂ : List Event) :
    storedAfter got (ev₁ ++ ev₂) = storedAfter (storedAfter got ev₁) ev₂ :=
  List.foldl_append

/-- Taking all but one of the frames stored as those of the packet counts no more
    than there are. -/
theorem full_le {n stored : ℕ} (h : n ≤ stored) : ((full n).1 + 1) % 2 ^ 32 ≤ stored + 1 := by
  simp only [full, usub]
  omega

/-- A header announcing no more than itself completes its packet. -/
theorem seqStored_of_short (h : d.Holds got) (h0 : f.seqNo = 0) (h8 : f.headerLen ≤ 8) :
    (d.store full f).seqStored = (d.store full f).seqMax := by
  have hle : d.seqStored ≤ 256 := h.stored_le.trans h.length_le
  simp only [SeqData.store, if_pos h0, SeqData.takeHeader, full, usub]
  have hn : numFrames f.headerLen ≤ 1 := by rw [numFrames]; omega
  split_ifs with hm
  · change ((numFrames f.headerLen + 2 ^ 32 - 1) % 2 ^ 32 + 1) % 2 ^ 32 = numFrames f.headerLen
    omega
  · change (d.seqStored + 1) % 2 ^ 32 = numFrames f.headerLen
    omega

/-- The CRC of the bytes announced, the CRC field zeroed, is that of the header. -/
def CrcOk (d : SeqData) : Prop := crc32 (zeroCrc (d.seqBuffer.slice 0 d.seqLen)) = d.seqCrc32

theorem Restarts.storedAfter_subset {r : CANUpdateEngine} (h : Restarts e got now f r ev) :
    storedAfter got ev ⊆ got := by
  have hquiet := h.quiet
  clear h
  induction ev generalizing got with
  | nil => exact List.Subset.refl got
  | cons x ev ih =>
    obtain ⟨hx, hev⟩ := List.forall_mem_cons.1 hquiet
    rcases hx with rfl | rfl
    · exact fun g hg => absurd (@ih [] hev g hg) List.not_mem_nil
    · exact ih hev

/-- The frame is stored, which gives `d`; `ev` is what happens until then. -/
def Stores (e : CANUpdateEngine) (got : List CanFrame) (now : ℤ) (f : CanFrame) (d : SeqData)
    (ev : List Event) : Prop :=
  ∃ r evr, Restarts e got now f r evr ∧ f.seqNo ∉ (storedAfter got evr).map CanFrame.seqNo ∧
    d = r.store full f ∧ ev = evr ++ (r.storeEvents full f ++ [.stored f])

theorem storedAfter_storeEvents :
    storedAfter got (d.storeEvents full f ++ [.stored f]) = got ++ [f] := by
  simp only [SeqData.storeEvents, SeqData.takeHeader]
  split_ifs <;> rfl

namespace Stores

variable {ev : List Event}

theorem storedAfter_eq (h : Stores e got now f d ev) :
    ∃ got', storedAfter got ev = got' ++ [f] ∧ ∀ g ∈ got', g.seqNo = 0 → 8 < g.headerLen := by
  obtain ⟨r, evr, hr, -, -, rfl⟩ := h
  refine ⟨storedAfter got evr, ?_, (hr.inv hr.transport).2⟩
  rw [storedAfter_append, storedAfter_storeEvents]

theorem mem_storedAfter (h : Stores e got now f d ev) :
    ∀ g ∈ storedAfter got ev, g ∈ got ∨ g = f := by
  obtain ⟨r, evr, hr, -, -, rfl⟩ := h
  rw [storedAfter_append, storedAfter_storeEvents]
  intro g hg
  exact (List.mem_append.1 hg).imp (fun hg => hr.storedAfter_subset hg) List.mem_singleton.1

theorem free (h : Stores e got now f d ev) : e.Free now f := by
  obtain ⟨r, evr, hr, hnew, -⟩ := h
  exact hr.free_iff.1 (((hr.inv hr.transport).1.free_iff f).2 hnew)

theorem holds (h : Stores e got now f d ev) : d.Holds (storedAfter got ev) := by
  obtain ⟨r, evr, hr, hnew, rfl, rfl⟩ := h
  rw [storedAfter_append, storedAfter_storeEvents]
  exact (hr.inv hr.transport).1.store hnew fun _ hle => full_le hle

theorem complete_of_short (h : Stores e got now f d ev) (h0 : f.seqNo = 0)
    (h8 : f.headerLen ≤ 8) : d.seqStored = d.seqMax := by
  obtain ⟨r, evr, hr, -, rfl, -⟩ := h
  exact seqStored_of_short (hr.inv hr.transport).1 h0 h8

theorem mem (h : Stores e got now f d ev) : f ∈ storedAfter got ev := by
  obtain ⟨got', heq, -⟩ := h.storedAfter_eq
  rw [heq]
  exact List.mem_concat_self

theorem seqLen_eq (h : Stores e got now f d ev) (h0 : f.seqNo = 0) : d.seqLen = f.headerLen :=
  (h.holds.header f h.mem h0).1

theorem covers_of_short (h : Stores e got now f d ev) (h0 : f.seqNo = 0)
    (h8 : f.headerLen ≤ 8) : Pieces.Covers CanFrame.seqNo (storedAfter got ev) d.seqMax := by
  intro u hu
  rw [(h.holds.header f h.mem h0).2.1, numFrames] at hu
  exact ⟨f, h.mem, by omega⟩

/-- The packet is complete with a short header only if that is the frame. -/
theorem runt (h : Stores e got now f d ev) (hst : d.seqStored = d.seqMax) (h8 : d.seqLen < 8) :
    f.seqNo = 0 ∧ d.seqLen = f.headerLen := by
  obtain ⟨got', heq, hlong⟩ := h.storedAfter_eq
  obtain ⟨g, hg, h0, hlen, -⟩ := h.holds.exists_header hst
  rw [heq] at hg
  rcases List.mem_append.1 hg with hg | hg
  · have := hlong g hg h0
    omega
  · obtain rfl := List.mem_singleton.1 hg
    exact ⟨h0, hlen⟩

end Stores

/-- What becomes of a frame. -/
inductive Receives (e : CANUpdateEngine) (got : List CanFrame) (now : ℤ) (f : CanFrame) :
    Except Fault (CANUpdateEngine × List Event) → Prop
  /-- Its number is taken. -/
  | duplicate {r : CANUpdateEngine} {ev : List Event} (h : Restarts e got now f r ev)
      (hf : ¬e.Free now f) : Receives e got now f (.ok ({ r with timeoutTimer := now }, ev))
  /-- It is stored, and there are frames to come. -/
  | waits {d : SeqData} {ev : List Event} (h : Stores e got now f d ev)
      (hst : d.seqStored ≠ d.seqMax) :
      Receives e got now f
        (.ok ({ toSeqData := { d with timeoutTimer := now }, inputState := .transport }, ev))
  /-- It is stored, and the packet is not a good one. -/
  | rejected {d d' : SeqData} {ev : List Event} (h : Stores e got now f d ev)
      (hst : d.seqStored = d.seqMax)
      (hbad : ¬(Pieces.Covers CanFrame.seqNo (storedAfter got ev) d.seqMax ∧ CrcOk d)) :
      Receives e got now f
        (.ok ({ toSeqData := { d' with timeoutTimer := now }, inputState := .ready },
          ev ++ [.nack]))
  /-- It is stored, and the packet is extracted. -/
  | accepted {d : SeqData} {ev : List Event} (h : Stores e got now f d ev)
      (hst : d.seqStored = d.seqMax)
      (hcov : Pieces.Covers CanFrame.seqNo (storedAfter got ev) d.seqMax) (hcrc : CrcOk d) :
      Receives e got now f
        ((extractCANData d.payloadBuffer d.seqLen d.checked.seqBuffer).map fun x =>
          ((accept d.checked now x).1, ev ++ (accept d.checked now x).2))

theorem receive_cases (h : Inv e got) (now : ℤ) (f : CanFrame) :
    Receives e got now f (e.canPacketReceptor now f) := by
  obtain ⟨r, ev, hr⟩ := restart_spec h now f
  have hholds := (hr.inv hr.transport).1
  have hdup := @receive_duplicate e now f (storedAfter got ev)
  have hnew := @receive_new e now f (storedAfter got ev)
  rw [hr.eq] at hdup hnew
  by_cases hmem : f.seqNo ∈ (storedAfter got ev).map CanFrame.seqNo
  · rw [hdup hholds hmem]
    exact .duplicate hr fun hf => (hholds.free_iff f).1 (hr.free_iff.2 hf) hmem
  have hstores : Stores e got now f (r.store full f) (ev ++ (r.storeEvents full f ++ [.stored f])) :=
    ⟨r, ev, hr, hmem, rfl, rfl⟩
  have hstore := hstores.holds
  rw [hnew hholds hmem, hr.transport]
  simp only
  -- from here on, all that is known of the engine `d` is what `Stores` says
  generalize r.store full f = d at *
  generalize ev ++ (r.storeEvents full f ++ [.stored f]) = ev' at *
  by_cases hst : d.seqStored = d.seqMax
  swap
  · rw [gotPart_incomplete hst]
    simpa only [Except.map, List.append_nil] using Receives.waits hstores hst
  by_cases hcov : Pieces.Covers CanFrame.seqNo (storedAfter got ev') d.seqMax
  swap
  · rw [gotPart_rejected hst (hstore.checkPacket_of_not_covers hst hcov)]
    exact .rejected hstores hst fun hok => hcov hok.1
  have hcheck := hstore.checkPacket_of_covers hst hcov
  by_cases hcrc : CrcOk d
  · rw [beq_iff_eq.2 hcrc] at hcheck
    rw [gotPart_accepted hst hcheck]
    have hacc := Receives.accepted hstores hst hcov hcrc
    change Receives e got now f (Except.map _ ((extractCANData d.payloadBuffer d.seqLen
      d.checked.seqBuffer).map (accept d.checked now)))
    cases hext : extractCANData d.payloadBuffer d.seqLen d.checked.seqBuffer with
    | error x => rwa [hext] at hacc
    | ok x => rwa [hext] at hacc
  · rw [beq_eq_false_iff_ne.2 hcrc] at hcheck
    rw [gotPart_rejected hst hcheck]
    exact .rejected hstores hst fun hok => hcrc hok.2

theorem receives_of_ok {e' : CANUpdateEngine} (h : Inv e got)
    (hrec : e.canPacketReceptor now f = .ok (e', ev)) : Receives e got now f (.ok (e', ev)) :=
  hrec ▸ receive_cases h now f

theorem Receives.inv {e' : CANUpdateEngine} (h : Receives e got now f (.ok (e', ev))) :
    Inv e' (storedAfter got ev) := by
  generalize hx : Except.ok (e', ev) = x at h
  cases h with
  | duplicate h hf =>
    obtain ⟨rfl, rfl⟩ := Prod.mk.inj (Except.ok.inj hx)
    exact fun hs => ⟨(h.inv hs).1.congr_timer now, (h.inv hs).2⟩
  | waits h hst =>
    obtain ⟨rfl, rfl⟩ := Prod.mk.inj (Except.ok.inj hx)
    obtain ⟨got', heq, hlong⟩ := h.storedAfter_eq
    refine fun _ => ⟨h.holds.congr_timer now, fun g hg h0 => ?_⟩
    rw [heq] at hg
    rcases List.mem_append.1 hg with hg | hg
    · exact hlong g hg h0
    · -- a short header would have completed the packet
      obtain rfl := List.mem_singleton.1 hg
      exact not_le.1 fun h8 => hst (h.complete_of_short h0 h8)
  | rejected h hst hbad =>
    obtain ⟨rfl, rfl⟩ := Prod.mk.inj (Except.ok.inj hx)
    exact inv_of_ready rfl
  | accepted h hst hcov hcrc =>
    rename_i d _
    cases hext : extractCANData d.payloadBuffer d.seqLen d.checked.seqBuffer with
    | error x => rw [hext] at hx; cases hx
    | ok x =>
      rw [hext] at hx
      obtain ⟨rfl, rfl⟩ := Prod.mk.inj (Except.ok.inj hx)
      exact inv_of_ready rfl

/-- One frame after the other, as a transition system. -/
def step (e : CANUpdateEngine) (a : ℤ × CanFrame) : Option CANUpdateEngine :=
  (e.canPacketReceptor a.1 a.2).toOption.map Prod.fst

/-- What is decided frame by frame, under `C`, for every event is decided for a
    run. -/
theorem feed_iff_meets (Good : List CanFrame → List Event → Prop) (F : CanFrame → Prop)
    (I : CANUpdateEngine → List CanFrame → Prop) (got : List CanFrame)
    {C : CANUpdateEngine → ℤ × CanFrame → Prop}
    (hnil : ∀ got, Good got [])
    (happend : ∀ got ev₁ ev₂,
      Good got (ev₁ ++ ev₂) ↔ Good got ev₁ ∧ Good (storedAfter got ev₁) ev₂)
    (hI : ∀ {e e' got ev} {a : ℤ × CanFrame}, I e got → F a.2 →
      e.canPacketReceptor a.1 a.2 = .ok (e', ev) → I e' (storedAfter got ev))
    (hstep : ∀ {e got} {a : ℤ × CanFrame}, I e got → F a.2 →
      ((∃ e' ev, e.canPacketReceptor a.1 a.2 = .ok (e', ev) ∧ Good got ev) ↔ C e a))
    (hinit : I e got) (hF : ∀ a ∈ l, F a.2) :
    (∃ e' ev, e.feed l = .ok (e', ev) ∧ Good got ev) ↔ Transition.Meets step C e l := by
  induction l generalizing e got with
  | nil => exact iff_of_true ⟨e, [], rfl, hnil got⟩ trivial
  | cons a l ih =>
    obtain ⟨ha, hl⟩ := List.forall_mem_cons.1 hF
    rw [Transition.meets_cons, ← hstep hinit ha]
    cases hrec : e.canPacketReceptor a.1 a.2 with
    | error x =>
      refine iff_of_false ?_ ?_
      · rintro ⟨e', ev, hfeed, -⟩
        rw [feed_cons_error hrec] at hfeed
        cases hfeed
      · rintro ⟨⟨e', ev, h, -⟩, -⟩
        cases h
    | ok r =>
      obtain ⟨e₁, ev₁⟩ := r
      have hs : step e a = some e₁ := by rw [step, hrec]; rfl
      simp only [hs, Option.mem_some_iff, forall_eq']
      rw [← ih _ (hI hinit ha hrec) hl, feed_cons hrec]
      -- the events of the run are those of the frame, followed by those of the rest
      constructor
      · rintro ⟨e', ev, hfeed, hgood⟩
        cases hf : e₁.feed l with
        | error x => rw [hf] at hfeed; cases hfeed
        | ok r =>
          rw [hf] at hfeed
          obtain ⟨rfl, rfl⟩ := Prod.mk.inj (Except.ok.inj hfeed)
          obtain ⟨h₁, h₂⟩ := (happend _ _ _).1 hgood
          exact ⟨⟨e₁, ev₁, rfl, h₁⟩, r.1, r.2, rfl, h₂⟩
      · rintro ⟨⟨e', ev, h, hgood⟩, e₂, ev₂, hf, hgood₂⟩
        obtain ⟨rfl, rfl⟩ := Prod.mk.inj (Except.ok.inj h)
        exact ⟨e₂, ev₁ ++ ev₂, by rw [hf]; rfl, (happend _ _ _).2 ⟨hgood, hgood₂⟩⟩

/-! ## Memory safety -/

/-- The frame is stored as a header that announces less than its own length, and
    the CRC of the bytes it does announce is the one in it. -/
def ShortHeaderPasses (e : CANUpdateEngine) (now : ℤ) (f : CanFrame) : Prop :=
  f.seqNo = 0 ∧ e.Free now f ∧ f.headerLen < 8 ∧
    crc32 (zeroCrc ((e.seqBuffer.patch 0 (f.data.slice 0 f.canDlc)).slice 0 f.headerLen)) =
      f.headerCrc32

/-- The frame is stored as a header that announces no bytes at all. -/
def EmptyHeader (e : CANUpdateEngine) (now : ℤ) (f : CanFrame) : Prop :=
  f.seqNo = 0 ∧ e.Free now f ∧ f.headerLen = 0

/-- A header announcing `len < 8` bytes, with the CRC of these. -/
def runt (len : ℕ) (type : UInt8) : CanFrame where
  canId := updateCANPacketID
  canDlc := 8
  data i := (rawHeader len type (crc32 ((rawHeader len type 0).take len))).getD i 0
  canDlc_le := canPayloadMaxLen_le

theorem Stores.shortHeaderPasses_iff (h : Stores e got now f d ev) :
    e.ShortHeaderPasses now f ↔ f.seqNo = 0 ∧ f.headerLen < 8 ∧ CrcOk d := by
  have hfree := h.free
  obtain ⟨r, evr, hr, -, rfl, -⟩ := h
  simp only [ShortHeaderPasses, hfree, true_and, ← hr.seqBuffer]
  refine and_congr_right fun h0 => and_congr_right fun _ => ?_
  simp only [CrcOk, SeqData.store, h0, if_true, Nat.zero_mul]
  rfl

theorem noWrap_append (ev₁ ev₂ : List Event) :
    NoWrap (ev₁ ++ ev₂) ↔ NoWrap ev₁ ∧ NoWrap ev₂ := by
  simp only [NoWrap, List.mem_append, or_imp, forall_and]

theorem Restarts.noWrap {r : CANUpdateEngine} (h : Restarts e got now f r ev) : NoWrap ev :=
  fun a b hab => by rcases h.quiet _ hab with h | h <;> cases h

theorem Stores.noWrap_iff (h : Stores e got now f d ev) : NoWrap ev ↔ ¬e.EmptyHeader now f := by
  have hfree := h.free
  obtain ⟨r, evr, hr, -, -, rfl⟩ := h
  have hstored : NoWrap [.stored f] := fun a b hab => by simp at hab
  rw [noWrap_append, noWrap_append, and_iff_right hr.noWrap, and_iff_left hstored]
  have hnum : numFrames f.headerLen = 0 ↔ f.headerLen = 0 := by rw [numFrames]; omega
  simp only [EmptyHeader, hfree, true_and, SeqData.storeEvents, SeqData.takeHeader, full, NoWrap]
  by_cases h0 : f.seqNo = 0
  · simp only [h0, if_true, true_and, ← hnum]
    split_ifs with hm
    · simp only [List.mem_singleton, Event.sub.injEq, and_imp, forall_eq_apply_imp_iff, forall_eq]
      omega
    · exact iff_of_true (by simp) (by omega)
  · simp [h0]

theorem noWrap_accept {x : Extracted} (h : ∀ q ∈ x.subs, q.2 ≤ q.1) :
    NoWrap (accept d now x).2 := by
  intro a b hab
  rcases List.mem_append.1 hab with hab | hab
  · obtain ⟨q, hq, heq⟩ := List.mem_map.1 hab
    cases heq
    exact h q hq
  · simp at hab

/-- A frame is safe unless it is a header shorter than itself, and is empty or
    passes the check. -/
theorem receive_safe_iff (h : Inv e got) (now : ℤ) (f : CanFrame) :
    (∃ e' ev, e.canPacketReceptor now f = .ok (e', ev) ∧ NoWrap ev) ↔
      ¬e.ShortHeaderPasses now f ∧ ¬e.EmptyHeader now f := by
  have hrec := receive_cases h now f
  generalize e.canPacketReceptor now f = x at *
  cases hrec with
  | duplicate hr hf =>
    exact iff_of_true ⟨_, _, rfl, hr.noWrap⟩ ⟨fun hs => hf hs.2.1, fun he => hf he.2.1⟩
  | waits hs hst =>
    have hns : ¬e.ShortHeaderPasses now f := fun h =>
      hst (hs.complete_of_short h.1 h.2.2.1.le)
    have hne : ¬e.EmptyHeader now f := fun h =>
      hst (hs.complete_of_short h.1 (h.2.2.trans_le (Nat.zero_le 8)))
    exact iff_of_true ⟨_, _, rfl, hs.noWrap_iff.2 hne⟩ ⟨hns, hne⟩
  | rejected hs hst hbad =>
    have hns : ¬e.ShortHeaderPasses now f := fun h =>
      hbad ⟨hs.covers_of_short h.1 h.2.2.1.le, (hs.shortHeaderPasses_iff.1 h).2.2⟩
    have hnack : NoWrap [.nack] := fun a b hab => by simp at hab
    rw [and_iff_right hns, ← hs.noWrap_iff]
    refine ⟨?_, fun h => ⟨_, _, rfl, (noWrap_append _ _).2 ⟨h, hnack⟩⟩⟩
    rintro ⟨e', ev', heq, h⟩
    obtain ⟨-, rfl⟩ := Prod.mk.inj (Except.ok.inj heq)
    exact ((noWrap_append _ _).1 h).1
  | accepted hs hst hcov hcrc =>
    rename_i d ev
    -- `ExtractCANData` subtracts the length of the header, 8, from the announced length
    by_cases h8 : d.seqLen < 8
    · obtain ⟨h0, hlen⟩ := hs.runt hst h8
      have hpass := hs.shortHeaderPasses_iff.2 ⟨h0, by omega, hcrc⟩
      refine iff_of_false ?_ fun h => h.1 hpass
      rintro ⟨e', ev', heq, h⟩
      -- for a length of 0 the frame is stored with a wrap, else the extraction leaves its buffer
      by_cases hlen0 : d.seqLen = 0
      · cases hext : extractCANData d.payloadBuffer d.seqLen d.checked.seqBuffer with
        | error x => rw [hext] at heq; cases heq
        | ok x =>
          rw [hext] at heq
          obtain ⟨-, rfl⟩ := Prod.mk.inj (Except.ok.inj heq)
          exact hs.noWrap_iff.1 ((noWrap_append _ _).1 h).1 ⟨h0, hs.free, hlen ▸ hlen0⟩
      · obtain ⟨x, hext⟩ :=
          extractCANData_runt d.checked.seqBuffer d.payloadBuffer hlen0 h8
        rw [hext] at heq
        cases heq
    · have hlen (h0 : f.seqNo = 0) : ¬f.headerLen < 8 := hs.seqLen_eq h0 ▸ h8
      have hne : ¬e.EmptyHeader now f := fun h => hlen h.1 (h.2.2.trans_lt (by decide))
      obtain ⟨subs, hext, hsubs⟩ := extractCANData_eq d.checked.seqBuffer d.payloadBuffer
        (not_lt.1 h8) (hs.holds.seqLen_le hst)
      rw [hext]
      exact iff_of_true ⟨_, _, rfl, (noWrap_append _ _).2 ⟨hs.noWrap_iff.2 hne, noWrap_accept hsubs⟩⟩
        ⟨fun h => hlen h.1 h.2.2.1, hne⟩

/-- The frames `l` are received without an access outside the arrays, and no
    subtraction wraps around, exactly if no frame is stored as a header shorter than
    itself that is empty or passes the check. -/
theorem memorySafe_iff (he : e.Initial) (l : List (ℤ × CanFrame)) :
    (∃ e' ev, e.feed l = .ok (e', ev) ∧ NoWrap ev) ↔
      Transition.Meets step
        (fun e a => ¬e.ShortHeaderPasses a.1 a.2 ∧ ¬e.EmptyHeader a.1 a.2) e l :=
  feed_iff_meets (fun _ => NoWrap) (fun _ => True) Inv [] (fun _ => nofun)
    (fun _ => noWrap_append)
    (fun h _ hrec => (receives_of_ok h hrec).inv)
    (fun h _ => receive_safe_iff h _ _) (inv_of_ready he) fun _ _ => trivial

/-- A payload frame comes before its header. -/
theorem memorySafe_payload_first :
    ∃ e' ev, zeroed.feed [(0, payloadFrame 1)] = .ok (e', ev) ∧ NoWrap ev :=
  (memorySafe_iff initial_zeroed _).2 ⟨⟨fun h => absurd h.1 (by decide), fun h => absurd h.1 (by decide)⟩,
    fun _ _ => trivial⟩

/-- A header that announces 4 bytes makes the copy run past the end of its buffers. -/
theorem memorySafe_fails_of_runt :
    ¬∃ e' ev, zeroed.feed [(0, runt 4 7)] = .ok (e', ev) ∧ NoWrap ev := by
  have hpass : zeroed.ShortHeaderPasses 0 (runt 4 7) :=
    ⟨by decide +kernel, .inl rfl, by decide +kernel, by decide +kernel⟩
  generalize runt 4 7 = f at hpass ⊢
  rintro ⟨e', ev, hfeed, hev⟩
  have hinv : Inv zeroed [] := inv_of_ready rfl
  cases hrec : zeroed.canPacketReceptor 0 f with
  | error x => rw [feed_cons_error (a := (0, f)) hrec] at hfeed; cases hfeed
  | ok r =>
    rw [feed_cons (a := (0, f)) hrec] at hfeed
    obtain ⟨rfl, rfl⟩ := Prod.mk.inj (Except.ok.inj hfeed)
    have hev₁ := ((noWrap_append _ _).1 hev).1
    exact ((receive_safe_iff hinv 0 f).1 ⟨_, _, hrec, hev₁⟩).1 hpass

/-! ## Integrity -/

/-- The packet handed over is read from the frames `got`, of different numbers: they
    cover the announced length, that of a header at least, with the CRC of their
    header. -/
structure CoveredBy (got : List CanFrame) (p : Dispatch) : Prop where
  le_len : 8 ≤ p.len
  nodup : (got.map CanFrame.seqNo).Nodup
  covers : Pieces.Covers CanFrame.seqNo got (numFrames p.len)
  header : ∃ f ∈ got, f.seqNo = 0 ∧ f.headerLen = p.len ∧
    crc32 (zeroCrc (Pieces.assemble CanFrame.seqNo CanFrame.data got p.len)) = f.headerCrc32
  command : p.command = (Pieces.assemble CanFrame.seqNo CanFrame.data got p.len).getD 3 0
  payload : p.payload = unframe
    ((Pieces.assemble CanFrame.seqNo CanFrame.data got p.len).drop 8)

/-- Every packet handed over in `ev` is read from frames stored since the last
    reset, of which `got` are stored before `ev`. -/
def Integral : List CanFrame → List Event → Prop
  | _, [] => True
  | _, .reset :: ev => Integral [] ev
  | got, .stored f :: ev => Integral (got ++ [f]) ev
  | got, .dispatch p :: ev => CoveredBy got p ∧ Integral got ev
  | got, _ :: ev => Integral got ev

theorem integral_append (got : List CanFrame) (ev₁ ev₂ : List Event) :
    Integral got (ev₁ ++ ev₂) ↔ Integral got ev₁ ∧ Integral (storedAfter got ev₁) ev₂ := by
  induction ev₁ generalizing got with
  | nil => exact (and_iff_right trivial).symm
  | cons x ev₁ ih =>
    cases x with
    | dispatch p => exact (and_congr_right fun _ => ih _).trans and_assoc.symm
    | _ => exact ih _

/-- Without a packet, there is nothing to check. -/
theorem integral_of_dispatched (h : ∀ x ∈ ev, ∀ p, x ≠ .dispatch p) (got : List CanFrame) :
    Integral got ev := by
  induction ev generalizing got with
  | nil => trivial
  | cons x ev ih =>
    obtain ⟨hx, hev⟩ := List.forall_mem_cons.1 h
    cases x with
    | dispatch p => exact absurd rfl (hx p)
    | _ => exact ih hev _

theorem Restarts.ne_dispatch {r : CANUpdateEngine} (h : Restarts e got now f r ev) :
    ∀ x ∈ ev, ∀ p, x ≠ .dispatch p := by
  rintro _ hx p rfl
  rcases h.quiet _ hx with h | h <;> cases h

theorem Stores.integral (h : Stores e got now f d ev) : Integral got ev := by
  obtain ⟨r, evr, hr, -, -, rfl⟩ := h
  refine (integral_append _ _ _).2 ⟨integral_of_dispatched hr.ne_dispatch _, ?_⟩
  exact (integral_append _ _ _).2 ⟨integral_of_dispatched storeEvents_ne_dispatch _, trivial⟩

/-- Of frames of 8 bytes, an accepted packet that announces a header at least is
    read from them. -/
theorem Stores.coveredBy (h : Stores e got now f d ev) (hst : d.seqStored = d.seqMax)
    (hcov : Pieces.Covers CanFrame.seqNo (storedAfter got ev) d.seqMax) (hcrc : CrcOk d)
    (hdlc : ∀ g ∈ storedAfter got ev, g.canDlc = 8) (h8 : 8 ≤ d.seqLen) :
    ∃ x, extractCANData d.payloadBuffer d.seqLen d.checked.seqBuffer = .ok x ∧
      CoveredBy (storedAfter got ev) ⟨d.seqLen, x.command, x.payload, x.len⟩ := by
  obtain ⟨g, hg, h0, hlen, hmax, hg32⟩ := h.holds.exists_header hst
  rw [hmax, ← hlen] at hcov
  have hslice : d.seqBuffer.slice 0 d.seqLen =
      Pieces.assemble CanFrame.seqNo CanFrame.data (storedAfter got ev) d.seqLen :=
    Pieces.slice_eq_assemble h.holds.nodup hcov fun x hx j hj =>
      h.holds.data x hx j (by rwa [hdlc x hx])
  obtain ⟨pb, subs, hext, hpb, -⟩ := d.extract_checked h8 (h.holds.seqLen_le hst)
  rw [CrcOk, hslice, hg32] at hcrc
  rw [hslice] at hext hpb
  exact ⟨_, hext, h8, h.holds.nodup, hcov, ⟨g, hg, h0, hlen.symm, hcrc⟩, rfl, hpb⟩

theorem integral_accept {x : Extracted} (got : List CanFrame) :
    Integral got (accept d now x).2 ↔ CoveredBy got ⟨d.seqLen, x.command, x.payload, x.len⟩ := by
  have hsubs := integral_of_dispatched (sub_ne_dispatch x.subs) got
  have hgot : storedAfter got (x.subs.map fun q => Event.sub q.1 q.2) = got := by
    induction x.subs with
    | nil => rfl
    | cons q subs ih => exact ih
  rw [accept, integral_append, and_iff_right hsubs, hgot]
  exact and_iff_left trivial

/-- Of frames of 8 bytes, one leads to a packet that they do not cover only as a
    short header that passes the check. -/
theorem receive_integral_iff (h : Inv e got) (hdlc : ∀ g ∈ got, g.canDlc = 8) (hf : f.canDlc = 8)
    (now : ℤ) :
    (∃ e' ev, e.canPacketReceptor now f = .ok (e', ev) ∧ Integral got ev) ↔
      ¬e.ShortHeaderPasses now f := by
  have hrec := receive_cases h now f
  generalize e.canPacketReceptor now f = x at *
  cases hrec with
  | duplicate hr hfree =>
    exact iff_of_true ⟨_, _, rfl, integral_of_dispatched hr.ne_dispatch _⟩ fun hs => hfree hs.2.1
  | waits hs hst =>
    exact iff_of_true ⟨_, _, rfl, hs.integral⟩ fun h => hst (hs.complete_of_short h.1 h.2.2.1.le)
  | rejected hs hst hbad =>
    exact iff_of_true ⟨_, _, rfl, (integral_append _ _ _).2 ⟨hs.integral, trivial⟩⟩ fun h =>
      hbad ⟨hs.covers_of_short h.1 h.2.2.1.le, (hs.shortHeaderPasses_iff.1 h).2.2⟩
  | accepted hs hst hcov hcrc =>
    rename_i d ev
    have hpass : e.ShortHeaderPasses now f ↔ d.seqLen < 8 := by
      rw [hs.shortHeaderPasses_iff]
      refine ⟨fun h => hs.seqLen_eq h.1 ▸ h.2.1, fun h8 => ?_⟩
      obtain ⟨h0, hlen⟩ := hs.runt hst h8
      exact ⟨h0, hlen ▸ h8, hcrc⟩
    rw [hpass, not_lt]
    constructor
    · rintro ⟨e', ev', heq, hint⟩
      cases hext : extractCANData d.payloadBuffer d.seqLen d.checked.seqBuffer with
      | error x => rw [hext] at heq; cases heq
      | ok x =>
        rw [hext] at heq
        obtain ⟨-, rfl⟩ := Prod.mk.inj (Except.ok.inj heq)
        exact ((integral_accept _).1 ((integral_append _ _ _).1 hint).2).le_len
    · intro h8
      have hdlc' : ∀ g ∈ storedAfter got ev, g.canDlc = 8 := fun g hg =>
        (hs.mem_storedAfter g hg).elim (hdlc g) fun h => h ▸ hf
      obtain ⟨x, hext, hcovered⟩ := hs.coveredBy hst hcov hcrc hdlc' h8
      rw [hext]
      exact ⟨_, _, rfl,
        (integral_append _ _ _).2 ⟨hs.integral, (integral_accept _).2 hcovered⟩⟩

theorem Receives.mem_storedAfter {e' : CANUpdateEngine}
    (h : Receives e got now f (.ok (e', ev))) : ∀ g ∈ storedAfter got ev, g ∈ got ∨ g = f := by
  generalize hx : Except.ok (e', ev) = x at h
  cases h with
  | duplicate h hf =>
    obtain ⟨rfl, rfl⟩ := Prod.mk.inj (Except.ok.inj hx)
    exact fun g hg => .inl (h.storedAfter_subset hg)
  | waits h hst =>
    obtain ⟨rfl, rfl⟩ := Prod.mk.inj (Except.ok.inj hx)
    exact h.mem_storedAfter
  | rejected h hst hbad =>
    obtain ⟨rfl, rfl⟩ := Prod.mk.inj (Except.ok.inj hx)
    rw [storedAfter_append]
    exact h.mem_storedAfter
  | accepted h hst hcov hcrc =>
    rename_i d _
    cases hext : extractCANData d.payloadBuffer d.seqLen d.checked.seqBuffer with
    | error x => rw [hext] at hx; cases hx
    | ok x =>
      rw [hext] at hx
      obtain ⟨rfl, rfl⟩ := Prod.mk.inj (Except.ok.inj hx)
      rw [storedAfter_append, accept, storedAfter_append]
      exact nofun

/-- Every packet handed over while frames of 8 bytes are received is read from
    frames stored since the last reset, exactly if no frame is stored as a header
    shorter than itself that passes the check. -/
theorem integral_iff (he : e.Initial) (l : List (ℤ × CanFrame)) (hl : ∀ a ∈ l, a.2.canDlc = 8) :
    (∃ e' ev, e.feed l = .ok (e', ev) ∧ Integral [] ev) ↔
      Transition.Meets step (fun e a => ¬e.ShortHeaderPasses a.1 a.2) e l :=
  feed_iff_meets Integral (fun f => f.canDlc = 8) (fun e got => Inv e got ∧ ∀ g ∈ got, g.canDlc = 8)
    [] (fun _ => trivial) integral_append
    (fun h hf hrec => ⟨(receives_of_ok h.1 hrec).inv, fun g hg =>
      ((receives_of_ok h.1 hrec).mem_storedAfter g hg).elim (h.2 g) fun h => h ▸ hf⟩)
    (fun h hf => receive_integral_iff h.1 h.2 hf _) ⟨inv_of_ready he, nofun⟩ hl

theorem integral_payload_first :
    ∃ e' ev, zeroed.feed [(0, payloadFrame 1)] = .ok (e', ev) ∧ Integral [] ev :=
  (integral_iff initial_zeroed _ (by simp [payloadFrame])).2
    ⟨fun h => absurd h.1 (by decide), fun _ _ => trivial⟩

/-- The empty packet, of type 7, has a CRC of zero. -/
theorem integral_fails_of_runt : ∃ e' ev, zeroed.feed [(0, runt 0 7)] = .ok (e', ev) ∧
    dispatched ev = [(7, [])] ∧ ¬Integral [] ev := by
  refine ⟨_, _, rfl, rfl, fun h => ?_⟩
  exact absurd h.1.le_len (by decide)

end CANUpdateEngine

end EW8.Can

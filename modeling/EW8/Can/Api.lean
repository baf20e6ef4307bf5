import EW8.Can.Resequencing

/-!
# The receiver of the update API

`CANUpdateAPI::IncomingData` on the host is the twin of the receiver of the engine:
it takes frames, and hands complete acknowledgements to `AckHandler`. It differs in
what it does around the steps they share. Above all, a timeout leaves it in the
state `READY`, where the engine goes on with the packet: the frame that comes after
the timeout is stored, but the next one resets everything again.

* `feed_of_collects`: in the middle of a packet, the other frames in order deliver it;
* `recovers_iff`: after an idle time, a packet is delivered exactly if the receiver
  was ready, or the packet has no payload.
-/

namespace EW8.Can

/-- `CANUpdateAPI::CommunicationInputState`. -/
inductive ApiInputState
  | ready
  | cmd
  deriving DecidableEq

/-- The receiver of `CANUpdateAPI`. -/
structure CANUpdateAPI extends SeqData where
  inputState : ApiInputState

namespace CANUpdateAPI

/-- `ResetLogic`. -/
def resetLogic (a : CANUpdateAPI) (now : ℤ) : CANUpdateAPI :=
  { a with toSeqData := a.toSeqData.resetLogic now }

/-- A new packet: everything is reset, and the state is `CMD`. -/
def newPacket (a : CANUpdateAPI) (now : ℤ) : CANUpdateAPI :=
  { a.resetLogic now with inputState := .cmd }

/-- When as many frames are stored as the packet has, counting starts again:
    `m_seqStored = 0`. -/
def full (_ : ℕ) : ℕ × List Event := (0, [])

/-- The resets at the start of `IncomingData`: a new packet in the state `READY`, a
    timeout. -/
def restart (a : CANUpdateAPI) (now : ℤ) : CANUpdateAPI × List Event :=
  let r : CANUpdateAPI × List Event :=
    if a.inputState = .ready then (a.newPacket now, [.reset])
    else (a, [])
  if maxTimeout < now - r.1.timeoutTimer then
    ({ r.1.resetLogic now with inputState := .ready }, r.2 ++ [.reset])
  else r

/-- An accepted packet is extracted, and handed to `AckHandler` if it is not data. -/
def accept (d : SeqData) (x : Extracted) : CANUpdateAPI × List Event :=
  ({ toSeqData := { d with payloadBuffer := x.payload }, inputState := .ready },
    x.subs.map (fun q => .sub q.1 q.2) ++
      if x.command = canSendData then [] else [.dispatch ⟨d.seqLen, x.command, x.payload, x.len⟩])

/-- The rest of `IncomingData` once a frame is stored. -/
def gotPart (s : ApiInputState) (d : SeqData) (now : ℤ) :
    Except Fault (CANUpdateAPI × List Event) :=
  if d.seqStored = d.seqMax then do
    let r ← d.checkPacket
    if r.2 then do
      let x ← extractCANData r.1.payloadBuffer r.1.seqLen r.1.seqBuffer
      return accept r.1 x
    else
      return ({ toSeqData := { r.1 with timeoutTimer := now }, inputState := .ready }, [])
  else
    return ({ toSeqData := { d with timeoutTimer := now }, inputState := s }, [])

/-- What `IncomingData` does with a frame after the resets. -/
def takeFrame (a : CANUpdateAPI) (now : ℤ) (f : CanFrame) :
    Except Fault (CANUpdateAPI × List Event) :=
  if a.seqMax ≤ f.seqNo then .ok (a.resetLogic now, [.reset])
  else do
    let filled ← a.fillSeqBuffer.read .fillSeqBuffer f.seqNo 1
    if filled = [0] then do
      let s ← a.fillInPart full f
      let t ← gotPart a.inputState s.1 now
      return (t.1, s.2 ++ t.2)
    else
      return (a, [])

/-- `IncomingData`, for the frame `f` at the time `now`. The status it returns is
    dropped by the reader of the bus. -/
def incomingData (a : CANUpdateAPI) (now : ℤ) (f : CanFrame) (flag : CANIncomingFlag) :
    Except Fault (CANUpdateAPI × List Event) :=
  if flag = .canErr then .ok (a, [])
  else do
    let r := a.restart now
    let t ← r.1.takeFrame now f
    return (t.1, r.2 ++ t.2)

/-- `CANPacketReceptor`: a frame read from the bus. -/
def canPacketReceptor (a : CANUpdateAPI) (now : ℤ) (f : CanFrame) :
    Except Fault (CANUpdateAPI × List Event) :=
  a.incomingData now f .canOk

/-- Frames arriving one after the other, each at its time. -/
def feed (a : CANUpdateAPI) (l : List (ℤ × CanFrame)) :
    Except Fault (CANUpdateAPI × List Event) := Can.feed canPacketReceptor a l

/-- The receiver as constructed. -/
def Initial (a : CANUpdateAPI) : Prop := a.inputState = .ready

/-- An API object constructed in zeroed memory. -/
def zeroed : CANUpdateAPI where
  seqStored := 0
  seqBuffer := fun _ => 0
  fillSeqBuffer := fun _ => 0
  seqMax := 0
  seqLen := 0
  seqCrc32 := 0
  seqComm := 0
  payloadBuffer := fun _ => 0
  timeoutTimer := 0
  inputState := .ready

theorem initial_zeroed : Initial zeroed := rfl

variable {a a' : CANUpdateAPI} {now t : ℤ} {f : CanFrame} {got : List CanFrame} {d : SeqData}
  {l : List (ℤ × CanFrame)} {ev : List Event} {c : UInt8} {p b : List UInt8} {i k s : ℕ}

theorem feed_cons {x : ℤ × CanFrame} (h : a.canPacketReceptor x.1 x.2 = .ok (a', ev)) :
    a.feed (x :: l) = (a'.feed l).map fun r => (r.1, ev ++ r.2) := Can.feed_cons h l

theorem feed_cons_error {x : ℤ × CanFrame} {y : Fault}
    (h : a.canPacketReceptor x.1 x.2 = .error y) : a.feed (x :: l) = .error y :=
  Can.feed_cons_error h l

/-! ## The resets -/

theorem not_timeout_resetLogic : ¬maxTimeout < now - (d.resetLogic now).timeoutTimer := by
  simp [SeqData.resetLogic, maxTimeout]

/-- In the state `READY`, everything is reset, and a packet begins. -/
theorem restart_of_ready (h : a.inputState = .ready) :
    a.restart now = (a.newPacket now, [.reset]) := by
  have ht : ¬maxTimeout < now - (a.newPacket now).timeoutTimer := not_timeout_resetLogic
  simp only [restart, if_pos h, if_neg ht]

/-- In the middle of a packet, a timeout resets everything, and leaves it ready. -/
theorem restart_of_timeout (h : a.inputState = .cmd) (ht : maxTimeout < now - a.timeoutTimer) :
    a.restart now = ({ a.resetLogic now with inputState := .ready }, [.reset]) := by
  have hr : ¬a.inputState = .ready := by rw [h]; exact nofun
  simp only [restart, if_neg hr, if_pos ht, List.nil_append]

theorem restart_of_cmd (h : a.inputState = .cmd) (ht : now - a.timeoutTimer ≤ maxTimeout) :
    a.restart now = (a, []) := by
  have hr : ¬a.inputState = .ready := by rw [h]; exact nofun
  simp only [restart, if_neg hr, if_neg (not_lt.2 ht)]

/-! ## Collecting a packet -/

theorem storeEvents_full : d.storeEvents full f = [] := by
  simp only [SeqData.storeEvents, SeqData.takeHeader, full]
  split_ifs <;> rfl

theorem receive_eq {r : CANUpdateAPI} (hr : a.restart now = (r, ev)) :
    a.canPacketReceptor now f = (r.takeFrame now f).map fun t => (t.1, ev ++ t.2) := by
  simp only [canPacketReceptor, incomingData, hr, reduceCtorEq, if_false, bind, Except.bind]
  cases r.takeFrame now f <;> rfl

/-- A new frame in range is stored. -/
theorem takeFrame_new (hm : f.seqNo < a.seqMax) (h : a.Holds got)
    (hf : f.seqNo ∉ got.map CanFrame.seqNo) :
    a.takeFrame now f =
      (gotPart a.inputState (a.store full f) now).map fun t => (t.1, .stored f :: t.2) := by
  have hread : a.fillSeqBuffer.read RxArray.fillSeqBuffer f.seqNo 1 = _ :=
    Bytes.read_eq f.seqNo_lt
  have h0 := (h.free_iff f).2 hf
  simp only [takeFrame, if_neg (not_le.2 hm), hread, bind, Except.bind, pure, Except.pure,
    Bytes.slice_one, h0, if_true, SeqData.fillInPart_eq, storeEvents_full, List.nil_append]
  cases gotPart a.inputState (a.store full f) now <;> rfl

theorem gotPart_incomplete {s : ApiInputState} (h : d.seqStored ≠ d.seqMax) :
    gotPart s d now = .ok ({ toSeqData := { d with timeoutTimer := now }, inputState := s }, []) := by
  rw [gotPart, if_neg h]
  rfl

theorem gotPart_accepted {s : ApiInputState} {d' : SeqData} (h : d.seqStored = d.seqMax)
    (hc : d.checkPacket = .ok (d', true)) :
    gotPart s d now =
      (extractCANData d'.payloadBuffer d'.seqLen d'.seqBuffer).map (accept d') := by
  rw [gotPart, if_pos h, hc]
  simp only [bind, Except.bind, if_true]
  cases extractCANData d'.payloadBuffer d'.seqLen d'.seqBuffer <;> rfl

/-- What `AckHandler` gets of a packet: nothing of a data packet. -/
def handed (c : UInt8) (p : List UInt8) : List (UInt8 × List UInt8) :=
  if c = canSendData then [] else [(c, p)]

section Packet

variable {r : CANUpdateAPI}

/-- A frame that does not complete the packet is stored. -/
theorem receive_incomplete (hb : IsPacket c p b) (hr : a.restart now = (r, ev))
    (hev : dispatched ev = []) (h : SeqData.Collects b r.toSeqData got)
    (hi : i < numFrames b.length) (hf : Carries b i f) (hnew : i ∉ got.map CanFrame.seqNo)
    (hcov : ¬Pieces.Covers CanFrame.seqNo (got ++ [f]) (numFrames b.length)) :
    ∃ a' ev', a.canPacketReceptor now f = .ok (a', ev') ∧ dispatched ev' = [] ∧
      SeqData.Collects b a'.toSeqData (got ++ [f]) ∧ a'.inputState = r.inputState ∧
      a'.timeoutTimer = now := by
  rw [← hf.seqNo hb hi] at hnew
  have hrange : f.seqNo < r.seqMax := hf.seqNo hb hi ▸ h.lt_seqMax hb hi
  have hstore := h.store full hb hi hf hnew
  have hrec := receive_eq hr (f := f)
  rw [takeFrame_new hrange h.toHolds hnew,
    gotPart_incomplete fun hst => hcov ((hstore.complete_iff hb).1 hst)] at hrec
  refine ⟨_, _, hrec, ?_, ⟨hstore.toHolds.congr_timer now, hstore.carried, hstore.stored_eq⟩,
    rfl, rfl⟩
  simp only [dispatched_append, hev]
  rfl

/-- The frame that completes the packet delivers it. -/
theorem receive_last (hb : IsPacket c p b) (hr : a.restart now = (r, ev))
    (hev : dispatched ev = []) (h : SeqData.Collects b r.toSeqData got)
    (hi : i < numFrames b.length) (hf : Carries b i f) (hnew : i ∉ got.map CanFrame.seqNo)
    (hcov : Pieces.Covers CanFrame.seqNo (got ++ [f]) (numFrames b.length)) :
    ∃ a' ev', a.canPacketReceptor now f = .ok (a', ev') ∧ dispatched ev' = handed c p := by
  rw [← hf.seqNo hb hi] at hnew
  have hrange : f.seqNo < r.seqMax := hf.seqNo hb hi ▸ h.lt_seqMax hb hi
  have hstore := h.store full hb hi hf hnew
  have hrec := receive_eq hr (f := f)
  obtain ⟨d', hcheck, pb, subs, hext, hpayload⟩ := hstore.checkPacket hb hcov
  rw [takeFrame_new hrange h.toHolds hnew,
    gotPart_accepted ((hstore.complete_iff hb).2 hcov) hcheck, hext] at hrec
  refine ⟨_, _, hrec, ?_⟩
  have hsubs := dispatched_eq_nil (sub_ne_dispatch subs)
  have hstored (ev : List Event) : dispatched (.stored f :: ev) = dispatched ev := rfl
  simp only [accept, hstored, dispatched_append, hev, hsubs, handed, List.nil_append]
  split_ifs
  · rfl
  · simp only [dispatched, List.filterMap_cons, List.filterMap_nil, Dispatch.payload, hpayload]

/-- With the frames from number `s` to `k` stored, those from `k` on, in order,
    deliver the packet, if `s` is its header. -/
theorem feed_of_collects (hb : IsPacket c p b) {fs : List (ℤ × CanFrame)} (hne : fs ≠ [])
    (hfs : ∀ j x, fs[j]? = some x → Carries b (k + j) x.2)
    (hlen : k + fs.length = numFrames b.length)
    (hgap : List.IsChain (fun s t => t - s ≤ maxTimeout) (a.timeoutTimer :: fs.map Prod.fst))
    (hs : a.inputState = .cmd) (h : SeqData.Collects b a.toSeqData got)
    (hgot : ∀ u, u ∈ got.map CanFrame.seqNo ↔ s ≤ u ∧ u < k) (hsk : s ≤ k) :
    ∃ a' ev, a.feed fs = .ok (a', ev) ∧ dispatched ev = if s = 0 then handed c p else [] := by
  induction fs generalizing a got k with
  | nil => exact absurd rfl hne
  | cons x fs ih =>
    rw [List.length_cons] at hlen
    rw [List.map_cons, List.isChain_cons_cons] at hgap
    have hk : k < numFrames b.length := by omega
    have hx : Carries b k x.2 := hfs 0 x rfl
    have hr := restart_of_cmd hs hgap.1
    have hnew : k ∉ got.map CanFrame.seqNo := fun hk => absurd ((hgot k).1 hk).2 (lt_irrefl k)
    have hgot' : ∀ u, u ∈ (got ++ [x.2]).map CanFrame.seqNo ↔ s ≤ u ∧ u < k + 1 := fun u => by
      rw [List.map_append, List.mem_append, hgot, List.map_singleton, List.mem_singleton,
        hx.seqNo hb hk]
      omega
    -- the packet is complete if this is its last frame, and the header is there
    have hcov : Pieces.Covers CanFrame.seqNo (got ++ [x.2]) (numFrames b.length) ↔
        s = 0 ∧ fs = [] := by
      have hiff : Pieces.Covers CanFrame.seqNo (got ++ [x.2]) (numFrames b.length) ↔
          ∀ u < numFrames b.length, s ≤ u ∧ u < k + 1 :=
        forall₂_congr fun u _ => by rw [← hgot', List.mem_map]
      rw [hiff, ← List.length_eq_zero_iff]
      constructor
      · intro hall
        have h0 := hall 0 (by omega)
        have hlast := hall (numFrames b.length - 1) (by omega)
        omega
      · rintro ⟨rfl, hfs0⟩ u hu
        omega
    by_cases hlast : s = 0 ∧ fs = []
    · obtain ⟨a', ev, hrec, hev⟩ := receive_last hb hr rfl h hk hx hnew (hcov.2 hlast)
      rw [if_pos hlast.1, hlast.2]
      refine ⟨a', ev ++ [], by rw [feed_cons hrec]; rfl, by rw [List.append_nil, hev]⟩
    · obtain ⟨a', ev, hrec, hev, hcol, hs', htime⟩ :=
        receive_incomplete hb hr rfl h hk hx hnew (mt hcov.1 hlast)
      by_cases hfs' : fs = []
      · rw [if_neg fun h0 => hlast ⟨h0, hfs'⟩, hfs']
        exact ⟨a', ev ++ [], by rw [feed_cons hrec]; rfl, by rw [List.append_nil, hev]⟩
      · obtain ⟨a₂, ev₂, hfeed, hev₂⟩ := ih hfs'
          (fun j y hy => by
            rw [Nat.add_assoc, Nat.add_comm 1]
            exact hfs (j + 1) y hy)
          (by omega) (htime ▸ hgap.2) (hs'.trans hs) hcol hgot' (by omega)
        refine ⟨a₂, ev ++ ev₂, by rw [feed_cons hrec, hfeed]; rfl, ?_⟩
        rw [dispatched_append, hev, hev₂]
        rfl

/-- A ready receiver starts a packet with whatever frame comes. -/
theorem receive_of_ready (h : a.inputState = .ready) :
    a.canPacketReceptor now f =
      ((a.newPacket now).canPacketReceptor now f).map fun t => (t.1, .reset :: t.2) := by
  have hr : (a.newPacket now).restart now = (a.newPacket now, []) :=
    restart_of_cmd rfl (not_lt.1 not_timeout_resetLogic)
  rw [receive_eq (restart_of_ready h), receive_eq hr]
  cases (a.newPacket now).takeFrame now f <;> rfl

/-- From the number `s` on, frames in order deliver their packet to a ready receiver
    if `s` is its header. -/
theorem feed_of_ready (hb : IsPacket c p b) {fs : List (ℤ × CanFrame)} (hne : fs ≠ [])
    (hfs : ∀ j x, fs[j]? = some x → Carries b (s + j) x.2)
    (hlen : s + fs.length = numFrames b.length)
    (hgap : List.IsChain (fun s t => t - s ≤ maxTimeout) (fs.map Prod.fst))
    (hs : a.inputState = .ready) :
    ∃ a' ev, a.feed fs = .ok (a', ev) ∧ dispatched ev = if s = 0 then handed c p else [] := by
  obtain ⟨x, fs, rfl⟩ := List.exists_cons_of_ne_nil hne
  obtain ⟨a', ev, hfeed, hev⟩ := feed_of_collects
    (a := a.newPacket x.1) hb hne hfs hlen
    (by
      rw [List.map_cons, List.isChain_cons_cons]
      exact ⟨not_lt.1 not_timeout_resetLogic, hgap⟩)
    rfl (SeqData.collects_resetLogic x.1) (fun u => by simp) le_rfl
  refine ⟨a', .reset :: ev, ?_, hev⟩
  cases hrec : (a.newPacket x.1).canPacketReceptor x.1 x.2 with
  | error y => rw [feed_cons_error hrec] at hfeed; cases hfeed
  | ok t =>
    have hrec' := @receive_of_ready a x.1 x.2 hs
    rw [hrec] at hrec'
    rw [feed_cons hrec] at hfeed
    rw [feed_cons hrec']
    cases ht : feed t.1 fs with
    | error y => rw [ht] at hfeed; cases hfeed
    | ok u =>
      rw [ht] at hfeed
      obtain ⟨rfl, rfl⟩ := Prod.mk.inj (Except.ok.inj hfeed)
      rfl

end Packet

/-! ## Recovery after an idle time -/

theorem gotPart_timer {s : ApiInputState} (h : gotPart s d now = .ok (a', ev))
    (hs : a'.inputState = .cmd) : a'.timeoutTimer = now := by
  rw [gotPart] at h
  split_ifs at h with hst
  · cases hc : d.checkPacket with
    | error y => rw [hc] at h; cases h
    | ok r =>
      rw [hc] at h
      simp only [bind, Except.bind] at h
      split_ifs at h
      · cases hx : extractCANData r.1.payloadBuffer r.1.seqLen r.1.seqBuffer with
        | error y => rw [hx] at h; cases h
        | ok x =>
          rw [hx] at h
          obtain ⟨rfl, rfl⟩ := Prod.mk.inj (Except.ok.inj h)
          cases hs
      · obtain ⟨rfl, rfl⟩ := Prod.mk.inj (Except.ok.inj h)
        rfl
  · obtain ⟨rfl, rfl⟩ := Prod.mk.inj (Except.ok.inj h)
    rfl

theorem takeFrame_timer (h : a.takeFrame now f = .ok (a', ev)) (hs : a'.inputState = .cmd) :
    a'.timeoutTimer = now ∨ a' = a := by
  rw [takeFrame] at h
  split_ifs at h with hm
  · obtain ⟨rfl, rfl⟩ := Prod.mk.inj (Except.ok.inj h)
    exact .inl rfl
  · rw [Bytes.read_eq f.seqNo_lt, SeqData.fillInPart_eq] at h
    simp only [bind, Except.bind] at h
    split_ifs at h
    · cases hg : gotPart a.inputState (a.store full f) now with
      | error y => rw [hg] at h; cases h
      | ok t =>
        rw [hg] at h
        obtain ⟨rfl, rfl⟩ := Prod.mk.inj (Except.ok.inj h)
        exact .inl (gotPart_timer hg hs)
    · obtain ⟨rfl, rfl⟩ := Prod.mk.inj (Except.ok.inj h)
      exact .inr rfl

/-- In the middle of a packet, the timer was set by a frame. -/
theorem receive_timer (h : a.canPacketReceptor now f = .ok (a', ev)) (hs : a'.inputState = .cmd) :
    a'.timeoutTimer = now ∨ a' = a := by
  have hrestart : (a.restart now).1.timeoutTimer = now ∨ (a.restart now).1 = a := by
    cases hr : a.inputState with
    | ready => rw [restart_of_ready hr]; exact .inl rfl
    | cmd =>
      by_cases ht : maxTimeout < now - a.timeoutTimer
      · rw [restart_of_timeout hr ht]; exact .inl rfl
      · rw [restart_of_cmd hr (not_lt.1 ht)]; exact .inr rfl
  rcases hr : a.restart now with ⟨r, evr⟩
  rw [receive_eq hr] at h
  rw [hr] at hrestart
  cases ht : r.takeFrame now f with
  | error y => rw [ht] at h; cases h
  | ok t =>
    rw [ht] at h
    obtain ⟨rfl, rfl⟩ := Prod.mk.inj (Except.ok.inj h)
    rcases takeFrame_timer ht hs with htime | heq
    · exact .inl htime
    · rw [heq]
      exact hrestart

/-- Long after all frames, a receiver in the middle of a packet has timed out. -/
theorem idle_of_feed (hl : ∀ x ∈ l, maxTimeout < t - x.1)
    (ha : a.inputState = .cmd → maxTimeout < t - a.timeoutTimer)
    (h : a.feed l = .ok (a', ev)) (hs : a'.inputState = .cmd) :
    maxTimeout < t - a'.timeoutTimer := by
  induction l generalizing a ev with
  | nil =>
    obtain ⟨rfl, rfl⟩ := Prod.mk.inj (Except.ok.inj h)
    exact ha hs
  | cons x l ih =>
    obtain ⟨hx, hl⟩ := List.forall_mem_cons.1 hl
    cases hrec : a.canPacketReceptor x.1 x.2 with
    | error y => rw [feed_cons_error hrec] at h; cases h
    | ok r =>
      rw [feed_cons hrec] at h
      cases hf : feed r.1 l with
      | error y => rw [hf] at h; cases h
      | ok u =>
        rw [hf] at h
        obtain ⟨rfl, rfl⟩ := Prod.mk.inj (Except.ok.inj h)
        refine ih hl (fun hr => ?_) hf
        rcases receive_timer hrec hr with htime | heq
        · rwa [htime]
        · rw [heq] at hr ⊢
          exact ha hr

/-- The frames of the packet `b`, in order. -/
structure InOrder (b : List UInt8) (fs : List (ℤ × CanFrame)) : Prop where
  length_eq : fs.length = numFrames b.length
  carries : ∀ i x, fs[i]? = some x → Carries b i x.2

/-- So are the frames written for it. -/
theorem inOrder_of_map (stale : Bytes 8) {fs : List (ℤ × CanFrame)}
    (h : fs.map Prod.snd = writeLogicalCANPacket stale b) : InOrder b fs where
  length_eq := by rw [← length_writeLogicalCANPacket stale b, ← h, List.length_map]
  carries i x hx := by
    obtain ⟨hi, rfl⟩ := List.getElem?_eq_some_iff.1 hx
    have hc := carries_writeLogicalCANPacket stale b i (by rw [← h, List.length_map]; exact hi)
    simpa only [← h, List.getElem_map] using hc

/-- A packet has one frame exactly if it has no payload. -/
theorem numFrames_eq_one_iff (c : UInt8) (hp : p.length ≤ maxLogicalPacket) :
    numFrames (formCANPacket c p).length = 1 ↔ p = [] := by
  have hb := isPacket_formCANPacket c hp
  constructor
  · intro h
    have hdrop : (formCANPacket c p).drop 8 = [] :=
      List.drop_of_length_le (by rw [numFrames] at h; omega)
    rw [← hb.payload, hdrop, unframe_nil]
  · rintro rfl
    simp [formCANPacket_eq c hp, rawHeader, numFrames]

/-- After an idle time, the frames of a packet in order deliver it to a receiver that
    is ready, and otherwise only if there is but one of them. -/
theorem feed_after_idle (c : UInt8) (hp : p.length ≤ maxLogicalPacket)
    {fs : List (ℤ × CanFrame)} (h : InOrder (formCANPacket c p) fs)
    (hidle : a.inputState = .cmd → ∀ y ∈ fs.head?, maxTimeout < y.1 - a.timeoutTimer)
    (hgap : List.IsChain (fun s t => t - s ≤ maxTimeout) (fs.map Prod.fst)) :
    ∃ a' ev, a.feed fs = .ok (a', ev) ∧
      dispatched ev = if a.inputState = .ready ∨ p = [] then handed c p else [] := by
  have hb := isPacket_formCANPacket c hp
  have hone := numFrames_eq_one_iff c hp
  have hpos := hb.numFrames_pos
  have hne : fs ≠ [] := fun h0 => by
    have hlen := h.length_eq
    rw [h0, List.length_nil] at hlen
    omega
  cases hs : a.inputState with
  | ready =>
    simpa using feed_of_ready (s := 0) hb hne (by simpa using h.carries)
      (by rw [Nat.zero_add, h.length_eq]) hgap hs
  | cmd =>
    obtain ⟨x, fs, rfl⟩ := List.exists_cons_of_ne_nil hne
    have hr := restart_of_timeout hs (hidle hs x rfl)
    have hlen := h.length_eq
    rw [List.length_cons] at hlen
    have hx : Carries (formCANPacket c p) 0 x.2 := h.carries 0 x rfl
    have hcol := SeqData.collects_resetLogic (d := a.toSeqData) (b := formCANPacket c p) x.1
    by_cases hp0 : p = []
    · -- the header is the whole packet
      have hN := hone.2 hp0
      obtain ⟨a', ev, hrec, hev⟩ := receive_last hb hr rfl hcol hpos hx List.not_mem_nil
        fun u hu => ⟨x.2, by simp, by rw [hx.seqNo hb hpos]; omega⟩
      obtain rfl : fs = [] := List.length_eq_zero_iff.1 (by omega)
      rw [if_pos (.inr hp0)]
      exact ⟨a', ev ++ [], by rw [feed_cons hrec]; rfl, by rw [List.append_nil, hev]⟩
    · -- the header is stored, but dropped again with the next frame
      have hN : numFrames (formCANPacket c p).length ≠ 1 := mt hone.1 hp0
      obtain ⟨a', ev, hrec, hev, -, hs', -⟩ := receive_incomplete hb hr rfl hcol hpos hx
        List.not_mem_nil fun hcov => by
          obtain ⟨y, hy, h1⟩ := hcov 1 (by omega)
          rw [List.nil_append, List.mem_singleton] at hy
          rw [hy, hx.seqNo hb hpos] at h1
          cases h1
      have hfs : fs ≠ [] := fun h0 => by
        rw [h0, List.length_nil] at hlen
        omega
      obtain ⟨a₂, ev₂, hfeed, hev₂⟩ := feed_of_ready (s := 1) hb hfs
        (fun j y hy => by rw [Nat.add_comm]; exact h.carries (j + 1) y hy) (by omega)
        (List.IsChain.tail hgap) hs'
      rw [if_neg (by simp [hp0])]
      exact ⟨a₂, ev ++ ev₂, by rw [feed_cons hrec, hfeed]; rfl, by
        rw [dispatched_append, hev, hev₂]; rfl⟩

/-- After an idle time longer than the timeout, the frames of a packet deliver it
    exactly once exactly if it is not a data packet, what came before has been received
    without a fault, and has left the receiver ready, or the packet has no payload. -/
theorem recovers_iff (ha : a.Initial) (c : UInt8) (hp : p.length ≤ maxLogicalPacket)
    {fs : List (ℤ × CanFrame)} (h : InOrder (formCANPacket c p) fs)
    (hidle : ∀ x ∈ l, ∀ y ∈ fs.head?, maxTimeout < y.1 - x.1)
    (hgap : List.IsChain (fun s t => t - s ≤ maxTimeout) (fs.map Prod.fst)) :
    (∃ a₁ ev₁ a₂ ev₂, a.feed l = .ok (a₁, ev₁) ∧ a₁.feed fs = .ok (a₂, ev₂) ∧
        dispatched ev₂ = [(c, p)]) ↔
      c ≠ canSendData ∧
        ∃ a₁ ev₁, a.feed l = .ok (a₁, ev₁) ∧ (a₁.inputState = .ready ∨ p = []) := by
  cases hl : a.feed l with
  | error y =>
    refine iff_of_false ?_ ?_
    · rintro ⟨_, _, _, _, h, -⟩
      cases h
    · rintro ⟨-, _, _, h, -⟩
      cases h
  | ok r =>
    obtain ⟨a₁, ev₁⟩ := r
    have hstart : a.inputState = .cmd → ∀ y ∈ fs.head?, maxTimeout < y.1 - a.timeoutTimer :=
      fun hs => by rw [ha] at hs; cases hs
    obtain ⟨a₂, ev₂, hfeed, hev₂⟩ := feed_after_idle (a := a₁) c hp h
      (fun hs y hy => idle_of_feed (fun x hx => hidle x hx y hy) (fun hs => hstart hs y hy) hl hs)
      hgap
    constructor
    · rintro ⟨_, _, _, _, h₁, h₂, hdis⟩
      obtain ⟨rfl, rfl⟩ := Prod.mk.inj (Except.ok.inj h₁)
      obtain ⟨rfl, rfl⟩ := Prod.mk.inj (Except.ok.inj (hfeed.symm.trans h₂))
      rw [hev₂] at hdis
      split_ifs at hdis with hready
      rw [handed] at hdis
      split_ifs at hdis with hc
      exact ⟨hc, a₁, ev₁, rfl, hready⟩
    · rintro ⟨hc, _, _, h₁, hready⟩
      obtain ⟨rfl, rfl⟩ := Prod.mk.inj (Except.ok.inj h₁)
      refine ⟨a₁, ev₁, a₂, ev₂, rfl, hfeed, ?_⟩
      rw [hev₂, if_pos hready, handed, if_neg hc]

/-- The frames of a packet, all written at the time `t`. -/
def written (t : ℤ) (c : UInt8) (p : List UInt8) : List (ℤ × CanFrame) :=
  (writeLogicalCANPacket (fun _ => 0) (formCANPacket c p)).map fun f => (t, f)

theorem inOrder_written (t : ℤ) (c : UInt8) (p : List UInt8) :
    InOrder (formCANPacket c p) (written t c p) :=
  inOrder_of_map (fun _ => 0) (by simp [written, Function.comp_def])

theorem fst_of_mem_head_written {x : ℤ × CanFrame} (h : x ∈ (written t c p).head?) : x.1 = t := by
  obtain ⟨f, -, rfl⟩ := List.mem_map.1 (List.mem_of_mem_head? h)
  rfl

theorem isChain_written (t : ℤ) (c : UInt8) (p : List UInt8) :
    List.IsChain (fun s t => t - s ≤ maxTimeout) ((written t c p).map Prod.fst) := by
  rw [List.isChain_map, written, List.isChain_map]
  exact (List.pairwise_of_forall fun _ _ => by simp [maxTimeout]).isChain

/-- An acknowledgement without payload is delivered 2 s after a lost packet, -/
theorem recovers_header_only :
    ∃ a₁ ev₁ a₂ ev₂, zeroed.feed [(0, payloadFrame 1)] = .ok (a₁, ev₁) ∧
      a₁.feed (written 2000000000 1 []) = .ok (a₂, ev₂) ∧ dispatched ev₂ = [(1, [])] :=
  (recovers_iff initial_zeroed 1 (by decide) (inOrder_written 2000000000 1 [])
    (by
      intro x hx y hy
      rw [fst_of_mem_head_written hy, List.mem_singleton.1 hx]
      decide)
    (isChain_written 2000000000 1 [])).2 ⟨by decide, _, _, rfl, .inr rfl⟩

/-- and one with a payload is not. -/
theorem recovers_fails_of_payload :
    ¬∃ a₁ ev₁ a₂ ev₂, zeroed.feed [(0, payloadFrame 1)] = .ok (a₁, ev₁) ∧
      a₁.feed (written 2000000000 1 [5]) = .ok (a₂, ev₂) ∧ dispatched ev₂ = [(1, [5])] := by
  rintro ⟨a₁, ev₁, a₂, ev₂, h₁, h₂, hdis⟩
  have hstate : (zeroed.feed [(0, payloadFrame 1)]).map
      (fun r => (r.1.inputState, r.1.timeoutTimer)) = .ok (.cmd, 0) := rfl
  rw [h₁] at hstate
  obtain ⟨hs, htime⟩ := Prod.mk.inj (Except.ok.inj hstate)
  obtain ⟨a', ev, hfeed, hev⟩ := feed_after_idle 1 (by decide) (inOrder_written 2000000000 1 [5])
    (fun _ y hy => by
      rw [fst_of_mem_head_written hy, htime]
      decide)
    (isChain_written 2000000000 1 [5])
  obtain ⟨-, rfl⟩ := Prod.mk.inj (Except.ok.inj (hfeed.symm.trans h₂))
  rw [hs, if_neg (by decide), hdis] at hev
  cases hev

end CANUpdateAPI

end EW8.Can

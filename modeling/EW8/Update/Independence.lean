import EW8.Can.Leftovers
import EW8.Update.Storage

/-!
# Commands and what is left in the payload buffer

`CommandHandler` is given the payload buffer, "guaranteed command parameters", but not the length
of the payload, and reads its parameters at fixed places, or up to a zero byte (`parse`). Where a
payload is shorter than the parameters, the rest of them is what earlier packets left behind
(`Device`). What the engine does depends on its own packet exactly if the payload is
`SelfContained` (`independent_iff`).
-/

namespace EW8.Update

/-- What keeps a packet from being answered. -/
inductive Stop
  /-- An access outside the arrays of the receiver. -/
  | fault (x : Can.Fault)
  /-- A string is read past the end of `m_payloadBuffer`. -/
  | unterminated
  /-- A division by zero. -/
  | killed
  deriving DecidableEq

/-- A 0-terminated string at the start of the payload buffer. -/
def cString (buffer : Bytes Can.packetBufferLen) : Except Stop String :=
  let bytes := buffer.slice 0 Can.packetBufferLen
  if 0 ∈ bytes then
    .ok (String.ofList ((bytes.takeWhile (· ≠ 0)).map fun x => Char.ofNat x.toNat))
  else .error .unterminated

/-- The packet that `CommandHandler`, or `DataHandler`, takes from the payload buffer. -/
def parse (d : Can.Dispatch) : Except Stop Packet :=
  match d.command.toNat with
  | 1 => (cString d.buffer).map fun v => .command (.setVersion v)
  | 2 => .ok (.command (.setInfo (UInt32.ofNat (ofLE (d.buffer.slice 0 4)))
      (UInt16.ofNat (ofLE (d.buffer.slice 4 2)))))
  | 3 => .ok (.command .getNumWrCh)
  | 4 => .ok (.command (.writeCh (UInt16.ofNat (ofLE (d.buffer.slice 0 2)))))
  | 6 => .ok (.command (.checkSign (toInt (ofLE (d.buffer.slice 0 4)))))
  | 7 => .ok (.command .userUpdate)
  | 8 => (cString d.buffer).map fun v => .command (.userRemove v)
  | 9 => .ok (.command .userGetVer)
  | 10 => .ok (.command .getUpdStatus)
  | 11 => .ok (.command .forceRollback)
  | 128 => .ok (.sendData d.payload)
  | _ => .ok (.command .unknown)

/-- The receiver, with the engine behind it. -/
structure Device where
  receiver : Can.CANUpdateEngine
  engine : Engine

namespace Engine

variable (o : Outcome)

/-- What the engine does as the receiver goes on, and the acknowledgements sent. -/
def handle (e : Engine) : Can.Event → Except Stop (Engine × List Acknowledge)
  | .nack => .ok (e, [.nackGen])
  | .dispatch d => do
    let p ← parse d
    match e.receive o p with
    | none => .error .killed
    | some (e, ack) => .ok (e, ack.toList)
  | _ => .ok (e, [])

/-- One after the other. -/
def handleAll (e : Engine) : List Can.Event → Except Stop (Engine × List Acknowledge)
  | [] => .ok (e, [])
  | x :: ev => do
    let r ← e.handle o x
    let t ← handleAll r.1 ev
    return (t.1, r.2 ++ t.2)

end Engine

namespace Device

/-- Frames arriving at the device, each at its time. -/
def feed (o : Outcome) (d : Device) (l : List (ℤ × Can.CanFrame)) :
    Except Stop (Device × List Acknowledge) := do
  let r ← (d.receiver.feed l).mapError .fault
  let t ← d.engine.handleAll o r.2
  return (⟨r.1, t.1⟩, t.2)

/-- The device with other contents of `m_seqBuffer` and `m_payloadBuffer`. -/
def withBuffers (d : Device) (sb pb : Bytes Can.packetBufferLen) : Device :=
  { d with receiver := d.receiver.withBuffers sb pb }

/-- The same, but for the contents of these buffers. -/
def Same (d d' : Device) : Prop := ∃ sb pb, d' = d.withBuffers sb pb

end Device

/-- The same acknowledgements and devices, or stopped in the same way. -/
def SameResult : Except Stop (Device × List Acknowledge) → Except Stop (Device × List Acknowledge) →
    Prop
  | .ok (d, acks), .ok (d', acks') => d.Same d' ∧ acks' = acks
  | .error x, .error x' => x' = x
  | _, _ => False

/-- Whatever earlier packets have left in the buffers, the frames of the packet `b` have the same
    effect, in any order, on any device that awaits it. -/
def Independent (b : List UInt8) : Prop :=
  ∀ (o : Outcome) (d d' : Device) (pre : List (ℤ × Can.CanFrame)) (t : ℤ) (last : Can.CanFrame),
    d.Same d' → Can.CANUpdateEngine.Shuffled b pre last →
    List.IsChain (fun s t => t - s ≤ Can.maxTimeout) (pre.map Prod.fst ++ [t]) →
    (d.receiver.inputState = .ready ∨
      Can.maxTimeout < Can.CANUpdateEngine.firstTime pre t - d.receiver.timeoutTimer) →
    SameResult (d.feed o (pre ++ [(t, last)])) (d'.feed o (pre ++ [(t, last)]))

/-- The payload `p` of a packet of type `c` has all the parameters read. Without a file size, the
    chunk size does not matter. -/
def SelfContained (c : UInt8) (p : List UInt8) : Prop :=
  match c.toNat with
  | 1 => 0 ∈ p
  | 2 => 6 ≤ p.length ∨ (4 ≤ p.length ∧ ofLE (p.take 4) = 0)
  | 4 => 2 ≤ p.length
  | 6 => 4 ≤ p.length
  | 8 => 0 ∈ p
  | _ => True

variable {c : UInt8} {p b : List UInt8} {o : Outcome} {e : Engine}
  {pb pb' : Bytes Can.packetBufferLen}

/-! ## What is read of the payload buffer -/

variable (pb pb') in
/-- Within the payload, nothing else is read. -/
theorem slice_patch_congr (ofs : ℕ) {len : ℕ} (h : ofs + len ≤ p.length) :
    (pb.patch 0 p).slice ofs len = (pb'.patch 0 p).slice ofs len := by
  refine Bytes.slice_congr fun i hi => ?_
  by_cases hn : ofs + i < Can.packetBufferLen
  · rw [Bytes.byteAt_patch hn, Bytes.byteAt_patch hn, if_pos (by omega), if_pos (by omega)]
  · rw [Bytes.byteAt, dif_neg hn, Bytes.byteAt, dif_neg hn]

/-- The payload, and what is left behind it. -/
theorem slice_patch_append (pb : Bytes Can.packetBufferLen)
    (hp : p.length ≤ Can.packetBufferLen) :
    (pb.patch 0 p).slice 0 Can.packetBufferLen =
      p ++ pb.slice p.length (Can.packetBufferLen - p.length) := by
  have hadd := (pb.patch 0 p).slice_add 0 p.length (Can.packetBufferLen - p.length)
  rw [Nat.add_sub_of_le hp, Nat.zero_add, Bytes.slice_patch_self (by omega)] at hadd
  rw [hadd]
  exact congrArg (p ++ ·)
    (Bytes.slice_congr fun i _ => Bytes.byteAt_patch_of_not_mem (.inr (by omega)))

variable (pb pb') in
/-- A string that ends within the payload. -/
theorem cString_congr (hp : p.length ≤ Can.packetBufferLen) (h : 0 ∈ p) :
    cString (pb.patch 0 p) = cString (pb'.patch 0 p) := by
  have hmem (rest : List UInt8) : 0 ∈ p ++ rest := List.mem_append_left _ h
  have hne : ¬(p.takeWhile (· ≠ 0)).length = p.length := fun hlen => by
    have hall := List.takeWhile_eq_self_iff.1
      ((List.takeWhile_prefix (p := (· ≠ 0)) (l := p)).eq_of_length hlen)
    simpa using hall 0 h
  simp only [cString, slice_patch_append _ hp, if_pos (hmem _), List.takeWhile_append, if_neg hne]

/-! ## From frames to the engine -/

namespace Engine

theorem handleAll_append (e : Engine) (ev₁ ev₂ : List Can.Event) :
    e.handleAll o (ev₁ ++ ev₂) = do
      let r ← e.handleAll o ev₁
      let t ← r.1.handleAll o ev₂
      return (t.1, r.2 ++ t.2) := by
  induction ev₁ generalizing e with
  | nil =>
    simp only [List.nil_append, handleAll, bind, Except.bind, pure, Except.pure]
    cases e.handleAll o ev₂ <;> rfl
  | cons x ev₁ ih =>
    simp only [List.cons_append, handleAll, bind, Except.bind, pure, Except.pure, ih]
    cases e.handle o x with
    | error y => rfl
    | ok r =>
      dsimp only
      cases r.1.handleAll o ev₁ with
      | error y => rfl
      | ok t =>
        dsimp only
        cases t.1.handleAll o ev₂ with
        | error y => rfl
        | ok q => simp only [List.append_assoc]

/-- Without a packet, the engine does not change. -/
theorem handleAll_of_quiet {ev : List Can.Event} (h : Can.dispatched ev = []) :
    ∃ acks, e.handleAll o ev = .ok (e, acks) := by
  induction ev with
  | nil => exact ⟨[], rfl⟩
  | cons x ev ih =>
    cases x with
    | dispatch d => exact absurd h (List.cons_ne_nil _ _)
    | _ =>
      obtain ⟨acks, hacks⟩ := ih h
      simp [handleAll, handle, hacks, bind, Except.bind, pure, Except.pure]

/-- The subtractions of the receiver are no concern of the engine. -/
theorem handleAll_subs (subs : List (ℕ × ℕ)) (ev : List Can.Event) :
    e.handleAll o (subs.map (fun q => .sub q.1 q.2) ++ ev) = e.handleAll o ev := by
  induction subs with
  | nil => rfl
  | cons q subs ih =>
    simp only [List.map_cons, List.cons_append, handleAll, handle, ih, bind, Except.bind, pure,
      Except.pure]
    cases e.handleAll o ev <;> rfl

/-- A packet that the receiver hands over reaches its handler. -/
theorem handleAll_packet {ev : List Can.Event} (h : Can.dispatched ev = []) :
    ∃ acks, ∀ (subs : List (ℕ × ℕ)) (d : Can.Dispatch),
      e.handleAll o (ev ++ (subs.map (fun q => .sub q.1 q.2) ++ [.dispatch d, .reset])) =
        (e.handle o (.dispatch d)).map fun r => (r.1, acks ++ r.2) := by
  obtain ⟨acks, hacks⟩ := handleAll_of_quiet (o := o) (e := e) h
  refine ⟨acks, fun subs d => ?_⟩
  rw [handleAll_append, hacks]
  simp only [bind, Except.bind, pure, Except.pure, handleAll_subs, handleAll]
  cases e.handle o (.dispatch d) with
  | error x => rfl
  | ok r => simp [handle, Except.map]

end Engine

/-- What the device does with frames that the receiver takes. -/
theorem Device.feed_eq {d : Device} {l : List (ℤ × Can.CanFrame)} {rx : Can.CANUpdateEngine}
    {ev : List Can.Event} (h : d.receiver.feed l = .ok (rx, ev)) :
    d.feed o l = (d.engine.handleAll o ev).map fun t => (⟨rx, t.1⟩, t.2) := by
  simp only [feed, h, Except.mapError, bind, Except.bind, pure, Except.pure]
  cases d.engine.handleAll o ev <;> rfl

/-- The packet as it is handed over, where `pb` is left from earlier packets. -/
def dispatch (c : UInt8) (p b : List UInt8) (pb : Bytes Can.packetBufferLen) : Can.Dispatch :=
  ⟨b.length, c, pb.patch 0 p, p.length⟩

/-- The frames of a packet, one after the other. -/
theorem exists_shuffled (hb : Can.IsPacket c p b) :
    ∃ pre last, Can.CANUpdateEngine.Shuffled b pre last ∧ ∀ a ∈ pre, a.1 = 0 := by
  have hlen := Can.length_writeLogicalCANPacket (fun _ => 0) b
  have hcarries := Can.carries_writeLogicalCANPacket (fun _ => 0) b
  generalize Can.writeLogicalCANPacket (fun _ => 0) b = l at hlen hcarries
  obtain ⟨init, last, rfl⟩ := (List.eq_nil_or_concat' l).resolve_left fun h => by
    have := hb.numFrames_pos
    rw [h] at hlen
    exact this.ne hlen
  rw [List.length_append, List.length_singleton] at hlen
  have hinit : ∀ i (hi : i < init.length), Can.Carries b i init[i] := fun i hi => by
    have h := hcarries i (by simp; omega)
    rwa [List.getElem_append_left hi] at h
  have hlast : Can.Carries b init.length last := by
    have h := hcarries init.length (by simp)
    rwa [List.getElem_concat_length rfl] at h
  refine ⟨init.map (0, ·), last, ⟨?_, ⟨init.length, by omega, hlast, ?_⟩, ?_⟩, by simp⟩
  · intro a ha
    obtain ⟨f, hf, rfl⟩ := List.mem_map.1 ha
    obtain ⟨i, hi, rfl⟩ := List.mem_iff_getElem.1 hf
    exact ⟨i, by omega, hinit i hi⟩
  · intro a ha
    obtain ⟨f, hf, rfl⟩ := List.mem_map.1 ha
    obtain ⟨i, hi, rfl⟩ := List.mem_iff_getElem.1 hf
    rw [(hinit i hi).seqNo hb (by omega)]
    exact hi.ne
  · intro i hi
    by_cases h : i < init.length
    · exact .inl ⟨(0, init[i]), List.mem_map_of_mem (List.getElem_mem h),
        (hinit i h).seqNo hb hi⟩
    · rw [hlast.seqNo hb (by omega)]
      exact .inr (by omega)

theorem sameResult_map {rx : Can.CANUpdateEngine} {sb : Bytes Can.packetBufferLen}
    {acks : List Acknowledge} {x x' : Except Stop (Engine × List Acknowledge)} :
    SameResult (x.map fun r => (⟨rx, r.1⟩, acks ++ r.2))
      (x'.map fun r => (⟨rx.withBuffers sb pb, r.1⟩, acks ++ r.2)) ↔ x = x' := by
  cases x with
  | error y => cases x' <;> simp [SameResult, Except.map, eq_comm]
  | ok r =>
    cases x' with
    | error y => simp [SameResult, Except.map]
    | ok r' =>
      simp only [SameResult, Except.map, List.append_cancel_left_eq, Except.ok.injEq]
      refine ⟨?_, ?_⟩
      · rintro ⟨⟨sb', pb', hd⟩, hacks⟩
        exact Prod.ext (congrArg Device.engine hd).symm hacks.symm
      · rintro rfl
        exact ⟨⟨sb, pb, rfl⟩, rfl⟩

/-- Of what the device does with a packet, only what the engine does when it is handed over can
    differ. -/
theorem sameResult_feed_iff (hb : Can.IsPacket c p b) {d : Device} {pre : List (ℤ × Can.CanFrame)}
    {t : ℤ} {last : Can.CanFrame} (hpre : Can.CANUpdateEngine.Shuffled b pre last)
    (hgap : List.IsChain (fun s t => t - s ≤ Can.maxTimeout) (pre.map Prod.fst ++ [t]))
    (hstart : d.receiver.inputState = .ready ∨
      Can.maxTimeout < Can.CANUpdateEngine.firstTime pre t - d.receiver.timeoutTimer)
    (sb pb : Bytes Can.packetBufferLen) :
    SameResult (d.feed o (pre ++ [(t, last)])) ((d.withBuffers sb pb).feed o (pre ++ [(t, last)])) ↔
      d.engine.handle o (.dispatch (dispatch c p b d.receiver.payloadBuffer)) =
        d.engine.handle o (.dispatch (dispatch c p b pb)) := by
  obtain ⟨rx, ev, subs, subs', sb', pb', hev, hfeed, hfeed'⟩ :=
    Can.CANUpdateEngine.packet_withBuffers hb hpre hgap hstart sb pb
  obtain ⟨acks, hacks⟩ := Engine.handleAll_packet (o := o) (e := d.engine) hev
  have hmap (x : Except Stop (Engine × List Acknowledge)) (rx : Can.CANUpdateEngine) :
      ((x.map fun r => (r.1, acks ++ r.2)).map fun t => ((⟨rx, t.1⟩ : Device), t.2)) =
        x.map fun r => (⟨rx, r.1⟩, acks ++ r.2) := by
    cases x <;> rfl
  rw [Device.feed_eq hfeed, hacks, Device.feed_eq (d := d.withBuffers sb pb) hfeed']
  rw [show (d.withBuffers sb pb).engine = d.engine from rfl, hacks, hmap, hmap]
  exact sameResult_map

/-- Only what the engine does with the packet handed over counts. -/
theorem independent_iff_handle (hb : Can.IsPacket c p b) :
    Independent b ↔ ∀ (o : Outcome) (e : Engine) (pb pb' : Bytes Can.packetBufferLen),
      e.handle o (.dispatch (dispatch c p b pb)) = e.handle o (.dispatch (dispatch c p b pb')) := by
  constructor
  · intro h o e pb pb'
    obtain ⟨pre, last, hpre, hzero⟩ := exists_shuffled hb
    have hgap : List.IsChain (fun s t => t - s ≤ Can.maxTimeout) (pre.map Prod.fst ++ [0]) := by
      have hall : ∀ x ∈ pre.map Prod.fst ++ [0], x = 0 := by
        intro x hx
        rcases List.mem_append.1 hx with hx | hx
        · obtain ⟨a, ha, rfl⟩ := List.mem_map.1 hx
          exact hzero a ha
        · exact List.mem_singleton.1 hx
      exact List.Pairwise.isChain (List.pairwise_of_forall_mem_list fun x hx y hy => by
        rw [hall x hx, hall y hy]
        decide)
    -- a device with the first contents of the payload buffer
    let d : Device := ⟨Can.CANUpdateEngine.zeroed.withBuffers (fun _ => 0) pb, e⟩
    have hstart : d.receiver.inputState = .ready := rfl
    exact (sameResult_feed_iff hb hpre hgap (.inl hstart) (fun _ => 0) pb').1
      (h o d _ pre 0 last ⟨_, _, rfl⟩ hpre hgap (.inl hstart))
  · rintro h o d d' pre t last ⟨sb, pb, rfl⟩ hpre hgap hstart
    exact (sameResult_feed_iff hb hpre hgap hstart sb pb).2 (h ..)

/-! ## Commands with all their parameters -/

variable (pb pb') in
/-- The packet taken from the payload buffer. -/
theorem parse_congr (hp : p.length ≤ Can.packetBufferLen) (h : SelfContained c p)
    (hinfo : c.toNat = 2 → 6 ≤ p.length) :
    parse (dispatch c p b pb) = parse (dispatch c p b pb') := by
  unfold SelfContained at h
  split at h
  case h_1 hc => simp only [parse, dispatch, hc, cString_congr pb pb' hp h]
  case h_2 hc =>
    have h6 := hinfo hc
    simp only [parse, dispatch, hc, slice_patch_congr pb pb' 0
      (show 0 + 4 ≤ p.length by omega), slice_patch_congr pb pb' 4
      (show 4 + 2 ≤ p.length by omega)]
  case h_3 hc =>
    simp only [parse, dispatch, hc, slice_patch_congr pb pb' 0
      (show 0 + 2 ≤ p.length by omega)]
  case h_4 hc =>
    simp only [parse, dispatch, hc, slice_patch_congr pb pb' 0
      (show 0 + 4 ≤ p.length by omega)]
  case h_5 hc => simp only [parse, dispatch, hc, cString_congr pb pb' hp h]
  case h_6 h1 h2 h4 h6 h8 =>
    -- a command without parameters, or data, with its length
    have hdata : (pb.patch 0 p).slice 0 p.length = (pb'.patch 0 p).slice 0 p.length :=
      slice_patch_congr pb pb' 0 (by omega)
    unfold parse
    simp only [dispatch, Can.Dispatch.payload, hdata]
    split <;> first | contradiction | rfl

/-- Without a size, the chunk size does not matter. -/
theorem Engine.commandHandler_setInfo_zero (chunkSize chunkSize' : UInt16) :
    e.commandHandler o (.setInfo 0 chunkSize) = e.commandHandler o (.setInfo 0 chunkSize') := by
  simp only [commandHandler, CANProcessor.setInfo, ControlFile.initControlFile, UInt32.toNat_zero,
    if_true]

/-- A packet with all its parameters is handled in one way. -/
theorem handle_congr (hp : p.length ≤ Can.packetBufferLen) (h : SelfContained c p) :
    e.handle o (.dispatch (dispatch c p b pb)) = e.handle o (.dispatch (dispatch c p b pb')) := by
  by_cases hinfo : c.toNat = 2 → 6 ≤ p.length
  · simp only [Engine.handle, parse_congr pb pb' hp h hinfo]
  push Not at hinfo
  obtain ⟨hc, h6⟩ := hinfo
  simp only [SelfContained, hc, not_le.2 h6, false_or] at h
  obtain ⟨h4, hzero⟩ := h
  have hsize (pb : Bytes Can.packetBufferLen) : ofLE ((pb.patch 0 p).slice 0 4) = 0 := by
    have hself : (pb.patch 0 p).slice 0 p.length = p := Bytes.slice_patch_self (by omega)
    rw [← Bytes.take_slice h4, hself, hzero]
  simp only [Engine.handle, parse, dispatch, hc, hsize, bind, Except.bind, Engine.receive]
  rw [show UInt32.ofNat 0 = 0 from rfl, Engine.commandHandler_setInfo_zero]

/-! ## Commands that lack parameters -/

/-- Earlier packets have left the byte `x` everywhere. -/
def left (x : UInt8) : Bytes Can.packetBufferLen := fun _ => x

/-- A string without an end in the payload ends with what is left, or does not end. -/
theorem cString_left (hp : p.length < Can.packetBufferLen) (h : 0 ∉ p) :
    (∃ v, cString ((left 0).patch 0 p) = .ok v) ∧
      cString ((left 1).patch 0 p) = .error .unterminated := by
  have hleft (x : UInt8) : (left x).slice p.length (Can.packetBufferLen - p.length) =
      List.replicate (Can.packetBufferLen - p.length) x := by
    refine Bytes.slice_eq_iff.2 ⟨List.length_replicate, fun i hi => ?_⟩
    rw [Bytes.byteAt_of_lt (by omega), List.getD_replicate _ hi]
    rfl
  have hmem (x : UInt8) : 0 ∈ p ++ List.replicate (Can.packetBufferLen - p.length) x ↔ x = 0 := by
    rw [List.mem_append, List.mem_replicate]
    exact ⟨fun h' => (h'.resolve_left h).2.symm, fun h' => .inr ⟨by omega, h'.symm⟩⟩
  simp only [cString, slice_patch_append _ hp.le, hleft]
  exact ⟨⟨_, if_pos ((hmem 0).2 rfl)⟩, if_neg fun h' => absurd ((hmem 1).1 h') (by decide)⟩

/-- The last byte of a number that is cut off is what is left. -/
theorem ofLE_left (x : UInt8) (ofs k : ℕ) (hp : p.length ≤ ofs + k)
    (hi : ofs + k < Can.packetBufferLen) :
    ofLE (((left x).patch 0 p).slice ofs (k + 1)) / 256 ^ k = x.toNat := by
  have hlast : ((left x).patch 0 p).byteAt (ofs + k) = x := by
    rw [Bytes.byteAt_patch_of_not_mem (.inr (by omega)), Bytes.byteAt_of_lt hi]
    rfl
  have hlt := ofLE_lt (((left x).patch 0 p).slice ofs k)
  rw [Bytes.length_slice] at hlt
  rw [Bytes.slice_add, Bytes.slice_one, hlast, ofLE_concat, Bytes.length_slice,
    Nat.add_mul_div_left _ _ (by positivity), Nat.div_eq_of_lt hlt, Nat.zero_add]

/-- An engine that is ready, with an empty image of `chunks` chunks of one size. -/
def prepared (chunkSize : ℕ) (chunks : ℤ) : Engine where
  processor :=
    { controlFile :=
        { ControlFile.new ⟨[], 0, .ok, 0, true, []⟩
            { dirs := Function.update (fun _ => none) .download
                (some (VersionDir.empty.setFile .none (some [])))
              versionFile := none
              cwd := .download } with
          header := ⟨0, 0, chunkSize, chunkSize, chunks, ControlFileHeader.defaultChunkNo, 0⟩ }
      state := .ready
      scripts := [] }
  writing := none

theorem handle_command {d : Can.Dispatch} {cmd : Command} (h : parse d = .ok (.command cmd)) :
    e.handle o (.dispatch d) = match e.commandHandler o cmd with
      | none => .error .killed
      | some (e, ack) => .ok (e, [ack]) := by
  simp only [Engine.handle, h, bind, Except.bind, Engine.receive]
  cases e.commandHandler o cmd <;> rfl

/-- A layout has the chunk size given. -/
theorem chunkSize_setInfo {q : CANProcessor} {size chunkSize : ℕ} (hready : q.state = .ready)
    (hsize : size ≠ 0) (hchunk : chunkSize ≠ 0) :
    ∃ r, q.setInfo size chunkSize = some r ∧ r.1.controlFile.header.chunkSize = chunkSize := by
  have hlay : q.controlFile.initControlFile size chunkSize =
      some ((q.controlFile.layOut size chunkSize).writeControlFile .first) := by
    rw [ControlFile.initControlFile, if_neg hsize, if_neg hchunk]
    rfl
  obtain ⟨n, hn⟩ := (q.controlFile.layOut size chunkSize).header_writeControlFile .first
  rw [CANProcessor.setInfo, if_neg (not_not.2 hready), hlay, Option.map_some]
  refine ⟨_, rfl, ?_⟩
  generalize (q.controlFile.layOut size chunkSize).writeControlFile .first = r at hn
  rcases r with ⟨cf, err⟩
  cases err <;> exact congrArg ControlFileHeader.chunkSize hn

/-- `CAN_WRITE_CH` is accepted for the chunk size of the layout. -/
theorem commandHandler_writeCh (chunkSize : ℕ) (chunks : ℤ) (size : UInt16) :
    (prepared chunkSize chunks).commandHandler o (.writeCh size) =
      some (prepared chunkSize chunks, if chunkSize = size.toNat then .ackOk else .nackCom) := by
  have hcheck (n : ℕ) :
      (prepared chunkSize chunks).processor.checkChunkSize n = decide (chunkSize = n) := by
    simp [CANProcessor.checkChunkSize, prepared]
  simp only [Engine.commandHandler, hcheck, decide_eq_true_eq]
  split_ifs <;> rfl

/-- With chunks of no bytes, `CAN_CHECK_SIGN` is accepted for the chunks of the layout. -/
theorem commandHandler_checkSign (chunks chunk : ℤ) (hchunk : 0 ≤ chunk) :
    ((prepared 0 chunks).commandHandler o (.checkSign chunk)).map Prod.snd =
      some (if chunk ≥ toInt chunks then .nackSig else .ackData o.stale (sha256 [])) := by
  have hne : chunk ≠ ControlFileHeader.defaultChunkNo := fun h => by
    rw [h] at hchunk
    exact absurd hchunk (by decide)
  have himage : (prepared 0 chunks).processor.controlFile.image = some [] := rfl
  have hheader : (prepared 0 chunks).processor.controlFile.header =
    ⟨0, 0, 0, 0, chunks, ControlFileHeader.defaultChunkNo, 0⟩ := rfl
  have hzero : toInt 0 = 0 := rfl
  have hblocks : ControlFile.readBlocks [] 0 = some [] := by rw [ControlFile.readBlocks, if_pos rfl]
  simp only [Engine.commandHandler, CANProcessor.checkChunkSHA2, ControlFile.checkChunkSHA2, himage,
    hheader, if_neg hne, Nat.cast_zero, zero_mul, hzero, lt_irrefl, if_false]
  split_ifs
  · rfl
  · rw [List.drop_nil, hblocks]
    rfl

theorem depends_setVersion (hp : p.length < Can.packetBufferLen)
    (hc : c.toNat = 1 ∨ c.toNat = 8) (h : 0 ∉ p) (e : Engine) :
    e.handle o (.dispatch (dispatch c p b (left 0))) ≠
      e.handle o (.dispatch (dispatch c p b (left 1))) := by
  obtain ⟨⟨v, hv⟩, hstop⟩ := cString_left hp h
  intro heq
  have hstopped : e.handle o (.dispatch (dispatch c p b (left 1))) = .error .unterminated := by
    rcases hc with hc | hc <;>
      simp only [Engine.handle, parse, dispatch, hc, hstop, Except.map, bind, Except.bind]
  obtain ⟨cmd, hcmd, e', ack, hans⟩ : ∃ cmd, parse (dispatch c p b (left 0)) = .ok (.command cmd) ∧
      ∃ e' ack, e.commandHandler o cmd = some (e', ack) := by
    rcases hc with hc | hc
    · refine ⟨.setVersion v, by simp only [parse, dispatch, hc, hv, Except.map], ?_⟩
      simp only [Engine.commandHandler]
      split <;> exact ⟨_, _, rfl⟩
    · refine ⟨.userRemove v, by simp only [parse, dispatch, hc, hv, Except.map], ?_⟩
      simp only [Engine.commandHandler]
      split <;> exact ⟨_, _, rfl⟩
  rw [hstopped, handle_command hcmd, hans] at heq
  cases heq

/-- The file size is not zero, and the upper byte of the chunk size is what is left. -/
theorem depends_setInfo (hc : c.toNat = 2) (h6 : p.length < 6)
    (h4 : 4 ≤ p.length → ofLE (p.take 4) ≠ 0) :
    (prepared 0 0).handle o (.dispatch (dispatch c p b (left 1))) ≠
      (prepared 0 0).handle o (.dispatch (dispatch c p b (left 2))) := by
  have hchunk (x : UInt8) :=
    ofLE_left x 4 1 (p := p) (by omega) (by decide)
  have hlt (x : UInt8) := ofLE_lt (((left x).patch 0 p).slice 4 2)
  have hsize (x : UInt8) (hx : x.toNat ≠ 0) : ofLE (((left x).patch 0 p).slice 0 4) ≠ 0 := by
    by_cases hlen : 4 ≤ p.length
    · have hself : ((left x).patch 0 p).slice 0 p.length = p := Bytes.slice_patch_self (by
        rw [Can.packetBufferLen_eq]
        omega)
      rw [← Bytes.take_slice hlen, hself]
      exact h4 hlen
    · intro h0
      have := ofLE_left x 0 3 (p := p) (by omega) (by decide)
      rw [h0] at this
      exact hx this.symm
  have hparse (x : UInt8) : parse (dispatch c p b (left x)) = .ok (.command (.setInfo
      (UInt32.ofNat (ofLE (((left x).patch 0 p).slice 0 4)))
      (UInt16.ofNat (ofLE (((left x).patch 0 p).slice 4 2))))) := by
    simp only [parse, dispatch, hc]
  -- the chunk size that is laid out shows the byte that an earlier packet has left
  have hanswer (x : UInt8) (hx : x.toNat ≠ 0) : ∃ e ack,
      (prepared 0 0).handle o (.dispatch (dispatch c p b (left x))) = .ok (e, [ack]) ∧
        e.controlFile.header.chunkSize / 256 = x.toNat := by
    have hlt₁ := ofLE_lt (((left x).patch 0 p).slice 0 4)
    have hlt₂ := ofLE_lt (((left x).patch 0 p).slice 4 2)
    rw [Bytes.length_slice] at hlt₁ hlt₂
    have hne : ofLE (((left x).patch 0 p).slice 4 2) ≠ 0 := fun h0 => by
      have := hchunk x
      rw [h0] at this
      exact hx this.symm
    obtain ⟨⟨q, st⟩, hset, hq⟩ := chunkSize_setInfo (q := (prepared 0 0).processor) rfl
      (hsize x hx) hne
    rw [handle_command (hparse x)]
    simp only [Engine.commandHandler]
    rw [UInt32.toNat_ofNat_of_lt' hlt₁, UInt16.toNat_ofNat_of_lt' hlt₂, hset]
    cases st <;> exact ⟨_, _, rfl, (congrArg (· / 256) hq).trans (hchunk x)⟩
  intro heq
  obtain ⟨e₁, ack₁, h₁, hq₁⟩ := hanswer 1 (by decide)
  obtain ⟨e₂, ack₂, h₂, hq₂⟩ := hanswer 2 (by decide)
  rw [h₁, h₂] at heq
  cases heq
  exact absurd (hq₁.symm.trans hq₂) (by decide)

theorem depends_writeCh (hc : c.toNat = 4) (h2 : p.length < 2) :
    ∃ e : Engine, e.handle o (.dispatch (dispatch c p b (left 1))) ≠
      e.handle o (.dispatch (dispatch c p b (left 2))) := by
  have hsize (x : UInt8) := ofLE_left x 0 1 (p := p) (by omega) (by decide)
  have hlt (x : UInt8) := ofLE_lt (((left x).patch 0 p).slice 0 2)
  have hparse (x : UInt8) : parse (dispatch c p b (left x)) =
      .ok (.command (.writeCh (UInt16.ofNat (ofLE (((left x).patch 0 p).slice 0 2))))) := by
    simp only [parse, dispatch, hc]
  refine ⟨prepared (ofLE (((left 1).patch 0 p).slice 0 2)) 0, fun heq => ?_⟩
  have hnat (x : UInt8) : (UInt16.ofNat (ofLE (((left x).patch 0 p).slice 0 2))).toNat =
      ofLE (((left x).patch 0 p).slice 0 2) :=
    UInt16.toNat_ofNat_of_lt' (by simpa using hlt x)
  have h₁ := hsize 1
  have h₂ := hsize 2
  rw [handle_command (hparse 1), handle_command (hparse 2), commandHandler_writeCh,
    commandHandler_writeCh, hnat, hnat, if_pos rfl, if_neg fun h => by
      rw [h, h₂] at h₁
      cases h₁] at heq
  cases heq

theorem depends_checkSign (hc : c.toNat = 6) (h4 : p.length < 4) :
    ∃ e : Engine, e.handle o (.dispatch (dispatch c p b (left 1))) ≠
      e.handle o (.dispatch (dispatch c p b (left 2))) := by
  have hchunk (x : UInt8) := ofLE_left x 0 3 (p := p) (by omega) (by decide)
  have hparse (x : UInt8) : parse (dispatch c p b (left x)) =
      .ok (.command (.checkSign (toInt (ofLE (((left x).patch 0 p).slice 0 4))))) := by
    simp only [parse, dispatch, hc]
  have h₁ : ofLE (((left 1).patch 0 p).slice 0 4) / 256 ^ 3 = 1 := hchunk 1
  have h₂ : ofLE (((left 2).patch 0 p).slice 0 4) / 256 ^ 3 = 2 := hchunk 2
  have hp₁ := hparse 1
  have hp₂ := hparse 2
  generalize ofLE (((left 1).patch 0 p).slice 0 4) = n₁ at h₁ hp₁
  generalize ofLE (((left 2).patch 0 p).slice 0 4) = n₂ at h₂ hp₂
  rw [toInt_of_lt (by omega) (by omega)] at hp₁ hp₂
  -- only the first chunk is one of the layout
  have ha₁ := commandHandler_checkSign (o := o) (n₁ + 1) n₁ (by omega)
  have ha₂ := commandHandler_checkSign (o := o) (n₁ + 1) n₂ (by omega)
  rw [toInt_of_lt (by omega) (by omega), if_neg (by omega)] at ha₁
  rw [toInt_of_lt (by omega) (by omega), if_pos (by omega)] at ha₂
  obtain ⟨⟨e₁, ack₁⟩, hc₁, rfl⟩ := Option.map_eq_some_iff.1 ha₁
  obtain ⟨⟨e₂, ack₂⟩, hc₂, rfl⟩ := Option.map_eq_some_iff.1 ha₂
  refine ⟨prepared 0 (n₁ + 1), fun heq => ?_⟩
  rw [handle_command hp₁, handle_command hp₂, hc₁, hc₂] at heq
  cases heq

/-- For every packet, what it does is independent of what earlier packets have left in the buffers
    exactly if its payload has all the parameters that its command reads. -/
theorem independent_iff (hb : Can.IsPacket c p b) : Independent b ↔ SelfContained c p := by
  have hp : p.length < Can.packetBufferLen := by
    have hlen := Can.length_unframe_le (b.drop 8)
    have h8 := hb.le_length
    have hmax := hb.length_le
    rw [hb.payload, List.length_drop] at hlen
    omega
  rw [independent_iff_handle hb]
  refine ⟨fun h => ?_, fun h o e pb pb' => handle_congr hp.le h⟩
  let o : Outcome := ⟨fun _ => false, true, 0⟩
  unfold SelfContained
  split
  case h_1 hc =>
    by_contra h0
    exact depends_setVersion hp (.inl hc) h0 (prepared 0 0) (h o _ _ _)
  case h_2 hc =>
    by_contra hshort
    push Not at hshort
    exact depends_setInfo hc hshort.1 hshort.2 (h o _ _ _)
  case h_3 hc =>
    by_contra hshort
    obtain ⟨e, he⟩ := depends_writeCh (b := b) (o := o) hc (not_le.1 hshort)
    exact he (h o e _ _)
  case h_4 hc =>
    by_contra hshort
    obtain ⟨e, he⟩ := depends_checkSign (b := b) (o := o) hc (not_le.1 hshort)
    exact he (h o e _ _)
  case h_5 hc =>
    by_contra h0
    exact depends_setVersion hp (.inr hc) h0 (prepared 0 0) (h o _ _ _)
  case h_6 => trivial

/-- A version with its end. -/
theorem independent_setVersion :
    Independent (Can.formCANPacket 1 [49, 0]) ↔ SelfContained 1 [49, 0] :=
  independent_iff (Can.isPacket_formCANPacket 1 (by decide))

/-- The version of the engine after the packet `CAN_SET_VERSION` with the payload "1". -/
def versionAfter (pb : Bytes Can.packetBufferLen) : Option String :=
  (((prepared 0 0).handle ⟨fun _ => false, true, 0⟩
    (.dispatch (dispatch 1 [49] (Can.formCANPacket 1 [49]) pb))).toOption).map
      fun r => r.1.controlFile.version

/-- The version "1" comes without an end, and an earlier packet has left "2" behind it. -/
theorem independent_fails_of_cut : ¬Independent (Can.formCANPacket 1 [49]) := by
  intro h
  have hb := Can.isPacket_formCANPacket 1 (show [49].length ≤ Can.maxLogicalPacket by decide)
  have hsame := (independent_iff_handle hb).1 h ⟨fun _ => false, true, 0⟩ (prepared 0 0) (left 0)
    ((left 0).patch 1 [50])
  have h₁ : versionAfter (left 0) = some "1" := by decide +kernel
  have h₂ : versionAfter ((left 0).patch 1 [50]) = some "12" := by decide +kernel
  rw [versionAfter, hsame] at h₁
  rw [versionAfter, h₁] at h₂
  exact absurd h₂ (by decide)

end EW8.Update

import EW8.Lib.Pieces
import EW8.Can.Protocol

/-!
# Re-sequencing frames

Both receivers, `CANUpdateEngine` on the device and `CANUpdateAPI` on the host,
put the frames of a logical packet back together in the same data structures
(`SeqData`) and by the same steps: frames are stored by sequence number until as
many are stored as the header announces, then their CRC is checked. Only what
they do around these steps differs.

The frames stored since the last `ResetLogic` are the abstract state: `Holds`
relates the data structures to them. It is kept by storing a new frame
(`Holds.fillInPart`), whatever the frame; under it no access leaves its array.

What a receiver does is recorded as a list of `Event`s.
-/

namespace EW8.Can

/-- `CANIncomingFlag`. -/
inductive CANIncomingFlag
  | canOk
  | canErr
  deriving DecidableEq

/-- A logical packet as handed to a handler: the announced length, the type, the
    payload buffer and the length of the payload in it. -/
structure Dispatch where
  len : ℕ
  command : UInt8
  buffer : Bytes packetBufferLen
  payloadLen : ℕ

/-- The payload of a packet handed to a handler. -/
def Dispatch.payload (p : Dispatch) : List UInt8 := p.buffer.slice 0 p.payloadLen

/-- What a receiver does with a frame. -/
inductive Event
  /-- `ResetLogic`. -/
  | reset
  /-- A `CAN_NACK_GEN` is sent. -/
  | nack
  /-- The frame is copied to `m_seqBuffer`. -/
  | stored (f : CanFrame)
  /-- The unsigned subtraction `a - b` is made on a length or a count. -/
  | sub (a b : ℕ)
  /-- A logical packet is handed to its handler. -/
  | dispatch (p : Dispatch)

/-- The packets handed to a handler: their type and payload. -/
def dispatched : List Event → List (UInt8 × List UInt8) :=
  List.filterMap fun
    | .dispatch p => some (p.command, p.payload)
    | _ => none

/-- The frames stored since the last reset, of which `got` are stored before `ev`. -/
def storedAfter (got : List CanFrame) (ev : List Event) : List CanFrame :=
  ev.foldl (fun got e => match e with
    | .reset => []
    | .stored f => got ++ [f]
    | _ => got) got

/-- No subtraction wraps around. -/
def NoWrap (ev : List Event) : Prop := ∀ a b, Event.sub a b ∈ ev → b ≤ a

theorem dispatched_append (ev₁ ev₂ : List Event) :
    dispatched (ev₁ ++ ev₂) = dispatched ev₁ ++ dispatched ev₂ := List.filterMap_append

theorem dispatched_eq_nil {ev : List Event} (h : ∀ x ∈ ev, ∀ p, x ≠ .dispatch p) :
    dispatched ev = [] := by
  refine List.filterMap_eq_nil_iff.2 fun x hx => ?_
  cases x with
  | dispatch p => exact absurd rfl (h _ hx p)
  | _ => rfl

/-- The subtractions of the extraction hand nothing over. -/
theorem sub_ne_dispatch (subs : List (ℕ × ℕ)) :
    ∀ x ∈ subs.map fun q => Event.sub q.1 q.2, ∀ p, x ≠ .dispatch p := by
  rintro _ hx p rfl
  obtain ⟨q, -, hq⟩ := List.mem_map.1 hx
  cases hq

/-- Frames arriving one after the other, each at its time, at a receiver with
    states `σ`. -/
def feed {σ : Type*} (receive : σ → ℤ → CanFrame → Except Fault (σ × List Event)) :
    σ → List (ℤ × CanFrame) → Except Fault (σ × List Event)
  | s, [] => .ok (s, [])
  | s, a :: l => do
    let r ← receive s a.1 a.2
    let t ← feed receive r.1 l
    return (t.1, r.2 ++ t.2)

theorem feed_cons {σ : Type*} {receive : σ → ℤ → CanFrame → Except Fault (σ × List Event)}
    {s t : σ} {a : ℤ × CanFrame} {ev : List Event} (h : receive s a.1 a.2 = .ok (t, ev))
    (l : List (ℤ × CanFrame)) :
    feed receive s (a :: l) = (feed receive t l).map fun r => (r.1, ev ++ r.2) := by
  rw [feed, h]
  simp only [bind, Except.bind]
  cases feed receive t l <;> rfl

theorem feed_cons_error {σ : Type*} {receive : σ → ℤ → CanFrame → Except Fault (σ × List Event)}
    {s : σ} {a : ℤ × CanFrame} {x : Fault} (h : receive s a.1 a.2 = .error x)
    (l : List (ℤ × CanFrame)) : feed receive s (a :: l) = .error x := by
  rw [feed, h]
  rfl

/-- A frame with the number `num` and no more. -/
def payloadFrame (num : UInt8) : CanFrame where
  canId := updateCANPacketID
  canDlc := 8
  data i := if i.val = 0 then num else 0
  canDlc_le := canPayloadMaxLen_le

/-- The "re-seq packets data structures". -/
structure SeqData where
  seqStored : ℕ
  seqBuffer : Bytes packetBufferLen
  fillSeqBuffer : Bytes canMaxSequence
  seqMax : ℕ
  seqLen : ℕ
  seqCrc32 : UInt32
  seqComm : UInt8
  payloadBuffer : Bytes packetBufferLen
  timeoutTimer : ℤ

namespace SeqData

variable (d : SeqData)

/-- `ResetLogic`. -/
def resetLogic (now : ℤ) : SeqData :=
  { d with
    fillSeqBuffer := fun _ => 0
    seqStored := 0
    seqMax := canMaxSequence
    seqLen := 0
    timeoutTimer := now }

/-- The header is taken from the frame `0`. `full` is what becomes of `m_seqStored`
    when as many frames are stored as the packet has. -/
def takeHeader (full : ℕ → ℕ × List Event) (f : CanFrame) : SeqData × List Event :=
  let seqMax := numFrames f.headerLen
  let stored := if seqMax ≤ d.seqStored then full seqMax else (d.seqStored, [])
  ({ d with
      seqLen := f.headerLen
      seqMax := seqMax
      seqCrc32 := f.headerCrc32
      seqComm := f.headerType
      seqStored := stored.1 }, stored.2)

/-- "Fill in the part": a frame whose number is free is stored. -/
def fillInPart (full : ℕ → ℕ × List Event) (f : CanFrame) : Except Fault (SeqData × List Event) :=
  let r := if f.seqNo = 0 then d.takeHeader full f else (d, [])
  do
    let seqBuffer ← r.1.seqBuffer.write .seqBuffer (f.seqNo * 8) (f.data.slice 0 f.canDlc)
    let fillSeqBuffer ← r.1.fillSeqBuffer.write .fillSeqBuffer f.seqNo [1]
    return ({ r.1 with
      seqBuffer := seqBuffer
      fillSeqBuffer := fillSeqBuffer
      seqStored := (r.1.seqStored + 1) % 2 ^ 32 }, r.2 ++ [.stored f])

/-- "Got all packets": whether all parts are there and the CRC is that of the
    header. The CRC field is zeroed in the buffer. -/
def checkPacket : Except Fault (SeqData × Bool) := do
  let flags ← d.fillSeqBuffer.read .fillSeqBuffer 0 d.seqMax
  if d.seqMax = (flags.map UInt8.toNat).sum then do
    let seqBuffer ← d.seqBuffer.write .seqBuffer 4 [0, 0, 0, 0]
    let bytes ← seqBuffer.read .seqBuffer 0 d.seqLen
    return ({ d with seqBuffer := seqBuffer }, crc32 bytes == d.seqCrc32)
  else
    return (d, false)

/-- The frames `got` are those stored in `d`. -/
structure Holds (got : List CanFrame) : Prop where
  nodup : (got.map CanFrame.seqNo).Nodup
  fill : ∀ u < canMaxSequence,
    d.fillSeqBuffer.byteAt u = if u ∈ got.map CanFrame.seqNo then 1 else 0
  data : ∀ f ∈ got, ∀ j < f.canDlc, d.seqBuffer.byteAt (8 * f.seqNo + j) = f.data.byteAt j
  noHeader : (∀ f ∈ got, f.seqNo ≠ 0) → d.seqMax = canMaxSequence
  header : ∀ f ∈ got, f.seqNo = 0 →
    d.seqLen = f.headerLen ∧ d.seqMax = numFrames f.headerLen ∧ d.seqCrc32 = f.headerCrc32
  stored_le : d.seqStored ≤ got.length

variable {d} {got : List CanFrame} {f : CanFrame} {full : ℕ → ℕ × List Event}

/-- After a reset, nothing is stored. -/
theorem holds_resetLogic (now : ℤ) : (d.resetLogic now).Holds [] where
  nodup := List.nodup_nil
  fill u hu := by rw [Bytes.byteAt_of_lt hu]; rfl
  data f hf := absurd hf List.not_mem_nil
  noHeader _ := rfl
  header f hf := absurd hf List.not_mem_nil
  stored_le := le_rfl

namespace Holds

theorem length_le (h : d.Holds got) : got.length ≤ canMaxSequence :=
  Pieces.length_le h.nodup fun f _ => f.seqNo_lt

/-- A number is free exactly when no frame with it is stored. -/
theorem free_iff (h : d.Holds got) (f : CanFrame) :
    d.fillSeqBuffer.byteAt f.seqNo = 0 ↔ f.seqNo ∉ got.map CanFrame.seqNo := by
  rw [h.fill _ f.seqNo_lt]
  split_ifs with hf
  · exact ⟨fun h => absurd h (by decide), fun h => absurd hf h⟩
  · exact ⟨fun _ => hf, fun _ => rfl⟩

/-- Nothing but the data structures compared matters. -/
theorem congr_timer (h : d.Holds got) (now : ℤ) : { d with timeoutTimer := now }.Holds got :=
  ⟨h.nodup, h.fill, h.data, h.noHeader, h.header, h.stored_le⟩

end Holds

/-! ## Storing a frame -/

/-- The data structures after a frame is stored. -/
def store (full : ℕ → ℕ × List Event) (d : SeqData) (f : CanFrame) : SeqData :=
  let d' := if f.seqNo = 0 then (d.takeHeader full f).1 else d
  { d' with
    seqBuffer := d.seqBuffer.patch (f.seqNo * 8) (f.data.slice 0 f.canDlc)
    fillSeqBuffer := d.fillSeqBuffer.patch f.seqNo [1]
    seqStored := (d'.seqStored + 1) % 2 ^ 32 }

/-- The subtractions made while a frame is stored. -/
def storeEvents (full : ℕ → ℕ × List Event) (d : SeqData) (f : CanFrame) : List Event :=
  if f.seqNo = 0 then (d.takeHeader full f).2 else []

/-- Storing a frame never leaves the buffers. -/
theorem fillInPart_eq (full : ℕ → ℕ × List Event) (d : SeqData) (f : CanFrame) :
    d.fillInPart full f = .ok (d.store full f, d.storeEvents full f ++ [.stored f]) := by
  have hseq := f.seqNo_lt
  have hdlc := f.canDlc_le
  have hbuf := packetBufferLen_eq
  have hwrite (m : Bytes packetBufferLen) :
      m.write RxArray.seqBuffer (f.seqNo * 8) (f.data.slice 0 f.canDlc) = _ :=
    Bytes.write_eq (by rw [Bytes.length_slice]; omega)
  have hflag (m : Bytes canMaxSequence) : m.write RxArray.fillSeqBuffer f.seqNo [1] = _ :=
    Bytes.write_eq (by rw [List.length_singleton]; exact hseq)
  unfold fillInPart store storeEvents
  split_ifs <;> simp only [hwrite, hflag, bind, Except.bind, pure, Except.pure, takeHeader]

/-- Storing a frame with a free number adds it to those stored, if counting it
    among as many frames as the packet has counts no more than there are. -/
theorem Holds.store (h : d.Holds got) (hf : f.seqNo ∉ got.map CanFrame.seqNo)
    (hfull : f.seqNo = 0 → numFrames f.headerLen ≤ d.seqStored →
      ((full (numFrames f.headerLen)).1 + 1) % 2 ^ 32 ≤ d.seqStored + 1) :
    (d.store full f).Holds (got ++ [f]) where
  nodup := by
    rw [List.map_append, List.nodup_append]
    refine ⟨h.nodup, List.nodup_singleton _, fun a ha b hb => ?_⟩
    rintro rfl
    exact hf (List.mem_singleton.1 hb ▸ ha)
  fill u hu := by
    have hpatch : (d.store full f).fillSeqBuffer = d.fillSeqBuffer.patch f.seqNo [1] := rfl
    rw [hpatch, Bytes.byteAt_patch hu, h.fill u hu, List.map_append, List.length_singleton]
    by_cases hu' : u = f.seqNo
    · subst hu'
      simp
    · rw [if_neg (by omega)]
      simp [hu']
  data g hg j hj := by
    have hpatch : (d.store full f).seqBuffer =
        d.seqBuffer.patch (f.seqNo * 8) (f.data.slice 0 f.canDlc) := rfl
    have hlt := f.seqNo_lt
    have hbuf := packetBufferLen_eq
    have hdlc := f.canDlc_le
    rcases List.mem_append.1 hg with hg | hg
    · -- the frames already stored lie elsewhere
      have hne : g.seqNo ≠ f.seqNo := fun h => hf (h ▸ List.mem_map_of_mem hg)
      have hg8 := g.canDlc_le
      rw [hpatch, Bytes.byteAt_patch_of_not_mem (by rw [Bytes.length_slice]; omega)]
      exact h.data g hg j hj
    · obtain rfl := List.mem_singleton.1 hg
      rw [hpatch, Nat.mul_comm, Bytes.byteAt_patch_of_mem (by omega)
        (by rwa [Bytes.length_slice]), Bytes.getD_slice hj, Nat.zero_add]
  noHeader hno := by
    have h0 : f.seqNo ≠ 0 := hno f (by simp)
    simp only [SeqData.store, if_neg h0]
    exact h.noHeader fun g hg => hno g (List.mem_append_left _ hg)
  header g hg h0 := by
    rcases List.mem_append.1 hg with hg | hg
    · have hf0 : f.seqNo ≠ 0 := fun h => hf (h ▸ h0 ▸ List.mem_map_of_mem hg)
      simp only [SeqData.store, if_neg hf0]
      exact h.header g hg h0
    · obtain rfl := List.mem_singleton.1 hg
      simp only [SeqData.store, if_pos h0]
      exact ⟨rfl, rfl, rfl⟩
  stored_le := by
    have hle := h.stored_le
    rw [List.length_append, List.length_singleton]
    simp only [SeqData.store]
    by_cases h0 : f.seqNo = 0
    · simp only [if_pos h0, takeHeader]
      split_ifs with hm
      · exact (hfull h0 hm).trans (by omega)
      · omega
    · simp only [if_neg h0]
      omega

/-- A frame stored before the packet is complete is counted. -/
theorem seqStored_store (hlt : d.seqStored < 256)
    (hmax : f.seqNo = 0 → d.seqStored < numFrames f.headerLen) :
    (d.store full f).seqStored = d.seqStored + 1 := by
  simp only [SeqData.store]
  by_cases h0 : f.seqNo = 0
  · simp only [if_pos h0, takeHeader, if_neg (not_le.2 (hmax h0))]
    omega
  · simp only [if_neg h0]
    omega

/-! ## Checking a packet -/

/-- The data structures once the CRC has been checked. -/
def checked (d : SeqData) : SeqData :=
  { d with seqBuffer := d.seqBuffer.patch 4 [0, 0, 0, 0] }

/-- What is then extracted are the type and the payload of the announced bytes: the
    CRC field is not among them. -/
theorem extract_checked (d : SeqData) {len : ℕ} (h8 : 8 ≤ len) (hlen : len ≤ packetBufferLen) :
    ∃ pb subs, extractCANData d.payloadBuffer len d.checked.seqBuffer =
        .ok ⟨(d.seqBuffer.slice 0 len).getD 3 0, pb,
          (unframe ((d.seqBuffer.slice 0 len).drop 8)).length, subs⟩ ∧
      pb.slice 0 (unframe ((d.seqBuffer.slice 0 len).drop 8)).length =
        unframe ((d.seqBuffer.slice 0 len).drop 8) ∧
      ∀ q ∈ subs, q.2 ≤ q.1 := by
  obtain ⟨subs, hext, hsubs⟩ := extractCANData_eq d.checked.seqBuffer d.payloadBuffer h8 hlen
  have hdrop : d.checked.seqBuffer.slice 8 (len - 8) = (d.seqBuffer.slice 0 len).drop 8 := by
    rw [Bytes.drop_slice h8, Nat.zero_add]
    exact Bytes.slice_congr fun j _ => Bytes.byteAt_patch_of_not_mem (.inr (by simp))
  have hcommand : d.checked.seqBuffer 3 = (d.seqBuffer.slice 0 len).getD 3 0 := by
    rw [Bytes.getD_slice (by omega), Nat.zero_add]
    rfl
  rw [hdrop, hcommand] at hext
  refine ⟨_, subs, hext, Bytes.slice_patch_self ?_, hsubs⟩
  have hle := length_unframe_le ((d.seqBuffer.slice 0 len).drop 8)
  rw [List.length_drop, Bytes.length_slice] at hle
  omega

namespace Holds

/-- Once as many frames are stored as there should be, the header is among them. -/
theorem exists_header (h : d.Holds got) (hst : d.seqStored = d.seqMax) :
    ∃ f ∈ got, f.seqNo = 0 ∧ d.seqLen = f.headerLen ∧ d.seqMax = numFrames f.headerLen ∧
      d.seqCrc32 = f.headerCrc32 := by
  by_cases hno : ∀ f ∈ got, f.seqNo ≠ 0
  · -- without a header 256 frames are awaited, of which only the header is missing
    have hlen : got.length = canMaxSequence :=
      le_antisymm h.length_le (h.noHeader hno ▸ hst ▸ h.stored_le)
    obtain ⟨f, hf, h0⟩ :=
      (Pieces.covers_iff_length h.nodup fun f _ => f.seqNo_lt).2 hlen 0 (by decide)
    exact absurd h0 (hno f hf)
  · push Not at hno
    obtain ⟨f, hf, h0⟩ := hno
    exact ⟨f, hf, h0, h.header f hf h0⟩

/-- Then no length leaves the buffers. -/
theorem seqMax_le (h : d.Holds got) (hst : d.seqStored = d.seqMax) : d.seqMax ≤ canMaxSequence :=
  hst ▸ h.stored_le.trans h.length_le

theorem seqLen_le (h : d.Holds got) (hst : d.seqStored = d.seqMax) :
    d.seqLen ≤ packetBufferLen := by
  obtain ⟨f, -, -, hlen, hmax, -⟩ := h.exists_header hst
  have hle : d.seqMax ≤ 256 := h.seqMax_le hst
  rw [hmax, numFrames] at hle
  rw [hlen, packetBufferLen_eq]
  omega

/-- The flags of the first `n` numbers are all set exactly when all are stored. -/
theorem sum_flags_eq_iff (h : d.Holds got) {n : ℕ} (hn : n ≤ canMaxSequence) :
    n = ((d.fillSeqBuffer.slice 0 n).map UInt8.toNat).sum ↔
      Pieces.Covers CanFrame.seqNo got n := by
  have hsum : ∀ n ≤ canMaxSequence, ((d.fillSeqBuffer.slice 0 n).map UInt8.toNat).sum ≤ n ∧
      (n = ((d.fillSeqBuffer.slice 0 n).map UInt8.toNat).sum ↔
        Pieces.Covers CanFrame.seqNo got n) := by
    intro n hn
    induction n with
    | zero => simp [Pieces.Covers]
    | succ n ih =>
      obtain ⟨hle, hiff⟩ := ih (by omega)
      have hcov : Pieces.Covers CanFrame.seqNo got (n + 1) ↔
          Pieces.Covers CanFrame.seqNo got n ∧ n ∈ got.map CanFrame.seqNo := by
        simp only [Pieces.Covers, Nat.lt_succ_iff_lt_or_eq, or_imp, forall_and, forall_eq,
          List.mem_map]
      rw [hcov, ← hiff, Bytes.slice_add, Bytes.slice_one, List.map_append, List.sum_append,
        Nat.zero_add, h.fill n hn]
      split_ifs with hmem
      · simp only [List.map_cons, List.map_nil, List.sum_singleton, hmem, and_true]
        change _ + 1 ≤ n + 1 ∧ (n + 1 = _ + 1 ↔ _)
        omega
      · simp only [List.map_cons, List.map_nil, List.sum_singleton, hmem, and_false, iff_false]
        change _ + 0 ≤ n + 1 ∧ ¬ n + 1 = _ + 0
        omega
  exact (hsum n hn).2

/-- With a part missing, the check fails. -/
theorem checkPacket_of_not_covers (h : d.Holds got) (hst : d.seqStored = d.seqMax)
    (hcov : ¬Pieces.Covers CanFrame.seqNo got d.seqMax) : d.checkPacket = .ok (d, false) := by
  have hmax := h.seqMax_le hst
  have hread : d.fillSeqBuffer.read RxArray.fillSeqBuffer 0 d.seqMax = _ :=
    Bytes.read_eq (by omega)
  rw [← h.sum_flags_eq_iff hmax] at hcov
  simp only [checkPacket, hread, bind, Except.bind, if_neg hcov, pure, Except.pure]

/-- With all parts there, the check compares the CRC of the announced bytes with
    that of the header. -/
theorem checkPacket_of_covers (h : d.Holds got) (hst : d.seqStored = d.seqMax)
    (hcov : Pieces.Covers CanFrame.seqNo got d.seqMax) :
    d.checkPacket = .ok (d.checked,
      crc32 (zeroCrc (d.seqBuffer.slice 0 d.seqLen)) == d.seqCrc32) := by
  have hmax := h.seqMax_le hst
  have hlen := h.seqLen_le hst
  have hread : d.fillSeqBuffer.read RxArray.fillSeqBuffer 0 d.seqMax = _ :=
    Bytes.read_eq (by omega)
  have hwrite : d.seqBuffer.write RxArray.seqBuffer 4 [0, 0, 0, 0] = _ :=
    Bytes.write_eq (by decide)
  have hbytes (m : Bytes packetBufferLen) : m.read RxArray.seqBuffer 0 d.seqLen = _ :=
    Bytes.read_eq (by omega)
  rw [← h.sum_flags_eq_iff hmax] at hcov
  simp only [checkPacket, checked, hread, hwrite, hbytes, bind, Except.bind, if_pos hcov, pure,
    Except.pure, slice_patch_zero _ hlen]

end Holds

/-! ## Collecting the frames of a packet -/

/-- Only frames of the packet `b` are stored, and all of them are counted. -/
structure Collects (b : List UInt8) (d : SeqData) (got : List CanFrame) : Prop
    extends d.Holds got where
  carried : ∀ g ∈ got, ∃ i < numFrames b.length, Carries b i g
  stored_eq : d.seqStored = got.length

end SeqData

section Packet

variable {c : UInt8} {p b : List UInt8} {i : ℕ} {f : CanFrame}

/-- A frame of a packet has the number of the bytes it carries. -/
theorem Carries.seqNo (hb : IsPacket c p b) (hi : i < numFrames b.length) (hf : Carries b i f) :
    f.seqNo = i := by
  have hlt : 8 * i < b.length := by rw [numFrames] at hi; omega
  have h := hf.data 0 (by decide) hlt
  rw [Bytes.byteAt_of_lt (by decide)] at h
  rw [CanFrame.seqNo, ← hb.seqNo i hi, ← Nat.add_zero (8 * i), ← h]
  rfl

/-- The header frame carries the header. -/
theorem Carries.slice (hb : IsPacket c p b) (hf : Carries b 0 f) {ofs len : ℕ}
    (hlen : ofs + len ≤ 8) : f.data.slice ofs len = (b.drop ofs).take len := by
  have h8 := hb.le_length
  refine Bytes.slice_eq_iff.2 ⟨?_, fun j hj => ?_⟩
  · rw [List.length_take, List.length_drop]
    omega
  · rw [hf.data (ofs + j) (by omega) (by omega), List.getD_eq_getElem?_getD,
      List.getElem?_take_of_lt hj, List.getElem?_drop, ← List.getD_eq_getElem?_getD, Nat.mul_zero,
      Nat.zero_add]

theorem Carries.headerLen (hb : IsPacket c p b) (hf : Carries b 0 f) :
    f.headerLen = b.length := by
  rw [CanFrame.headerLen, hf.slice hb (by decide), hb.len]

theorem Carries.headerCrc32 (hb : IsPacket c p b) (hf : Carries b 0 f) :
    f.headerCrc32 = crc32 (zeroCrc b) := by
  rw [CanFrame.headerCrc32, hf.slice hb (by decide), hb.crc]

theorem IsPacket.numFrames_le (hb : IsPacket c p b) : numFrames b.length ≤ 256 := by
  have := hb.length_le
  rw [packetBufferLen_eq] at this
  rw [numFrames]
  omega

theorem IsPacket.numFrames_pos (hb : IsPacket c p b) : 0 < numFrames b.length := by
  have := hb.le_length
  rw [numFrames]
  omega

end Packet

namespace SeqData

variable {d : SeqData} {got : List CanFrame} {f : CanFrame} {full : ℕ → ℕ × List Event}
  {c : UInt8} {p b : List UInt8} {i : ℕ}

theorem collects_resetLogic (now : ℤ) : Collects b (d.resetLogic now) [] :=
  ⟨holds_resetLogic now, fun _ hg => absurd hg List.not_mem_nil, rfl⟩

namespace Collects

theorem seqNo_lt (h : Collects b d got) (hb : IsPacket c p b) :
    ∀ g ∈ got, g.seqNo < numFrames b.length := fun g hg => by
  obtain ⟨i, hi, hc⟩ := h.carried g hg
  exact hc.seqNo hb hi ▸ hi

theorem covers_iff (h : Collects b d got) (hb : IsPacket c p b) :
    Pieces.Covers CanFrame.seqNo got (numFrames b.length) ↔ got.length = numFrames b.length :=
  Pieces.covers_iff_length h.nodup (h.seqNo_lt hb)

/-- The header frame stored is that of the packet. -/
theorem header_eq (h : Collects b d got) (hb : IsPacket c p b) {g : CanFrame} (hg : g ∈ got)
    (h0 : g.seqNo = 0) :
    d.seqLen = b.length ∧ d.seqMax = numFrames b.length ∧ d.seqCrc32 = crc32 (zeroCrc b) := by
  obtain ⟨i, hi, hc⟩ := h.carried g hg
  obtain rfl : i = 0 := by rw [← hc.seqNo hb hi, h0]
  have := h.header g hg h0
  rwa [hc.headerLen hb, hc.headerCrc32 hb] at this

/-- The receiver awaits every frame of the packet. -/
theorem lt_seqMax (h : Collects b d got) (hb : IsPacket c p b) (hi : i < numFrames b.length) :
    i < d.seqMax := by
  by_cases h0 : ∃ g ∈ got, g.seqNo = 0
  · obtain ⟨g, hg, h0⟩ := h0
    rw [(h.header_eq hb hg h0).2.1]
    exact hi
  · push Not at h0
    rw [h.noHeader h0]
    exact hi.trans_le hb.numFrames_le

/-- All frames are counted exactly when all frames of the packet are there. -/
theorem complete_iff (h : Collects b d got) (hb : IsPacket c p b) :
    d.seqStored = d.seqMax ↔ Pieces.Covers CanFrame.seqNo got (numFrames b.length) := by
  have hle := Pieces.length_le h.nodup (h.seqNo_lt hb)
  rw [h.stored_eq]
  by_cases h0 : ∃ g ∈ got, g.seqNo = 0
  · obtain ⟨g, hg, h0⟩ := h0
    rw [(h.header_eq hb hg h0).2.1, h.covers_iff hb]
  · push Not at h0
    have hno : ¬Pieces.Covers CanFrame.seqNo got (numFrames b.length) := fun hcov => by
      obtain ⟨g, hg, hg0⟩ := hcov 0 hb.numFrames_pos
      exact h0 g hg hg0
    refine iff_of_false (fun heq => hno ((h.covers_iff hb).2 ?_)) hno
    rw [h.noHeader h0] at heq
    exact le_antisymm hle (heq ▸ hb.numFrames_le)

/-- A further frame of the packet is stored, and counted. -/
theorem store (full : ℕ → ℕ × List Event) (h : Collects b d got) (hb : IsPacket c p b)
    (hi : i < numFrames b.length) (hf : Carries b i f) (hnew : f.seqNo ∉ got.map CanFrame.seqNo) :
    Collects b (d.store full f) (got ++ [f]) := by
  have hlt : got.length < numFrames b.length := by
    refine lt_of_le_of_ne (Pieces.length_le h.nodup (h.seqNo_lt hb)) fun heq => hnew ?_
    obtain ⟨g, hg, hgi⟩ := (h.covers_iff hb).2 heq i hi
    rw [hf.seqNo hb hi, ← hgi]
    exact List.mem_map_of_mem hg
  have hmax : f.seqNo = 0 → d.seqStored < numFrames f.headerLen := fun h0 => by
    obtain rfl : i = 0 := by rw [← hf.seqNo hb hi, h0]
    rwa [hf.headerLen hb, h.stored_eq]
  have hN := hb.numFrames_le
  refine ⟨h.toHolds.store hnew fun h0 hle => absurd hle (not_le.2 (hmax h0)), fun g hg => ?_, ?_⟩
  · rcases List.mem_append.1 hg with hg | hg
    · exact h.carried g hg
    · exact List.mem_singleton.1 hg ▸ ⟨i, hi, hf⟩
  · rw [seqStored_store (by rw [h.stored_eq]; omega) hmax, h.stored_eq, List.length_append,
      List.length_singleton]

/-- With all its frames stored, the buffer starts with the packet. -/
theorem slice_eq (h : Collects b d got) (hb : IsPacket c p b)
    (hcov : Pieces.Covers CanFrame.seqNo got (numFrames b.length)) :
    d.seqBuffer.slice 0 b.length = b := by
  refine Bytes.slice_eq_iff.2 ⟨rfl, fun k hk => ?_⟩
  obtain ⟨g, hg, hgk⟩ := hcov (k / 8) (by rw [numFrames]; omega)
  obtain ⟨i, hi, hc⟩ := h.carried g hg
  have hik : i = k / 8 := by rw [← hgk, hc.seqNo hb hi]
  have hk' : 8 * g.seqNo + k % 8 = k := by omega
  have hdata := h.data g hg (k % 8) (by rw [hc.canDlc]; exact Nat.mod_lt _ (by decide))
  rw [hk', hc.data (k % 8) (Nat.mod_lt _ (by decide)) (by omega)] at hdata
  rw [Nat.zero_add, hdata]
  congr 1
  omega

/-- Then the check passes, and the payload of the packet is extracted. -/
theorem checkPacket (h : Collects b d got) (hb : IsPacket c p b)
    (hcov : Pieces.Covers CanFrame.seqNo got (numFrames b.length)) :
    ∃ d', d.checkPacket = .ok (d', true) ∧ ∃ pb subs,
      extractCANData d'.payloadBuffer d'.seqLen d'.seqBuffer = .ok ⟨c, pb, p.length, subs⟩ ∧
        pb.slice 0 p.length = p := by
  obtain ⟨g, hg, h0⟩ := hcov 0 hb.numFrames_pos
  obtain ⟨hlen, hmax, hcrc⟩ := h.header_eq hb hg h0
  have hst := (h.complete_iff hb).2 hcov
  have h8 := hb.le_length
  have hbuf := hb.length_le
  have hslice := h.slice_eq hb hcov
  refine ⟨d.checked, ?_, ?_⟩
  · rw [h.toHolds.checkPacket_of_covers hst (hmax ▸ hcov), hlen, hslice, hcrc, beq_self_eq_true]
  · obtain ⟨pb, subs, hext, hpb, -⟩ := d.extract_checked h8 hbuf
    rw [hslice, hb.payload, hb.type] at hext
    rw [hslice, hb.payload] at hpb
    exact ⟨pb, subs, hlen ▸ hext, hpb⟩

end Collects

end SeqData

end EW8.Can

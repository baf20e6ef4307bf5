import EW8.Lib.Memory
import EW8.Can.Crc32

/-!
# Logical packets on the CAN bus

A *logical packet*, a command or acknowledge byte with a payload, travels as a
sequence of physical CAN frames of 8 bytes. Every frame starts with its sequence
number. Frame `0` is the header: the length of the whole sequence, the type and
a CRC-32 over all its bytes, the CRC field taken as zero. The frames after it
carry 7 payload bytes each, the last one possibly fewer.

* `formCANPacket` lays a packet out (`isPacket_formCANPacket`), and
  `writeLogicalCANPacket` cuts it into frames (`carries_writeLogicalCANPacket`);
* `extractCANData` takes the payload out of the reassembled bytes
  (`extractCANData_eq`); a length below that of a header makes it run past the
  end of its buffers (`extractCANData_runt`).

What both are about is `IsPacket`: the bytes `b` are a logical packet of type
`c` with the payload `p`, which is `unframe` of what follows the header.
-/

namespace EW8.Can

/-- `CAN_PAYLOAD_MAX_LEN`: the bytes of a physical frame, a `CAN_RAW_PACKET`. Its
    7 bytes after the sequence number are the `payload` of the frame. -/
abbrev canPayloadMaxLen : ℕ := 8

/-- `CAN_MAX_SEQUENCE`: the number of sequence numbers. -/
abbrev canMaxSequence : ℕ := 256

/-- `MAX_LOGICAL_PACKET`: the longest payload. -/
abbrev maxLogicalPacket : ℕ := (canMaxSequence - 1) * (canPayloadMaxLen - 1)

/-- The size of the packet buffers, `CAN_MAX_SEQUENCE*CAN_PAYLOAD_MAX_LEN`. -/
abbrev packetBufferLen : ℕ := canMaxSequence * canPayloadMaxLen

theorem maxLogicalPacket_eq : maxLogicalPacket = 1785 := rfl

theorem packetBufferLen_eq : packetBufferLen = 2048 := rfl

theorem canPayloadMaxLen_le : canPayloadMaxLen ≤ 8 := le_rfl

/-- `CAN_SEND_DATA`: the type of a data packet. -/
def canSendData : UInt8 := 0x80

/-- `UpdateCANPacketID`. -/
def updateCANPacketID : ℕ := 0x3ff

/-- `MAX_TIMEOUT`, 1 s, in nanoseconds. -/
def maxTimeout : ℤ := 1000000000

/-- The arrays of a receiver that untrusted numbers index. -/
inductive RxArray
  | seqBuffer
  | fillSeqBuffer
  | payloadBuffer
  deriving DecidableEq, Repr

/-- An index outside the array it is used on: the behaviour is undefined. -/
abbrev Fault := OutOfBounds RxArray

/-- Unsigned subtraction in `w` bits. -/
def usub (w a b : ℕ) : ℕ := (a + 2 ^ w - b) % 2 ^ w

/-! ## Frames -/

/-- A `can_frame`. -/
structure CanFrame where
  canId : ℕ
  /-- The data length code. -/
  canDlc : ℕ
  data : Bytes 8
  canDlc_le : canDlc ≤ 8

namespace CanFrame

variable (f : CanFrame)

/-- `raw->seq_no`. -/
def seqNo : ℕ := (f.data 0).toNat

/-- `raw->variable.header.len`. -/
def headerLen : ℕ := ofLE (f.data.slice 1 2)

/-- `raw->variable.header.type`. -/
def headerType : UInt8 := f.data 3

/-- `raw->variable.header.crc32`. -/
def headerCrc32 : UInt32 := UInt32.ofNat (ofLE (f.data.slice 4 4))

theorem seqNo_lt : f.seqNo < 256 := (f.data 0).toNat_lt

end CanFrame

/-! ## Forming a packet -/

/-- The header frame, `raw0`. -/
def rawHeader (len : ℕ) (type : UInt8) (crc : UInt32) : List UInt8 :=
  0 :: toLE 2 len ++ type :: toLE 4 crc.toNat

/-- The payload loop of `FormCANPacket`: the frames from number `num` on, each
    with the next 7 bytes of the payload. -/
def formPayload (num : UInt8) (payload : List UInt8) : List UInt8 :=
  if payload = [] then []
  else num :: payload.take 7 ++
    formPayload (num + 1) (payload.drop 7)
termination_by payload.length
decreasing_by
  have := List.length_pos_iff.2 ‹payload ≠ []›
  simp only [List.length_drop]
  omega

/-- The number of bytes of all frames of a packet with `len` payload bytes. -/
def finalLen (len : ℕ) : ℕ :=
  if len = 0 then 8
  else len / 7 * 8 +
    (if 0 < len % 7 then len % 7 + 1 else 0) + 8

/-- `FormCANPacket`: the bytes of the frames of a packet; none if the payload is
    too long. -/
def formCANPacket (command : UInt8) (payload : List UInt8) : List UInt8 :=
  if maxLogicalPacket < payload.length then []
  else
    let len := finalLen payload.length
    let frames := formPayload 1 payload
    let crc := crc32 ((rawHeader len command 0 ++ frames).take len)
    (rawHeader len command crc ++ frames).take len

/-- `WriteLogicalCANPacket`: the frames written to the bus. A short last frame
    keeps what the frame before it left in the buffer, `stale`. -/
def writeLogicalCANPacket (stale : Bytes 8) (data : List UInt8) : List CanFrame :=
  if data = [] then []
  else
    let frame := stale.patch 0 (data.take 8)
    ⟨updateCANPacketID, 8, frame, canPayloadMaxLen_le⟩ ::
      writeLogicalCANPacket frame (data.drop 8)
termination_by data.length
decreasing_by
  have := List.length_pos_iff.2 ‹data ≠ []›
  simp only [List.length_drop]
  omega

/-! ## Extracting the payload -/

/-- What `ExtractCANData` leaves: the command, the payload buffer, the returned
    length and the operands of the subtractions made on `_len`. -/
structure Extracted where
  command : UInt8
  payload : Bytes packetBufferLen
  len : ℕ
  subs : List (ℕ × ℕ)

/-- The copy loop of `ExtractCANData`: `len` bytes of the frames from `raw0` on
    are still to be copied, to `ofs`. -/
def extractLoop (canBuffer : Bytes packetBufferLen) (len raw0 ofs : ℕ)
    (payload : Bytes packetBufferLen) :
    Except Fault (Bytes packetBufferLen × ℕ × List (ℕ × ℕ)) :=
  if len = 0 then .ok (payload, ofs, [])
  else
    let l := if len < 8 then len - 1 else 7
    do
      let chunk ← canBuffer.read .seqBuffer (raw0 + 1) l
      let payload ← payload.write .payloadBuffer ofs chunk
      let r ← extractLoop canBuffer (len - (l + 1)) (raw0 + 8) (ofs + l) payload
      return (r.1, r.2.1, (len, l + 1) :: r.2.2)
termination_by len
decreasing_by omega

/-- `ExtractCANData`, for a packet of `len` bytes in `canBuffer`. -/
def extractCANData (payload : Bytes packetBufferLen) (len : ℕ)
    (canBuffer : Bytes packetBufferLen) : Except Fault Extracted :=
  if len = 0 then .ok ⟨canBuffer 3, payload, 0, []⟩
  else do
    -- `_len` is a `uint16_t`
    let r ← extractLoop canBuffer (usub 16 len 8) 8 0 payload
    return ⟨canBuffer 3, r.1, r.2.1, (len, 8) :: r.2.2⟩

/-! ## What a packet is -/

/-- The payload bytes of a sequence of frames: all but the sequence numbers. -/
def unframe (frames : List UInt8) : List UInt8 :=
  if frames = [] then []
  else (frames.take 8).drop 1 ++ unframe (frames.drop 8)
termination_by frames.length
decreasing_by
  have := List.length_pos_iff.2 ‹frames ≠ []›
  simp only [List.length_drop]
  omega

/-- The bytes of a packet with the CRC field set to zero. -/
def zeroCrc (b : List UInt8) : List UInt8 :=
  (b.take 4 ++ [0, 0, 0, 0] ++ b.drop 8).take b.length

/-- The number of frames of `len` bytes. -/
def numFrames (len : ℕ) : ℕ := (len + 7) / 8

/-- The bytes `b` are a logical packet of type `c` with the payload `p`. -/
structure IsPacket (c : UInt8) (p b : List UInt8) : Prop where
  le_length : 8 ≤ b.length
  length_le : b.length ≤ packetBufferLen
  seqNo : ∀ i < numFrames b.length, (b.getD (8 * i) 0).toNat = i
  len : ofLE ((b.drop 1).take 2) = b.length
  type : b.getD 3 0 = c
  crc : crc32 (zeroCrc b) = UInt32.ofNat (ofLE ((b.drop 4).take 4))
  payload : unframe (b.drop 8) = p

/-- The frame `f` carries the `i`-th 8 bytes of `b`; what it holds past the end
    of `b` is arbitrary. -/
structure Carries (b : List UInt8) (i : ℕ) (f : CanFrame) : Prop where
  canDlc : f.canDlc = 8
  data : ∀ j < 8, 8 * i + j < b.length → f.data.byteAt j = b.getD (8 * i + j) 0

@[simp] theorem length_zeroCrc (b : List UInt8) : (zeroCrc b).length = b.length := by
  simp only [zeroCrc, List.length_take, List.length_append, List.length_drop, List.length_cons,
    List.length_nil]
  omega

theorem getD_zeroCrc {b : List UInt8} {i : ℕ} (hi : i < b.length) :
    (zeroCrc b).getD i 0 = if 4 ≤ i ∧ i < 8 then 0 else b.getD i 0 := by
  rw [List.getD_eq_getElem _ _ (by simpa using hi), List.getD_eq_getElem _ _ hi]
  simp only [zeroCrc, List.getElem_take, List.append_assoc, List.getElem_append,
    List.length_take, List.getElem_drop, List.length_cons, List.length_nil]
  by_cases h4 : i < 4
  · rw [dif_pos (by omega), if_neg (by omega)]
  by_cases h8 : i < 8
  · rw [dif_neg (by omega), if_pos (by omega), dif_pos (by omega)]
    obtain rfl | rfl | rfl | rfl : i = 4 ∨ i = 5 ∨ i = 6 ∨ i = 7 := by omega
    all_goals simp [show min 4 b.length = 4 by omega]
  · rw [dif_neg (by omega), if_neg (by omega), dif_neg (by omega)]
    congr 1
    omega

/-- Zeroing the CRC field of a buffer zeroes it in the bytes at its start. -/
theorem slice_patch_zero (m : Bytes packetBufferLen) {len : ℕ} (hlen : len ≤ packetBufferLen) :
    (m.patch 4 [0, 0, 0, 0]).slice 0 len = zeroCrc (m.slice 0 len) := by
  refine Bytes.slice_eq_iff.2 ⟨by simp, fun i hi => ?_⟩
  rw [getD_zeroCrc (by simpa using hi), Bytes.getD_slice hi, Nat.zero_add,
    Bytes.byteAt_patch (by omega)]
  refine ite_congr rfl (fun h => ?_) fun _ => rfl
  change 4 ≤ i ∧ i < 8 at h
  obtain rfl | rfl | rfl | rfl : i = 4 ∨ i = 5 ∨ i = 6 ∨ i = 7 := by omega
  all_goals rfl

/-! ### Payload frames -/

@[simp] theorem formPayload_nil (num : UInt8) : formPayload num [] = [] := by
  rw [formPayload, if_pos rfl]

theorem formPayload_of_ne_nil (num : UInt8) {payload : List UInt8} (h : payload ≠ []) :
    formPayload num payload =
      (num :: payload.take 7) ++ formPayload (num + 1) (payload.drop 7) := by
  rw [formPayload, if_neg h]

@[simp] theorem unframe_nil : unframe [] = [] := by
  rw [unframe, if_pos rfl]

theorem unframe_of_ne_nil {frames : List UInt8} (h : frames ≠ []) :
    unframe frames = (frames.take 8).drop 1 ++ unframe (frames.drop 8) := by
  rw [unframe, if_neg h]

theorem length_formPayload (num : UInt8) (payload : List UInt8) :
    (formPayload num payload).length =
      payload.length / 7 * 8 + if 0 < payload.length % 7 then payload.length % 7 + 1 else 0 := by
  induction num, payload using formPayload.induct with
  | case1 num => simp
  | case2 num payload hne ih =>
    have := List.length_pos_iff.2 hne
    rw [formPayload_of_ne_nil num hne, List.length_append, List.length_cons, ih]
    simp only [List.length_take, List.length_drop]
    split_ifs <;> omega

/-- Each payload frame starts with its number. -/
theorem getD_formPayload (num : UInt8) (payload : List UInt8) (i : ℕ)
    (hi : 8 * i < (formPayload num payload).length) :
    (formPayload num payload).getD (8 * i) 0 = num + UInt8.ofNat i := by
  induction num, payload using formPayload.induct generalizing i with
  | case1 num => simp at hi
  | case2 num payload hne ih =>
    rw [formPayload_of_ne_nil num hne] at hi ⊢
    cases i with
    | zero => simp
    | succ i =>
      -- a frame follows the first one, so that the first one is full
      have hlen := length_formPayload (num + 1) (payload.drop 7)
      rw [List.length_append, List.length_cons, List.length_take] at hi
      rw [List.length_drop] at hlen
      have h7 : 7 ≤ payload.length := by
        by_contra h
        rw [show payload.length - 7 = 0 by omega] at hlen
        simp only [Nat.zero_div, Nat.zero_mod, Nat.zero_mul, lt_irrefl, if_false] at hlen
        omega
      have htake : (num :: payload.take 7).length = 8 := by simp [h7]
      rw [List.getD_append_right _ _ _ _ (by omega), htake, show 8 * (i + 1) - 8 = 8 * i by omega,
        ih i (by omega), UInt8.ofNat_add, UInt8.add_assoc, UInt8.add_comm 1]
      rfl

/-- The frames of a payload give it back. -/
theorem unframe_formPayload (num : UInt8) (payload : List UInt8) :
    unframe (formPayload num payload) = payload := by
  induction num, payload using formPayload.induct with
  | case1 num => simp
  | case2 num payload hne ih =>
    rw [formPayload_of_ne_nil num hne, unframe_of_ne_nil (by simp)]
    by_cases h7 : payload.length < 7
    · -- a short last frame: nothing follows it
      have hdrop : payload.drop 7 = [] := List.drop_of_length_le (by omega)
      have htake : payload.take 7 = payload := List.take_of_length_le (by omega)
      have hlen : (num :: payload).length ≤ 8 := by simp; omega
      rw [hdrop, htake, formPayload_nil, List.append_nil, List.take_of_length_le hlen,
        List.drop_of_length_le hlen]
      simp
    · have htake : (num :: payload.take 7).length = 8 := by simp; omega
      rw [List.take_left' htake, List.drop_left' htake, ih]
      simp

theorem length_unframe_le (l : List UInt8) : (unframe l).length ≤ l.length := by
  induction l using unframe.induct with
  | case1 => simp
  | case2 l hne ih =>
    rw [unframe_of_ne_nil hne, List.length_append, List.length_drop, List.length_take]
    rw [List.length_drop] at ih
    omega

/-! ### Formed packets -/

theorem finalLen_eq (num : UInt8) (payload : List UInt8) :
    finalLen payload.length = 8 + (formPayload num payload).length := by
  rw [finalLen, length_formPayload]
  split_ifs <;> omega

/-- The bytes of a formed packet: a header announcing their number, and the
    payload frames. -/
theorem formCANPacket_eq (command : UInt8) {payload : List UInt8}
    (h : payload.length ≤ maxLogicalPacket) :
    formCANPacket command payload =
      rawHeader (finalLen payload.length) command
          (crc32 (rawHeader (finalLen payload.length) command 0 ++ formPayload 1 payload)) ++
        formPayload 1 payload := by
  have hlen (crc : UInt32) :
      (rawHeader (finalLen payload.length) command crc ++ formPayload 1 payload).length ≤
        finalLen payload.length := by
    rw [List.length_append, finalLen_eq 1]
    rfl
  rw [formCANPacket, if_neg (by omega)]
  simp only [List.take_of_length_le (hlen _)]

theorem zeroCrc_rawHeader (len : ℕ) (command : UInt8) (crc : UInt32) (frames : List UInt8) :
    zeroCrc (rawHeader len command crc ++ frames) = rawHeader len command 0 ++ frames :=
  List.take_of_length_le le_rfl

/-- What `FormCANPacket` forms is a packet, of the given type and payload. -/
theorem isPacket_formCANPacket (command : UInt8) {payload : List UInt8}
    (h : payload.length ≤ maxLogicalPacket) :
    IsPacket command payload (formCANPacket command payload) := by
  have hframes := length_formPayload 1 payload
  have hfinal := finalLen_eq 1 payload
  have hlen : (formCANPacket command payload).length = finalLen payload.length := by
    rw [formCANPacket_eq command h, List.length_append, finalLen_eq 1]
    rfl
  have hbuf := packetBufferLen_eq
  have hmax : finalLen payload.length ≤ packetBufferLen := by
    rw [maxLogicalPacket_eq] at h
    split_ifs at hframes <;> omega
  refine ⟨by omega, by omega, ?_, ?_, ?_, ?_, ?_⟩ <;> try rw [hlen]
  · intro i hi
    rw [numFrames] at hi
    rw [formCANPacket_eq command h]
    cases i with
    | zero => rfl
    | succ i =>
      have hi' : 8 * i < (formPayload 1 payload).length := by omega
      rw [List.getD_append_right _ _ _ _ (by change 8 ≤ _; omega)]
      change ((formPayload 1 payload).getD (8 * i) 0).toNat = i + 1
      rw [getD_formPayload 1 payload i hi', UInt8.toNat_add, UInt8.toNat_ofNat']
      change (1 + i % 256) % 256 = i + 1
      omega
  · rw [formCANPacket_eq command h]
    exact ofLE_toLE (k := 2) (by omega)
  · rw [formCANPacket_eq command h]
    rfl
  · rw [formCANPacket_eq command h, zeroCrc_rawHeader]
    change _ = UInt32.ofNat (ofLE (toLE 4 (UInt32.toNat _)))
    rw [ofLE_toLE (UInt32.toNat_lt _), UInt32.ofNat_toNat]
  · rw [formCANPacket_eq command h]
    exact unframe_formPayload 1 payload

theorem length_writeLogicalCANPacket (stale : Bytes 8) (data : List UInt8) :
    (writeLogicalCANPacket stale data).length = numFrames data.length := by
  induction stale, data using writeLogicalCANPacket.induct with
  | case1 stale => rw [writeLogicalCANPacket, if_pos rfl]; rfl
  | case2 stale data hne frame ih =>
    have := List.length_pos_iff.2 hne
    rw [writeLogicalCANPacket, if_neg hne, List.length_cons, ih, List.length_drop, numFrames,
      numFrames]
    omega

/-- The `i`-th frame written carries the `i`-th 8 bytes. -/
theorem carries_writeLogicalCANPacket (stale : Bytes 8) (data : List UInt8) (i : ℕ)
    (hi : i < (writeLogicalCANPacket stale data).length) :
    Carries data i (writeLogicalCANPacket stale data)[i] := by
  induction stale, data using writeLogicalCANPacket.induct generalizing i with
  | case1 stale => simp [writeLogicalCANPacket] at hi
  | case2 stale data hne frame ih =>
    have hw : writeLogicalCANPacket stale data = ⟨updateCANPacketID, 8, frame, canPayloadMaxLen_le⟩ ::
        writeLogicalCANPacket frame (data.drop 8) := by
      rw [writeLogicalCANPacket, if_neg hne]
    simp only [hw] at hi ⊢
    cases i with
    | zero =>
      refine ⟨rfl, fun j hj hlen => ?_⟩
      have h := @Bytes.byteAt_patch_zero _ stale j (data.take 8) hj
        (by rw [List.length_take]; omega)
      change frame.byteAt j = _
      rw [Nat.mul_zero, Nat.zero_add, h, List.getD_eq_getElem?_getD, List.getElem?_take_of_lt hj,
        ← List.getD_eq_getElem?_getD]
    | succ i =>
      obtain ⟨hdlc, hdata⟩ := ih i (by simpa using hi)
      refine ⟨hdlc, fun j hj hlen => ?_⟩
      rw [List.getElem_cons_succ, hdata j hj (by rw [List.length_drop]; omega),
        List.getD_eq_getElem?_getD, List.getElem?_drop, ← List.getD_eq_getElem?_getD]
      congr 1
      omega

/-! ### Extraction -/

/-- The copy loop stays within its buffers when they hold all the bytes, and then
    copies the payload bytes of the frames. -/
theorem extractLoop_eq (canBuffer : Bytes packetBufferLen) (len raw0 ofs : ℕ)
    (payload : Bytes packetBufferLen) (hraw : len ≠ 0 → raw0 + len ≤ packetBufferLen)
    (hofs : ofs ≤ raw0) :
    ∃ subs, extractLoop canBuffer len raw0 ofs payload =
        .ok (payload.patch ofs (unframe (canBuffer.slice raw0 len)),
          ofs + (unframe (canBuffer.slice raw0 len)).length, subs) ∧
      ∀ q ∈ subs, q.2 ≤ q.1 := by
  -- the induction is on the bytes that are left, of which each round takes a frame
  induction len using Nat.strongRecOn generalizing raw0 ofs payload with
  | ind len ih =>
    rw [extractLoop]
    by_cases h0 : len = 0
    · exact ⟨[], by simp [h0], by simp⟩
    rw [if_neg h0]
    replace hraw := hraw h0
    generalize hl : (if len < 8 then len - 1 else 7) = l
    have hl' : l = min (len - 1) 7 := by split_ifs at hl <;> omega
    -- a frame is its sequence number and up to 7 bytes of payload
    have hchunk : unframe (canBuffer.slice raw0 len) =
        canBuffer.slice (raw0 + 1) l ++
          unframe (canBuffer.slice (raw0 + 8) (len - (l + 1))) := by
      have hne : canBuffer.slice raw0 len ≠ [] := by
        rw [← List.length_pos_iff, Bytes.length_slice]; omega
      rw [unframe_of_ne_nil hne]
      by_cases h8 : 8 ≤ len
      · rw [Bytes.take_slice h8, Bytes.drop_slice (by omega), Bytes.drop_slice h8]
        rw [show 8 - 1 = l by omega, show len - 8 = len - (l + 1) by omega]
      · rw [List.take_of_length_le (by rw [Bytes.length_slice]; omega),
          List.drop_of_length_le (i := 8) (by rw [Bytes.length_slice]; omega),
          Bytes.drop_slice (by omega), show len - 1 = l by omega,
          show len - (l + 1) = 0 by omega, Bytes.slice_zero]
    obtain ⟨subs, hrec, hsubs⟩ := ih (len - (l + 1)) (by omega) (raw0 + 8) (ofs + l)
      (payload.patch ofs (canBuffer.slice (raw0 + 1) l)) (by omega) (by omega)
    refine ⟨(len, l + 1) :: subs, ?_, fun q hq => ?_⟩
    · simp only
      have hpatch := Bytes.patch_patch_append (m := payload) ofs (canBuffer.slice (raw0 + 1) l)
        (unframe (canBuffer.slice (raw0 + 8) (len - (l + 1))))
      rw [Bytes.length_slice] at hpatch
      have hread : canBuffer.read RxArray.seqBuffer (raw0 + 1) l = _ := Bytes.read_eq (by omega)
      have hwrite : payload.write RxArray.payloadBuffer ofs (canBuffer.slice (raw0 + 1) l) = _ :=
        Bytes.write_eq (by rw [Bytes.length_slice]; omega)
      simp only [hread, hwrite, hrec, hpatch, hchunk, bind, Except.bind, pure, Except.pure,
        List.length_append, Bytes.length_slice, Nat.add_assoc]
    · rcases List.mem_cons.1 hq with rfl | hq
      · change l + 1 ≤ len
        omega
      · exact hsubs q hq

/-- For the length of a whole header at least, and of the buffer at most,
    `ExtractCANData` takes the payload out of the bytes announced. -/
theorem extractCANData_eq (canBuffer payload : Bytes packetBufferLen) {len : ℕ} (h8 : 8 ≤ len)
    (hlen : len ≤ packetBufferLen) :
    ∃ subs, extractCANData payload len canBuffer =
        .ok ⟨canBuffer 3, payload.patch 0 (unframe (canBuffer.slice 8 (len - 8))),
          (unframe (canBuffer.slice 8 (len - 8))).length, subs⟩ ∧
      ∀ q ∈ subs, q.2 ≤ q.1 := by
  have hbuf := packetBufferLen_eq
  have husub : usub 16 len 8 = len - 8 := by rw [usub]; omega
  obtain ⟨subs, hloop, hsubs⟩ :=
    extractLoop_eq canBuffer (len - 8) 8 0 payload (fun _ => by omega) (by omega)
  refine ⟨(len, 8) :: subs, ?_, ?_⟩
  · rw [extractCANData, if_neg (by omega), husub, hloop]
    simp only [bind, Except.bind, pure, Except.pure, Nat.zero_add]
  · exact List.forall_mem_cons.2 ⟨h8, hsubs⟩

/-- The copy loop can only end within its buffers if they hold all the bytes, but
    for a last frame without payload. -/
theorem le_of_extractLoop_ok {canBuffer payload : Bytes packetBufferLen} {len raw0 ofs : ℕ}
    {r : Bytes packetBufferLen × ℕ × List (ℕ × ℕ)}
    (h : extractLoop canBuffer len raw0 ofs payload = .ok r) :
    len ≤ 1 ∨ raw0 + len ≤ packetBufferLen + 1 := by
  induction len using Nat.strongRecOn generalizing raw0 ofs payload r with
  | ind len ih =>
    by_contra hlt
    push Not at hlt
    rw [extractLoop, if_neg (by omega)] at h
    generalize hl : (if len < 8 then len - 1 else 7) = l at h
    have hl' : l = min (len - 1) 7 := by split_ifs at hl <;> omega
    simp only at h
    by_cases hread : raw0 + 1 + l ≤ packetBufferLen
    · rw [Bytes.read_eq hread] at h
      simp only [bind, Except.bind] at h
      cases hw : payload.write RxArray.payloadBuffer ofs (canBuffer.slice (raw0 + 1) l) with
      | error e => simp [hw] at h
      | ok payload' =>
        cases hr : extractLoop canBuffer (len - (l + 1)) (raw0 + 8) (ofs + l) payload' with
        | error e => simp [hw, hr] at h
        | ok r' =>
          have := ih _ (by omega) hr
          omega
    · rw [Bytes.read_error (by omega) (by omega)] at h
      cases h

/-- A length below that of a header wraps around: the copy runs past the end of
    the buffers. -/
theorem extractCANData_runt (canBuffer payload : Bytes packetBufferLen) {len : ℕ} (h0 : len ≠ 0)
    (h8 : len < 8) : ∃ e, extractCANData payload len canBuffer = .error e := by
  have husub : usub 16 len 8 = 65528 + len := by rw [usub]; omega
  rw [extractCANData, if_neg h0, husub]
  cases h : extractLoop canBuffer (65528 + len) 8 0 payload with
  | error e => exact ⟨e, rfl⟩
  | ok r =>
    have := le_of_extractLoop_ok h
    have hbuf := packetBufferLen_eq
    omega

end EW8.Can

import EW8.Lib.Crc
import EW8.Can.Engine

/-!
# Damaged packets

What the CRC-32 of a logical packet is worth. The table of `crc32.cpp` takes eight steps of the
division by the polynomial at once (`updc32_eq`), so that a buffer has the remainder of its bits
(`crc32buf_eq`), and no burst of at most 32 bits goes unnoticed (`crc32_eq_iff`).

So for the receiver: of the frames of a packet, any copies of one of them may arrive damaged,
each by a burst of its own. Whatever the order and the times in which they come, no other packet
is handed over (`undamaged_of_feed`).
-/

namespace EW8.Can

/-- "CRC polynomial 0xedb88320". -/
def crc32Poly : BitVec 32 := 0xedb88320

/-- The bit number `i` of a buffer, the lowest bit of a byte first. -/
def bitAt (l : List UInt8) (i : ℕ) : Bool := (l.getD (i / 8) 0).toNat.testBit (i % 8)

/-- The bits of a buffer. -/
def bitsOf (l : List UInt8) : List Bool := (List.range (8 * l.length)).map (bitAt l)

/-! ### The table -/

theorem crc32Tab_eq : ∀ i < 256, (crc32Tab.getD i 0).toBitVec =
    Crc.shifts crc32Poly 8 (BitVec.ofNat 32 i) := by
  decide +kernel

theorem bitsOf_cons (octet : UInt8) (l : List UInt8) :
    bitsOf (octet :: l) = bitsOf [octet] ++ bitsOf l := by
  have hlen : 8 * (octet :: l).length = 8 + 8 * l.length := by rw [List.length_cons]; omega
  rw [bitsOf, hlen, List.range_add, List.map_append, List.map_map]
  refine congrArg₂ _ (List.map_congr_left fun i hi => ?_) (List.map_congr_left fun i _ => ?_)
  · have hdiv : i / 8 = 0 := Nat.div_eq_of_lt (List.mem_range.1 hi)
    simp only [bitAt, hdiv, List.getD_cons_zero]
  · have hdiv : (8 + i) / 8 = i / 8 + 1 := by omega
    have hmod : (8 + i) % 8 = i % 8 := by omega
    simp only [Function.comp_apply, bitAt, hdiv, hmod, List.getD_cons_succ]

theorem word_bitsOf (octet : UInt8) :
    Crc.word 32 (bitsOf [octet]) = octet.toBitVec.setWidth 32 := by
  ext i hi
  rw [← BitVec.getLsbD_eq_getElem, Crc.getLsbD_word, ← BitVec.getLsbD_eq_getElem,
    BitVec.getLsbD_setWidth, bitsOf, List.getD_eq_getElem?_getD, List.getElem?_map]
  by_cases h8 : i < 8
  · rw [List.getElem?_range (by simpa using h8)]
    simp [bitAt, hi, Nat.div_eq_of_lt h8, Nat.mod_eq_of_lt h8, ← UInt8.toNat_toBitVec,
      BitVec.testBit_toNat]
  · rw [List.getElem?_eq_none (by simpa using h8), BitVec.getLsbD_of_ge _ _ (by omega)]
    simp

/-- One byte from the table is eight bits of the division. -/
theorem updc32_eq (octet : UInt8) (crc : UInt32) :
    (updc32 octet crc).toBitVec = Crc.bits crc32Poly crc.toBitVec (bitsOf [octet]) := by
  have hbyte : (octet.toBitVec.setWidth 32) >>> 8 = 0 := by
    refine BitVec.eq_of_toNat_eq ?_
    have := octet.toBitVec.isLt
    rw [BitVec.toNat_ushiftRight, BitVec.toNat_setWidth, Nat.shiftRight_eq_div_pow]
    rw [show (0 : BitVec 32).toNat = 0 from rfl]
    omega
  set x := crc.toBitVec ^^^ octet.toBitVec.setWidth 32
  have hindex : ((crc ^^^ octet.toUInt32) &&& 0xff).toBitVec = x &&& BitVec.ofNat 32 (2 ^ 8 - 1) :=
    rfl
  have hlt : ((crc ^^^ octet.toUInt32) &&& 0xff).toNat < 256 := by
    rw [UInt32.toNat_and]
    exact Nat.and_lt_two_pow _ (show (0xff : UInt32).toNat < 2 ^ 8 by decide)
  have hentry := crc32Tab_eq _ hlt
  rw [← UInt32.toNat_toBitVec, BitVec.ofNat_toNat, BitVec.setWidth_eq, hindex] at hentry
  rw [Crc.bits_eq (by simp [bitsOf]), word_bitsOf]
  change _ = Crc.shifts crc32Poly 8 x
  rw [Crc.shifts_split, ← hentry, BitVec.ushiftRight_xor_distrib, hbyte]
  change _ ^^^ _ = _ ^^^ (_ ^^^ 0#32)
  rw [BitVec.xor_zero]
  rfl

/-- The CRC register after a buffer is the remainder of its bits. -/
theorem crc32buf_eq (crc : UInt32) (buf : List UInt8) :
    (crc32buf crc buf).toBitVec = Crc.bits crc32Poly crc.toBitVec (bitsOf buf) := by
  induction buf generalizing crc with
  | nil => rfl
  | cons octet buf ih =>
    rw [bitsOf_cons, Crc.bits_append, ← updc32_eq]
    exact ih (updc32 octet crc)

/-! ### Bursts -/

/-- Two buffers of one length differ within `n` consecutive bits at most. -/
def Burst (n : ℕ) (l l' : List UInt8) : Prop :=
  l.length = l'.length ∧ ∃ s, ∀ i, bitAt l i ≠ bitAt l' i → s ≤ i ∧ i < s + n

theorem Burst.refl (n : ℕ) (l : List UInt8) : Burst n l l := ⟨rfl, 0, fun _ h => absurd rfl h⟩

@[simp] theorem length_bitsOf (l : List UInt8) : (bitsOf l).length = 8 * l.length := by
  simp [bitsOf]

theorem bitAt_of_le {l : List UInt8} {i : ℕ} (h : 8 * l.length ≤ i) : bitAt l i = false := by
  rw [bitAt, List.getD_eq_default _ _ (by omega)]
  exact Nat.zero_testBit _

/-- The bytes of a buffer are given by its bits. -/
theorem eq_of_bitAt {l l' : List UInt8} (hlen : l.length = l'.length)
    (h : ∀ i, bitAt l i = bitAt l' i) : l = l' := by
  refine List.ext_getElem hlen fun k hk hk' => UInt8.toNat_inj.1 ?_
  refine Nat.eq_of_testBit_eq fun j => ?_
  by_cases hj : j < 8
  · have hbit := h (8 * k + j)
    have hdiv : (8 * k + j) / 8 = k := by omega
    have hmod : (8 * k + j) % 8 = j := by omega
    simpa only [bitAt, hdiv, hmod, List.getD_eq_getElem _ _ hk, List.getD_eq_getElem _ _ hk']
      using hbit
  · have hpow : 2 ^ 8 ≤ 2 ^ j := Nat.pow_le_pow_right two_pos (by omega)
    rw [Nat.testBit_lt_two_pow (l[k].toNat_lt.trans_le hpow),
      Nat.testBit_lt_two_pow (l'[k].toNat_lt.trans_le hpow)]

/-- A burst of at most 32 bits changes the CRC. -/
theorem crc32_eq_iff {l l' : List UInt8} (h : Burst 32 l l') : crc32 l = crc32 l' ↔ l = l' := by
  refine ⟨fun heq => ?_, fun heq => heq ▸ rfl⟩
  obtain ⟨hlen, s, hs⟩ := h
  -- before and after the burst the bits agree
  have htake : (bitsOf l).take s = (bitsOf l').take s := by
    rw [bitsOf, bitsOf, hlen, ← List.map_take, ← List.map_take]
    refine List.map_congr_left fun i hi => by_contra fun hne => ?_
    rw [List.take_range, List.mem_range] at hi
    have := hs i hne
    omega
  have hdrop : (bitsOf l).drop (s + 32) = (bitsOf l').drop (s + 32) := by
    refine List.ext_getElem (by simp [hlen]) fun i hi hi' => by_contra fun hne => ?_
    simp only [List.getElem_drop, bitsOf, List.getElem_map, List.getElem_range] at hne
    have := hs _ hne
    omega
  have hsplit : ∀ m : List Bool, m = m.take s ++ (m.drop s).take 32 ++ m.drop (s + 32) := fun m => by
    rw [← List.drop_drop, List.append_assoc, List.take_append_drop, List.take_append_drop]
  have hcrc : crc32buf crc32reset l = crc32buf crc32reset l' := by
    have := congrArg (~~~ ·) heq
    simpa only [crc32, crc32result, UInt32.not_not] using this
  have hbits := congrArg UInt32.toBitVec hcrc
  rw [crc32buf_eq, crc32buf_eq, hsplit (bitsOf l), hsplit (bitsOf l'), htake, hdrop,
    Crc.bits_burst_iff (by decide) _ (by simp [hlen]) (by simp)] at hbits
  have hall : bitsOf l = bitsOf l' := by
    rw [hsplit (bitsOf l), hsplit (bitsOf l'), htake, hdrop, hbits]
  refine eq_of_bitAt hlen fun i => ?_
  by_cases hi : i < 8 * l.length
  · have hget := congrArg (fun m => m.getD i false) hall
    simpa [bitsOf, List.getD_eq_getElem?_getD, List.getElem?_range, hi, hlen ▸ hi] using hget
  · rw [bitAt_of_le (not_lt.1 hi), bitAt_of_le (hlen ▸ not_lt.1 hi)]

/-! ### Damaged packets -/

/-- The bytes `b'` are those of `b`, with a burst in the frame number `k`. It hits neither a
    sequence number nor the announced length, and it lies in the CRC field or outside it. -/
structure Damages (b : List UInt8) (k : ℕ) (b' : List UInt8) : Prop where
  burst : Burst 32 b b'
  inside : ∀ i, b'.getD i 0 ≠ b.getD i 0 → i / 8 = k ∧ i % 8 ≠ 0 ∧ i ≠ 1 ∧ i ≠ 2
  field : (∀ i, 4 ≤ i → i < 8 → b'.getD i 0 = b.getD i 0) ∨
    ∀ i, b'.getD i 0 ≠ b.getD i 0 → 4 ≤ i ∧ i < 8

/-- The frame is one of those of `b`, and if it is the one number `k`, it may be damaged. -/
def Damaged (b : List UInt8) (k : ℕ) (f : CanFrame) : Prop :=
  ∃ b' i, Damages b k b' ∧ i < numFrames b.length ∧ Carries b' i f

theorem ofLE_injective {l l' : List UInt8} (hlen : l.length = l'.length) (h : ofLE l = ofLE l') :
    l = l' := by
  induction l generalizing l' with
  | nil => exact (List.length_eq_zero_iff.1 hlen.symm).symm
  | cons x l ih =>
    cases l' with
    | nil => simp at hlen
    | cons x' l' =>
      have hx := x.toNat_lt
      have hx' := x'.toNat_lt
      simp only [ofLE] at h
      rw [UInt8.toNat_inj.1 (show x.toNat = x'.toNat by omega),
        ih (Nat.succ.inj hlen) (by omega)]

section Packet

variable {c : UInt8} {p b b' : List UInt8} {i k : ℕ} {f : CanFrame}

theorem Damages.refl (b : List UInt8) (k : ℕ) : Damages b k b :=
  ⟨.refl 32 b, fun _ h => absurd rfl h, .inr fun _ h => absurd rfl h⟩

namespace Damages

theorem length (h : Damages b k b') : b'.length = b.length := h.burst.1.symm

theorem getD_eq (h : Damages b k b') (hi : i / 8 ≠ k ∨ i % 8 = 0 ∨ i = 1 ∨ i = 2) :
    b'.getD i 0 = b.getD i 0 := by
  by_contra hne
  obtain ⟨h₁, h₂, h₃, h₄⟩ := h.inside i hne
  omega

theorem ext_getD {l l' : List UInt8} (hlen : l.length = l'.length)
    (h : ∀ i < l.length, l.getD i 0 = l'.getD i 0) : l = l' :=
  List.ext_getElem hlen fun i hi hi' => by
    simpa only [List.getD_eq_getElem _ _ hi, List.getD_eq_getElem _ _ hi'] using h i hi

theorem take_drop_eq {ofs len : ℕ} (hlen : b'.length = b.length)
    (h : ∀ i, ofs ≤ i → i < ofs + len → b'.getD i 0 = b.getD i 0) :
    (b'.drop ofs).take len = (b.drop ofs).take len := by
  refine ext_getD (by simp [hlen]) fun i hi => ?_
  rw [List.length_take] at hi
  have hget : ∀ l : List UInt8, ((l.drop ofs).take len).getD i 0 = l.getD (ofs + i) 0 := fun l => by
    rw [List.getD_eq_getElem?_getD, List.getElem?_take_of_lt (by omega), List.getElem?_drop,
      ← List.getD_eq_getElem?_getD]
  rw [hget, hget, h _ (by omega) (by omega)]

/-- The zeroed CRC field takes nothing from the burst. -/
theorem burst_zeroCrc (h : Damages b k b') : Burst 32 (zeroCrc b) (zeroCrc b') := by
  obtain ⟨hlen, s, hs⟩ := h.burst
  refine ⟨by simp [hlen], s, fun i hne => hs i fun heq => hne ?_⟩
  by_cases hi : i / 8 < b.length
  · rw [bitAt, bitAt, getD_zeroCrc hi, getD_zeroCrc (hlen ▸ hi)]
    split_ifs
    · rfl
    · exact heq
  · rw [bitAt_of_le (by rw [length_zeroCrc]; omega), bitAt_of_le (by rw [length_zeroCrc]; omega)]

/-- A damaged packet does not pass the check. -/
theorem eq_of_crc (h : Damages b k b') (hb : IsPacket c p b)
    (hcrc : crc32 (zeroCrc b') = UInt32.ofNat (ofLE ((b'.drop 4).take 4))) : b' = b := by
  have hlen := h.length
  have h8 := hb.le_length
  refine ext_getD hlen fun i hi => ?_
  rcases h.field with hfield | hfield
  · -- The burst is outside the CRC field.
    rw [take_drop_eq hlen hfield, ← hb.crc] at hcrc
    have hzero := (crc32_eq_iff h.burst_zeroCrc).1 hcrc.symm
    by_cases hin : 4 ≤ i ∧ i < 8
    · exact hfield i hin.1 hin.2
    · have hget := congrArg (fun l => l.getD i 0) hzero
      simpa only [getD_zeroCrc hi, getD_zeroCrc (hlen ▸ hi), if_neg hin] using hget.symm
  · -- The burst is in it.
    have hzero : zeroCrc b' = zeroCrc b := by
      refine ext_getD (by simp [hlen]) fun j hj => ?_
      rw [length_zeroCrc] at hj
      rw [getD_zeroCrc hj, getD_zeroCrc (hlen ▸ hj)]
      refine ite_congr rfl (fun _ => rfl) fun hout => by_contra fun hne => hout (hfield j hne)
    rw [hzero, hb.crc] at hcrc
    have hlen4 : ∀ l : List UInt8, ofLE ((l.drop 4).take 4) < 2 ^ 32 := fun l =>
      (ofLE_lt _).trans_le (Nat.pow_le_pow_right (show 0 < 256 by decide) (List.length_take_le ..))
    have hof := congrArg UInt32.toNat hcrc
    rw [UInt32.toNat_ofNat', UInt32.toNat_ofNat', Nat.mod_eq_of_lt (hlen4 b),
      Nat.mod_eq_of_lt (hlen4 b')] at hof
    have hbytes := ofLE_injective (by simp [hlen]) hof
    by_cases hin : 4 ≤ i ∧ i < 8
    · have hget := congrArg (fun l => l.getD (i - 4) 0) hbytes
      simp only [List.getD_eq_getElem?_getD, List.getElem?_take_of_lt (show i - 4 < 4 by omega),
        List.getElem?_drop, show 4 + (i - 4) = i by omega] at hget
      simpa only [List.getD_eq_getElem?_getD] using hget.symm
    · exact by_contra fun hne => hin (hfield i hne)

end Damages

/-- The header of a frame that carries the first bytes. -/
theorem Carries.slice_eq (hf : Carries b 0 f) (h8 : 8 ≤ b.length) {ofs len : ℕ}
    (hlen : ofs + len ≤ 8) : f.data.slice ofs len = (b.drop ofs).take len := by
  refine Bytes.slice_eq_iff.2 ⟨?_, fun j hj => ?_⟩
  · rw [List.length_take, List.length_drop]
    omega
  · rw [hf.data (ofs + j) (by omega) (by omega), List.getD_eq_getElem?_getD,
      List.getElem?_take_of_lt hj, List.getElem?_drop, ← List.getD_eq_getElem?_getD, Nat.mul_zero,
      Nat.zero_add]

namespace Damaged

theorem canDlc (h : Damaged b k f) : f.canDlc = 8 := by
  obtain ⟨b', i, -, -, hf⟩ := h
  exact hf.canDlc

theorem carries (h : Damaged b k f) (hb : IsPacket c p b) :
    ∃ b', Damages b k b' ∧ f.seqNo < numFrames b.length ∧ Carries b' f.seqNo f := by
  obtain ⟨b', i, hdam, hi, hf⟩ := h
  have hlt : 8 * i < b.length := by rw [numFrames] at hi; omega
  have hseq : f.seqNo = i := by
    have h0 := hf.data 0 (by decide) (by rw [hdam.length]; exact hlt)
    rw [Nat.add_zero, hdam.getD_eq (.inr (.inl (by omega))), Bytes.byteAt_of_lt (by decide)] at h0
    rw [CanFrame.seqNo, ← hb.seqNo i hi, ← h0]
    rfl
  exact ⟨b', hdam, hseq ▸ hi, hseq ▸ hf⟩

/-- A frame with another number is not damaged. -/
theorem carries_of_ne (h : Damaged b k f) (hb : IsPacket c p b) (hdam : Damages b k b')
    (hne : f.seqNo ≠ k) : Carries b' f.seqNo f := by
  obtain ⟨b₁, hdam₁, hlt, hf⟩ := h.carries hb
  refine ⟨hf.canDlc, fun j hj hlen => ?_⟩
  have hdiv : (8 * f.seqNo + j) / 8 ≠ k := by omega
  rw [hf.data j hj (by rwa [hdam₁.length, ← hdam.length]), hdam₁.getD_eq (.inl hdiv),
    hdam.getD_eq (.inl hdiv)]

/-- The frames stored carry one damaged packet. -/
theorem exists_carries {got : List CanFrame} (hnd : (got.map CanFrame.seqNo).Nodup)
    (hgot : ∀ g ∈ got, Damaged b k g) (hb : IsPacket c p b) :
    ∃ b', Damages b k b' ∧ ∀ g ∈ got, Carries b' g.seqNo g := by
  by_cases hk : ∃ g ∈ got, g.seqNo = k
  · obtain ⟨g, hg, rfl⟩ := hk
    obtain ⟨b', hdam, -, hf⟩ := (hgot g hg).carries hb
    refine ⟨b', hdam, fun h hh => ?_⟩
    by_cases hseq : h.seqNo = g.seqNo
    · rwa [Pieces.eq_of_num_eq hnd hh hg hseq]
    · exact (hgot h hh).carries_of_ne hb hdam hseq
  · push Not at hk
    exact ⟨b, .refl b k, fun g hg => (hgot g hg).carries_of_ne hb (.refl b k) (hk g hg)⟩

end Damaged

/-- Frames that pass the check carry the packet undamaged. -/
theorem SeqData.Holds.eq_of_damaged {d : SeqData} {got : List CanFrame} (h : d.Holds got)
    (hgot : ∀ g ∈ got, Damaged b k g) (hb : IsPacket c p b) (hst : d.seqStored = d.seqMax)
    (hcov : Pieces.Covers CanFrame.seqNo got d.seqMax) (hcrc : CANUpdateEngine.CrcOk d) :
    d.seqLen = b.length ∧ d.seqBuffer.slice 0 b.length = b := by
  obtain ⟨b', hdam, hcarries⟩ := Damaged.exists_carries h.nodup hgot hb
  obtain ⟨f, hf, h0, hlen, hmax, hf32⟩ := h.exists_header hst
  have hbytes : Carries b' 0 f := h0 ▸ hcarries f hf
  have h8 : 8 ≤ b'.length := hdam.length ▸ hb.le_length
  have hlen' : d.seqLen = b.length := by
    rw [hlen, CanFrame.headerLen, hbytes.slice_eq h8 (by decide), ← hb.len]
    refine congrArg _ (Damages.take_drop_eq hdam.length fun i h₁ h₂ => hdam.getD_eq ?_)
    omega
  have hslice : d.seqBuffer.slice 0 b.length = b' := by
    refine Bytes.slice_eq_iff.2 ⟨hdam.length, fun j hj => ?_⟩
    have hj8 : j / 8 < d.seqMax := by rw [hmax, ← hlen, hlen', numFrames]; omega
    obtain ⟨g, hg, hgj⟩ := hcov (j / 8) hj8
    have hgc := hcarries g hg
    have hpos : 8 * g.seqNo + j % 8 = j := by omega
    have hdata := h.data g hg (j % 8) (by rw [hgc.canDlc]; omega)
    rw [hgc.data (j % 8) (by omega) (by rw [hpos, hdam.length]; exact hj), hpos] at hdata
    rw [Nat.zero_add, hdata]
  rw [CANUpdateEngine.CrcOk, hlen', hslice, hf32, CanFrame.headerCrc32,
    hbytes.slice_eq h8 (by decide)] at hcrc
  exact ⟨hlen', hslice.trans (hdam.eq_of_crc hb hcrc)⟩

namespace CANUpdateEngine

variable {e : CANUpdateEngine} {got : List CanFrame}

/-- A frame of the packet, possibly damaged, hands over nothing but the packet. -/
theorem receive_damaged (h : Inv e got) (hgot : ∀ g ∈ got, Damaged b k g) (hf : Damaged b k f)
    (hb : IsPacket c p b) (now : ℤ) :
    ∃ e' ev, e.canPacketReceptor now f = .ok (e', ev) ∧ ∀ x ∈ dispatched ev, x = (c, p) := by
  have hrec := receive_cases h now f
  have hstores : ∀ {d ev}, Stores e got now f d ev → dispatched ev = [] := by
    rintro d ev ⟨r, evr, hr, -, -, rfl⟩
    rw [dispatched_append, dispatched_append, dispatched_eq_nil hr.ne_dispatch,
      dispatched_storeEvents, dispatched_stored]
    rfl
  generalize e.canPacketReceptor now f = x at *
  cases hrec with
  | duplicate hr hfree => exact ⟨_, _, rfl, by simp [dispatched_eq_nil hr.ne_dispatch]⟩
  | waits hs hst => exact ⟨_, _, rfl, by simp [hstores hs]⟩
  | rejected hs hst hbad =>
    exact ⟨_, _, rfl, by rw [dispatched_append, hstores hs]; exact fun _ h => nomatch h⟩
  | accepted hs hst hcov hcrc =>
    rename_i d ev
    have hall : ∀ g ∈ storedAfter got ev, Damaged b k g := fun g hg =>
      (hs.mem_storedAfter g hg).elim (hgot g) fun h => h ▸ hf
    obtain ⟨hlen, hslice⟩ := hs.holds.eq_of_damaged hall hb hst hcov hcrc
    obtain ⟨pb, subs, hext, hpb, -⟩ := d.extract_checked hb.le_length hb.length_le
    rw [hslice, hb.payload, hb.type] at hext
    rw [hslice, hb.payload] at hpb
    rw [hlen, hext]
    refine ⟨_, _, rfl, fun x hx => ?_⟩
    have hsubs : dispatched (subs.map fun q => Event.sub q.1 q.2) = [] :=
      dispatched_eq_nil (sub_ne_dispatch subs)
    rw [dispatched_append, hstores hs, accept, dispatched_append, hsubs] at hx
    obtain rfl : x = (c, pb.slice 0 p.length) := by simpa [dispatched, Dispatch.payload] using hx
    rw [hpb]

/-- The frames of a packet come in any order, at any times and any number of times, and the
    copies of one of them may be damaged: nothing but the packet is handed over. -/
theorem undamaged_of_feed (hb : IsPacket c p b) (he : e.inputState = .ready)
    {l : List (ℤ × CanFrame)} (hl : ∀ a ∈ l, Damaged b k a.2) :
    ∃ e' ev, e.feed l = .ok (e', ev) ∧ ∀ x ∈ dispatched ev, x = (c, p) := by
  refine (feed_iff_meets (C := fun _ _ => True) (fun _ ev => ∀ x ∈ dispatched ev, x = (c, p))
    (Damaged b k) (fun e got => Inv e got ∧ ∀ g ∈ got, Damaged b k g) [] ?_ ?_ ?_ ?_
    ⟨inv_of_ready he, nofun⟩ hl).2 (Transition.meets_of_forall fun _ _ _ => trivial)
  · exact fun _ _ h => nomatch h
  · intro got ev₁ ev₂
    rw [dispatched_append]
    exact List.forall_mem_append
  · intro e e' got ev a hI hF hrec
    have hreceives := receives_of_ok hI.1 hrec
    exact ⟨hreceives.inv, fun g hg =>
      (hreceives.mem_storedAfter g hg).elim (hI.2 g) fun h => h ▸ hF⟩
  · exact fun hI hF => iff_of_true (receive_damaged hI.1 hI.2 hF hb _) trivial

end CANUpdateEngine

end Packet

/-- A byte that is replaced is a burst, of at most 8 bits. -/
theorem damages_set {b : List UInt8} {i : ℕ} (hi : i % 8 ≠ 0) (hlen : i ≠ 1 ∧ i ≠ 2) (x : UInt8) :
    Damages b (i / 8) (b.set i x) := by
  have hget : ∀ j, j ≠ i → (b.set i x).getD j 0 = b.getD j 0 := fun j hj => by
    rw [List.getD_eq_getElem?_getD, List.getElem?_set_ne hj.symm, ← List.getD_eq_getElem?_getD]
  have hsame : ∀ j, (b.set i x).getD j 0 ≠ b.getD j 0 → j = i := fun j hne =>
    by_contra fun hj => hne (hget j hj)
  refine ⟨⟨by simp, 8 * i, fun j hne => ?_⟩, fun j hne => ?_, ?_⟩
  · have hj : j / 8 = i := hsame _ fun heq => hne (by rw [bitAt, bitAt, heq])
    omega
  · rw [hsame j hne]
    exact ⟨rfl, hi, hlen⟩
  · by_cases hfield : 4 ≤ i ∧ i < 8
    · exact .inr fun j hne => hsame j hne ▸ hfield
    · exact .inl fun j h₁ h₂ => hget j fun hj => hfield (hj ▸ ⟨h₁, h₂⟩)

/-- The frame number `i` of `b`. -/
def frameOf (b : List UInt8) (i : ℕ) : CanFrame where
  canId := updateCANPacketID
  canDlc := 8
  data j := b.getD (8 * i + j) 0
  canDlc_le := canPayloadMaxLen_le

theorem carries_frameOf (b : List UInt8) (i : ℕ) : Carries b i (frameOf b i) :=
  ⟨rfl, fun _ hj _ => Bytes.byteAt_of_lt hj⟩

/-- The header of an empty packet comes with another type, and then as it is. -/
theorem CANUpdateEngine.undamaged_of_set :
    ∃ e' ev, zeroed.feed [(0, frameOf ((formCANPacket 7 []).set 3 6) 0),
        (5, frameOf (formCANPacket 7 []) 0)] = .ok (e', ev) ∧
      ∀ x ∈ dispatched ev, x = (7, []) := by
  have hb := isPacket_formCANPacket 7 (show ([] : List UInt8).length ≤ maxLogicalPacket by decide)
  refine undamaged_of_feed hb initial_zeroed (k := 0) fun a ha => ?_
  rcases List.mem_cons.1 ha with rfl | ha
  · exact ⟨_, 0, damages_set (i := 3) (by decide) (by decide) 6, hb.numFrames_pos,
      carries_frameOf ..⟩
  · obtain rfl := List.mem_singleton.1 ha
    exact ⟨_, 0, .refl _ 0, hb.numFrames_pos, carries_frameOf ..⟩

end EW8.Can

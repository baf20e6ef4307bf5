import EW8.Config.Model
import EW8.Display.GraphicItem
import EW8.Lib.BitField

/-!
# The value of a signal

A signal of a DBC file is a field of bits of the frames with its message. The grammar of the
file puts what it reads on stacks (`Stacks`), from which the action for a signal takes the
first byte of the field, its first bit there and its length; `extractSignal` takes the value from
a frame.

* The value is taken from one byte: it is that of the field as long as the bits of the field in
  other bytes are 0, and for fields of more than 8 bits depends on a shift that is not defined
  (`extracts_iff`).
-/

namespace EW8.Rx

open EW8.Config
open EW8.Display (QVariant)

/-! ## The action for a signal -/

/-- The vectors that the actions of the grammar work on, from the last element to the first, and
    the signals of the message that is parsed. -/
structure Stacks where
  phrases : List String
  c_identifiers : List String
  signs : List String
  numbers : List Int64
  cansignals : List Signal

/-- The action for `signal`: `none` where one of the vectors is too short. -/
def Stacks.signal : Stacks → Option Stacks
  | ⟨_unit :: phrases, name :: c_identifiers, sign :: signs,
      max :: min :: offset :: factor :: _byteOrder :: signalSize :: startBit :: numbers,
      cansignals⟩ =>
    let cansig : Signal :=
      { name := name
        startByte := (startBit / 8).toUInt64.toUInt32
        startBit := (startBit % 8).toUInt64.toUInt32
        numOfBits := signalSize.toUInt64.toUInt32
        sign := sign == "+"
        factor := factor.toFloat.toBits
        offset := offset.toFloat.toBits
        min := min.toFloat.toBits
        max := max.toFloat.toBits
        valueType := .integer
        AMJsonSignalIdx := 0 }
    some ⟨phrases, c_identifiers, signs, numbers, cansig :: cansignals⟩
  | _ => none

/-! ## Frames -/

/-- The data of a `can_frame`. -/
abbrev Data := ℕ → UInt8

/-- `x >> y`, which is not defined from 32 bits on. -/
def shr (undefinedShift : ℕ → UInt32 → ℕ) (x : ℕ) (y : UInt32) : ℕ :=
  if y < 32 then x >>> y.toNat else undefinedShift x y

/-- The `cut_mask` of `extractSignal`. -/
def cut_mask (undefinedShift : ℕ → UInt32 → ℕ) (numOfBits : UInt32) : UInt8 :=
  .ofNat (shr undefinedShift 0xFF (8 - numOfBits))

/-- The `raw_val` of `extractSignal`. -/
def raw_val (undefinedShift : ℕ → UInt32 → ℕ) (canSignal : Signal) (data : Data) : UInt8 :=
  .ofNat (shr undefinedShift (data canSignal.startByte.toNat).toNat canSignal.startBit &&&
    (cut_mask undefinedShift canSignal.numOfBits).toNat)

/-- `extractSignal`: a `double` is given by its bits, and so 0 and 1 are. -/
def extractSignal (undefinedShift : ℕ → UInt32 → ℕ) (canSignal : Signal) (data : Data) :
    QVariant :=
  let raw_val := raw_val undefinedShift canSignal data
  match canSignal.valueType with
  | .double | .float => .double raw_val.toNat
  | .integer =>
    if canSignal.numOfBits = 1 ∨ (canSignal.min = 0 ∨ canSignal.min = 0x8000000000000000) ∧
        canSignal.max = 0x3FF0000000000000 then .bool (raw_val ≠ 0)
    else .int raw_val.toNat

/-- A frame as a number. -/
def number (data : Data) : ℕ := ofLE ((List.range 8).map data)

/-- The signal is stored for the field of `n` bits from the bit `s` on. -/
def Stored (s n : ℕ) (canSignal : Signal) : Prop :=
  ∃ p p' : Stacks, p.numbers[6]? = some (.ofNat s) ∧ p.numbers[5]? = some (.ofNat n) ∧
    p.signal = some p' ∧ p'.cansignals.head? = some canSignal

/-- The value of the signal is that of the field. -/
def Extracts (undefinedShift : ℕ → UInt32 → ℕ) (canSignal : Signal) (s n : ℕ) (data : Data) :
    Prop :=
  (raw_val undefinedShift canSignal data).toNat = number data >>> s % 2 ^ n

/-! ## The byte that the field starts in -/

section

variable {undefinedShift : ℕ → UInt32 → ℕ} {canSignal : Signal} {data : Data} {s n : ℕ}

/-- Where the field is, for a start bit and a length in a frame. -/
theorem Stored.field (h : Stored s n canSignal) (hs : s < 64) (hn : n ≤ 64) :
    canSignal.startByte.toNat = s / 8 ∧ canSignal.startBit.toNat = s % 8 ∧
      canSignal.numOfBits.toNat = n := by
  obtain ⟨p, p', hstart, hsize, hsignal, hhead⟩ := h
  unfold Stacks.signal at hsignal
  split at hsignal
  · obtain rfl := Option.some.inj hsignal
    obtain rfl := Option.some.inj hhead
    obtain rfl := Option.some.inj hstart
    obtain rfl := Option.some.inj hsize
    have hstart : ∀ s < 64, (Int64.ofNat s / 8).toUInt64.toUInt32.toNat = s / 8 ∧
        (Int64.ofNat s % 8).toUInt64.toUInt32.toNat = s % 8 := by decide +kernel
    have hsize : ∀ n ≤ 64, (Int64.ofNat n).toUInt64.toUInt32.toNat = n := by decide +kernel
    exact ⟨(hstart s hs).1, (hstart s hs).2, hsize n hn⟩
  · exact absurd hsignal (Option.some_ne_none p').symm

/-- The mask has as many bits as the field, up to 8. -/
theorem toNat_cut_mask {numOfBits : UInt32} (h : numOfBits.toNat ≤ 8) :
    (cut_mask undefinedShift numOfBits).toNat = 2 ^ numOfBits.toNat - 1 := by
  have hsub : (8 - numOfBits).toNat = 8 - numOfBits.toNat := UInt32.toNat_sub_of_le _ _ (UInt32.le_iff_toNat_le.2 h)
  have hlt : 8 - numOfBits < 32 := by
    rw [UInt32.lt_iff_toNat_lt, hsub]
    exact (Nat.sub_le _ _).trans_lt (by decide)
  rw [cut_mask, shr, if_pos hlt, hsub]
  interval_cases numOfBits.toNat <;> rfl

/-- What is left of the byte, before the mask. -/
theorem toNat_raw_val (hstart : canSignal.startBit.toNat < 32) :
    (raw_val undefinedShift canSignal data).toNat =
      (data canSignal.startByte.toNat).toNat >>> canSignal.startBit.toNat &&&
        (cut_mask undefinedShift canSignal.numOfBits).toNat := by
  have hlt : canSignal.startBit < 32 := UInt32.lt_iff_toNat_lt.2 hstart
  rw [raw_val, shr, if_pos hlt, UInt8.toNat_ofNat', Nat.mod_eq_of_lt]
  exact (Nat.and_le_right).trans_lt (UInt8.toNat_lt _)

/-- What a mask that is not defined leaves of a byte. -/
theorem and_cut_mask {x : ℕ} (hx : x < 256) (hn : 8 < n) (hn' : n ≤ 64) :
    x &&& (cut_mask undefinedShift (.ofNat n)).toNat =
      x &&& undefinedShift 0xFF (8 - .ofNat n) := by
  have hundefined : ∀ n ≤ 64, 8 < n → ¬8 - UInt32.ofNat n < 32 := by decide +kernel
  rw [cut_mask, shr, if_neg (hundefined n hn' hn), UInt8.toNat_ofNat']
  calc x &&& undefinedShift 0xFF (8 - .ofNat n) % 2 ^ 8
      = x % 2 ^ 8 &&& undefinedShift 0xFF (8 - .ofNat n) % 2 ^ 8 := by rw [Nat.mod_eq_of_lt hx]
    _ = (x &&& undefinedShift 0xFF (8 - .ofNat n)) % 2 ^ 8 := Nat.and_mod_two_pow.symm
    _ = x &&& undefinedShift 0xFF (8 - .ofNat n) := Nat.mod_eq_of_lt (Nat.and_le_left.trans_lt hx)

/-- The bits of the field in the byte that it starts in, and above the field. -/
theorem bitField_number (data : Data) (hs : s < 64) :
    bitField (number data) s (8 - s % 8) = (data (s / 8)).toNat >>> (s % 8) := by
  have hlen : s / 8 < ((List.range 8).map data).length := by
    rw [List.length_map, List.length_range]
    exact Nat.div_lt_of_lt_mul hs
  rw [number, bitField_ofLE hlen, List.getElem_map, List.getElem_range]

theorem extracts_data_iff (h : Stored s n canSignal) (hn : 1 ≤ n) (hs : s + n ≤ 64) (data : Data) :
    Extracts undefinedShift canSignal s n data ↔ number data >>> s % 2 ^ n < 2 ^ (8 - s % 8) ∧
      (n ≤ 8 ∨ (data (s / 8)).toNat >>> (s % 8) &&& undefinedShift 0xFF (8 - .ofNat n) =
        (data (s / 8)).toNat >>> (s % 8)) := by
  obtain ⟨hbyte, hbit, hbits⟩ := h.field (by omega) (by omega)
  have hs64 : s < 64 := by omega
  have hfield := bitField_number data hs64
  have hlt : bitField (number data) s (8 - s % 8) < 2 ^ (8 - s % 8) := bitField_lt
  rw [Extracts, toNat_raw_val (by omega), hbyte, hbit, ← hfield]
  change _ = bitField (number data) s n ↔ bitField (number data) s n < _ ∧ _
  by_cases h8 : n ≤ 8
  · rw [toNat_cut_mask (by omega), hbits, Nat.and_two_pow_sub_one_eq_mod, and_iff_left (.inl h8)]
    rcases le_total n (8 - s % 8) with hle | hle
    · -- the field does not go on to the next byte
      have hin : bitField (number data) s n < 2 ^ (8 - s % 8) :=
        bitField_lt.trans_le (Nat.pow_le_pow_right two_pos hle)
      exact iff_of_true (bitField_mod hle) hin
    · rw [Nat.mod_eq_of_lt (hlt.trans_le (Nat.pow_le_pow_right two_pos hle))]
      exact bitField_eq_iff hle
  · have hle : 8 - s % 8 ≤ n := by omega
    have h256 : bitField (number data) s (8 - s % 8) < 256 :=
      hlt.trans_le (Nat.pow_le_pow_right two_pos (Nat.sub_le 8 _))
    have hbits : canSignal.numOfBits = .ofNat n := by rw [← hbits, UInt32.ofNat_toNat]
    rw [hbits, and_cut_mask h256 (by omega) (by omega), or_iff_right h8]
    constructor
    · intro heq
      have hin : bitField (number data) s n < 2 ^ (8 - s % 8) :=
        heq ▸ Nat.and_le_left.trans_lt hlt
      exact ⟨hin, heq.trans ((bitField_eq_iff hle).2 hin).symm⟩
    · rintro ⟨hin, heq⟩
      exact heq.trans ((bitField_eq_iff hle).2 hin)

/-- The value of a signal is that of its field exactly in the frames in which the bits of the field
    in other bytes than the first one are 0, if the field has at most 8 bits, and else as far as the
    mask leaves those in the first one; so in all frames exactly if the field is in one byte. -/
theorem extracts_iff (undefinedShift : ℕ → UInt32 → ℕ) (h : Stored s n canSignal) (hn : 1 ≤ n)
    (hs : s + n ≤ 64) :
    (∀ data, Extracts undefinedShift canSignal s n data ↔
      number data >>> s % 2 ^ n < 2 ^ (8 - s % 8) ∧
        (n ≤ 8 ∨ (data (s / 8)).toNat >>> (s % 8) &&& undefinedShift 0xFF (8 - .ofNat n) =
          (data (s / 8)).toNat >>> (s % 8))) ∧
      ((∀ data, Extracts undefinedShift canSignal s n data) ↔ s % 8 + n ≤ 8) := by
  refine ⟨extracts_data_iff h hn hs, fun hall => ?_, fun hle data => ?_⟩
  · -- the frame all of whose bits are 1
    have hones : number (fun _ => 0xFF) = 2 ^ 64 - 1 := rfl
    have hfield : bitField (2 ^ 64 - 1) s n < 2 ^ (8 - s % 8) :=
      ((extracts_data_iff h hn hs fun _ => 0xFF).1 (hall _)).1
    rw [bitField_two_pow_sub_one hs] at hfield
    have hle : n ≤ 8 - s % 8 := by
      by_contra hlt
      have hpow : 2 ^ (8 - s % 8 + 1) ≤ 2 ^ n := Nat.pow_le_pow_right two_pos (not_le.1 hlt)
      rw [pow_succ] at hpow
      have hpos := Nat.two_pow_pos (8 - s % 8)
      omega
    omega
  · have hin : number data >>> s % 2 ^ n < 2 ^ (8 - s % 8) :=
      (bitField_lt (x := number data) (s := s) (n := n)).trans_le
        (Nat.pow_le_pow_right two_pos (by omega))
    exact (extracts_data_iff h hn hs data).2 ⟨hin, .inl (by omega)⟩

end

/-- A signal of 8 bits from the bit 9 on, as the grammar reads it. -/
def crossingStacks : Stacks where
  phrases := ["sec"]
  c_identifiers := ["TFL_TTC"]
  signs := ["+"]
  numbers := [5, 0, 0, 0, 1, 8, 9]
  cansignals := []

/-- The signal that is stored for it. -/
def crossingSignal : Signal where
  name := "TFL_TTC"
  startByte := 1
  startBit := 1
  numOfBits := 8
  sign := true
  factor := (0 : Int64).toFloat.toBits
  offset := (0 : Int64).toFloat.toBits
  min := (0 : Int64).toFloat.toBits
  max := (5 : Int64).toFloat.toBits
  valueType := .integer
  AMJsonSignalIdx := 0

theorem stored_crossingSignal : Stored 9 8 crossingSignal :=
  ⟨crossingStacks, ⟨[], [], [], [], [crossingSignal]⟩, rfl, rfl, rfl, rfl⟩

/-- The value of this signal is that of its field where the first bit of the third byte is 0. -/
theorem extracts_crossingSignal :
    (∀ data, Extracts (fun _ _ => 0) crossingSignal 9 8 data ↔
      number data >>> 9 % 2 ^ 8 < 2 ^ (8 - 9 % 8) ∧
        (8 ≤ 8 ∨ (data (9 / 8)).toNat >>> (9 % 8) &&& (fun _ _ => 0) 0xFF (8 - UInt32.ofNat 8) =
          (data (9 / 8)).toNat >>> (9 % 8))) ∧
      ((∀ data, Extracts (fun _ _ => 0) crossingSignal 9 8 data) ↔ 9 % 8 + 8 ≤ 8) :=
  extracts_iff (fun _ _ => 0) stored_crossingSignal (by norm_num) (by norm_num)

/-- Where it is 1, it is lost. -/
theorem extracts_fails_of_crossing :
    ¬ ∀ (undefinedShift : ℕ → UInt32 → ℕ) (s n : ℕ) (canSignal : Signal), 1 ≤ n → s + n ≤ 64 →
      Stored s n canSignal → ∀ data, Extracts undefinedShift canSignal s n data := by
  intro hall
  have h := hall (fun _ _ => 0) 9 8 crossingSignal (by norm_num) (by norm_num)
    stored_crossingSignal fun i => if i = 2 then 1 else 0
  exact absurd h (by unfold Extracts; decide)

end EW8.Rx

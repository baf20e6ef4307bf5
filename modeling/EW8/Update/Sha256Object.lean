import EW8.Lib.Blocks
import EW8.Lib.Memory
import EW8.Lib.Transition
import EW8.Update.Sha256

/-!
# The hash of a stream

`SHA256` as an object: the bytes come in pieces, in calls of `add`, and the hash of what came
so far can be asked for at any time. A block that is not complete waits in `m_buffer`, and
`processBuffer` writes the padding behind it in place, or over into a second block `extra`
that nothing initialises.

Whatever the calls, `getHash` gives the hash of the bytes added since the last `reset`, and
no access leaves an array (`answers_run`).
-/

namespace EW8.Update.SHA256

/-- The arrays that are written at a computed index. -/
inductive Buffer
  | m_buffer
  | extra
  deriving DecidableEq, Repr

/-- A `SHA256` object. -/
structure Object where
  m_numBytes : UInt64
  m_bufferSize : ℕ
  m_buffer : Bytes 64
  m_hash : Words

/-- An access is in bounds, or it is the last. -/
abbrev Checked (β : Type) := Except (OutOfBounds Buffer) β

namespace Object

variable (o : Object)

/-- `reset`. -/
def reset : Object := { o with m_numBytes := 0, m_bufferSize := 0, m_hash := SHA256.reset }

/-- The constructor, on memory that holds anything. -/
def construct (memory : Object) : Object := memory.reset

/-- `m_buffer[m_bufferSize++] = byte`. -/
def push (byte : UInt8) : Checked Object := do
  let buffer ← o.m_buffer.write .m_buffer o.m_bufferSize [byte]
  return { o with m_buffer := buffer, m_bufferSize := o.m_bufferSize + 1 }

/-- The first loop of `add`, with the bytes it leaves. -/
def fill : Object → List UInt8 → Checked (Object × List UInt8)
  | o, [] => return (o, [])
  | o, byte :: current =>
    if o.m_bufferSize < 64 then do
      let o ← o.push byte
      fill o current
    else return (o, byte :: current)

/-- "process full blocks": the object and the bytes it leaves, of `current`. -/
def full : ℕ → Object → List UInt8 → Object × List UInt8
  | 0, o, current => (o, current)
  | fuel + 1, o, current =>
    if 64 ≤ current.length then
      full fuel { o with m_hash := o.m_hash.processBlock (current.take 64)
                         m_numBytes := o.m_numBytes + 64 } (current.drop 64)
    else (o, current)

/-- "keep remaining bytes in buffer". -/
def keep : Object → List UInt8 → Checked Object
  | o, [] => return o
  | o, byte :: current => do
    let o ← o.push byte
    keep o current

/-- `add`. -/
def add (data : List UInt8) : Checked Object := do
  let (o, current) ← if 0 < o.m_bufferSize then o.fill data else pure (o, data)
  let o : Object :=
    if o.m_bufferSize = 64 then
      { o with m_hash := o.m_hash.processBlock (o.m_buffer.slice 0 64)
               m_numBytes := o.m_numBytes + 64
               m_bufferSize := 0 }
    else o
  if current.length = 0 then return o
  let (o, current) := o.full current.length current
  o.keep current

/-- `paddedLength`, in bytes. -/
def paddedLength : ℕ :=
  let paddedLength := o.m_bufferSize * 8 + 1
  let lower11Bits := paddedLength % 512
  (if lower11Bits ≤ 448 then paddedLength + (448 - lower11Bits)
    else paddedLength + (512 + 448 - lower11Bits)) / 8

/-- The bytes of `msgBits`. -/
def lengthBytes (msgBits : UInt64) : List UInt8 :=
  [(msgBits >>> 56).toUInt8, (msgBits >>> 48).toUInt8, (msgBits >>> 40).toUInt8,
    (msgBits >>> 32).toUInt8, (msgBits >>> 24).toUInt8, (msgBits >>> 16).toUInt8,
    (msgBits >>> 8).toUInt8, msgBits.toUInt8]

/-- `processBuffer`; `extra` is what the memory of its second block holds. -/
def processBuffer (extra : Bytes 64) : Checked Object := do
  let (buffer, extra) ←
    if o.m_bufferSize < 64 then do
      let buffer ← o.m_buffer.write .m_buffer o.m_bufferSize [128]
      pure (buffer, extra)
    else do
      let extra ← extra.write .extra 0 [128]
      pure (o.m_buffer, extra)
  let i := o.m_bufferSize + 1
  let buffer ← buffer.write .m_buffer i (List.replicate (64 - i) 0)
  let i := max i 64
  let extra ← extra.write .extra (i - 64) (List.replicate (o.paddedLength - i) 0)
  let msgBits := 8 * (o.m_numBytes + UInt64.ofNat o.m_bufferSize)
  let (buffer, extra) ←
    if o.paddedLength < 64 then do
      let buffer ← buffer.write .m_buffer o.paddedLength (lengthBytes msgBits)
      pure (buffer, extra)
    else do
      let extra ← extra.write .extra (o.paddedLength - 64) (lengthBytes msgBits)
      pure (buffer, extra)
  let hash := o.m_hash.processBlock (buffer.slice 0 64)
  let hash := if 64 < o.paddedLength then hash.processBlock (extra.slice 0 64) else hash
  return { o with m_buffer := buffer, m_hash := hash }

/-- `getHash`: the hash, and the object with its old words. -/
def getHash (extra : Bytes 64) : Checked (SHA2Store × Object) := do
  let oldHash := o.m_hash
  let o ← o.processBuffer extra
  return (⟨o.m_hash.bytes.toArray, o.m_hash.length_bytes⟩, { o with m_hash := oldHash })

end Object

/-- A call of a method. -/
inductive Call
  | reset
  | add (data : List UInt8)
  | getHash (extra : Bytes 64)

/-- The object after the call, and the hash that it gives. -/
def Object.call (o : Object) : Call → Checked (Object × List SHA2Store)
  | .reset => return (o.reset, [])
  | .add data => return (← o.add data, [])
  | .getHash extra => do
    let (hash, o) ← o.getHash extra
    return (o, [hash])

/-- The hashes that the calls give, one after the other. -/
def Object.answers : Object → List Call → Checked (List SHA2Store)
  | _, [] => return []
  | o, call :: calls => do
    let (o, hash) ← o.call call
    return hash ++ (← answers o calls)

/-- What the calls are to give: a hash is that of the bytes `data` added since the last
    `reset`. -/
def hashes : List UInt8 → List Call → List SHA2Store
  | _, [] => []
  | _, .reset :: calls => hashes [] calls
  | data, .add piece :: calls => hashes (data ++ piece) calls
  | data, .getHash _ :: calls => sha256 data :: hashes data calls

namespace Object

variable {o o' : Object} {data l : List UInt8}

/-! ### `add` -/

/-- The bytes `l` are added to the buffer, and nothing else changes. -/
structure Appended (o : Object) (l : List UInt8) (o' : Object) : Prop where
  numBytes : o'.m_numBytes = o.m_numBytes
  hash : o'.m_hash = o.m_hash
  bufferSize : o'.m_bufferSize = o.m_bufferSize + l.length
  slice : o'.m_buffer.slice 0 o'.m_bufferSize = o.m_buffer.slice 0 o.m_bufferSize ++ l

theorem Appended.refl (o : Object) : Appended o [] o :=
  ⟨rfl, rfl, rfl, (List.append_nil _).symm⟩

theorem Appended.trans {o₁ o₂ : Object} {l₁ l₂ : List UInt8} (h₁ : Appended o l₁ o₁)
    (h₂ : Appended o₁ l₂ o₂) : Appended o (l₁ ++ l₂) o₂ where
  numBytes := h₂.numBytes.trans h₁.numBytes
  hash := h₂.hash.trans h₁.hash
  bufferSize := by rw [h₂.bufferSize, h₁.bufferSize, List.length_append, Nat.add_assoc]
  slice := by rw [h₂.slice, h₁.slice, List.append_assoc]

theorem push_eq {byte : UInt8} (h : o.m_bufferSize < 64) :
    ∃ o', o.push byte = .ok o' ∧ Appended o [byte] o' := by
  have hwrite : o.m_buffer.write Buffer.m_buffer o.m_bufferSize [byte] =
      .ok (o.m_buffer.patch o.m_bufferSize [byte]) := Bytes.write_eq h
  refine ⟨{ o with m_buffer := o.m_buffer.patch o.m_bufferSize [byte]
                   m_bufferSize := o.m_bufferSize + 1 }, ?_, rfl, rfl, rfl, ?_⟩
  · rw [push, hwrite]
    rfl
  have hkeep : (o.m_buffer.patch o.m_bufferSize [byte]).slice 0 o.m_bufferSize =
      o.m_buffer.slice 0 o.m_bufferSize :=
    Bytes.slice_congr fun i hi => Bytes.byteAt_patch_of_not_mem (.inl (by omega))
  rw [Bytes.slice_add, hkeep, Nat.zero_add]
  exact congrArg _ (Bytes.slice_patch_self h)

theorem keep_eq (h : o.m_bufferSize + l.length ≤ 64) :
    ∃ o', o.keep l = .ok o' ∧ Appended o l o' := by
  induction l generalizing o with
  | nil => exact ⟨o, rfl, .refl o⟩
  | cons byte l ih =>
    rw [List.length_cons] at h
    obtain ⟨o₁, hpush, h₁⟩ := @push_eq o byte (by omega)
    have hsize : o₁.m_bufferSize = o.m_bufferSize + 1 := h₁.bufferSize
    obtain ⟨o₂, hkeep, h₂⟩ := @ih o₁ (by omega)
    exact ⟨o₂, by rw [keep, hpush]; exact hkeep, h₁.trans h₂⟩

/-- `fill` appends what fits. -/
theorem fill_eq (h : o.m_bufferSize ≤ 64) :
    ∃ o', o.fill l = .ok (o', l.drop (64 - o.m_bufferSize)) ∧
      Appended o (l.take (64 - o.m_bufferSize)) o' := by
  induction l generalizing o with
  | nil => exact ⟨o, by simp [fill, pure, Except.pure], by simpa using Appended.refl o⟩
  | cons byte l ih =>
    rw [fill]
    by_cases hlt : o.m_bufferSize < 64
    · obtain ⟨o₁, hpush, h₁⟩ := @push_eq o byte hlt
      have hsize : o₁.m_bufferSize = o.m_bufferSize + 1 := h₁.bufferSize
      obtain ⟨o₂, hfill, h₂⟩ := @ih o₁ (by omega)
      obtain ⟨k, hk⟩ : ∃ k, 64 - o.m_bufferSize = k + 1 := ⟨63 - o.m_bufferSize, by omega⟩
      rw [show 64 - o₁.m_bufferSize = k by omega] at hfill h₂
      rw [if_pos hlt, hpush, hk, List.drop_succ_cons, List.take_succ_cons]
      exact ⟨o₂, hfill, h₁.trans h₂⟩
    · rw [if_neg hlt, Nat.sub_eq_zero_of_le (not_lt.1 hlt)]
      exact ⟨o, rfl, .refl o⟩

/-- `full` takes the complete blocks. -/
theorem full_eq {fuel : ℕ} (h : l.length ≤ fuel) :
    o.full fuel l =
      ({ o with m_hash := Blocks.take Words.processBlock 64 (l.length / 64) o.m_hash l
                m_numBytes := o.m_numBytes + UInt64.ofNat (l.length / 64 * 64) },
        l.drop (l.length / 64 * 64)) := by
  induction fuel generalizing o l with
  | zero =>
    obtain rfl := List.length_eq_zero_iff.1 (Nat.le_zero.1 h)
    simp [full, Blocks.take]
  | succ fuel ih =>
    rw [full]
    split
    · next hle =>
      have hdrop : (l.drop 64).length = l.length - 64 := List.length_drop
      obtain ⟨k, hk⟩ : ∃ k, l.length / 64 = k + 1 := ⟨l.length / 64 - 1, by omega⟩
      have hk' : (l.drop 64).length / 64 = k := by omega
      rw [ih (by omega), hk', hk, Blocks.take, List.drop_drop]
      have hnum : UInt64.ofNat ((k + 1) * 64) = 64 + UInt64.ofNat (k * 64) := by
        rw [Nat.succ_mul, Nat.add_comm, UInt64.ofNat_add]
        rfl
      rw [hnum, Nat.succ_mul, Nat.add_comm 64, ← UInt64.add_assoc]
    · next hlt =>
      rw [Nat.div_eq_of_lt (by omega)]
      simp [Blocks.take]

/-- The object has taken `data`: its complete blocks, with the rest in the buffer. -/
structure Holds (o : Object) (data : List UInt8) : Prop where
  taken : Blocks.Taken Words.processBlock 64 SHA256.reset data o.m_hash
    (o.m_buffer.slice 0 o.m_bufferSize)
  numBytes : o.m_numBytes = UInt64.ofNat (data.length / 64 * 64)

theorem holds_reset (o : Object) : o.reset.Holds [] := ⟨.nil (by omega), rfl⟩

theorem Holds.bufferSize_eq (h : o.Holds data) : o.m_bufferSize = data.length % 64 := by
  simpa using h.taken.length

theorem Holds.bufferSize_lt (h : o.Holds data) : o.m_bufferSize < 64 := by
  simpa using h.taken.lt

theorem Appended.holds (happ : Appended o l o') (h : o.Holds data)
    (hlt : o.m_bufferSize + l.length < 64) : o'.Holds (data ++ l) := by
  have hsize := h.bufferSize_eq
  have htaken := h.taken.keep (l := l) (by simpa using hlt)
  refine ⟨by rwa [happ.hash, happ.slice], ?_⟩
  rw [happ.numBytes, h.numBytes, List.length_append]
  congr 2
  omega

/-- A block that the piece completes is processed. -/
theorem Appended.holds_block (happ : Appended o l o') (h : o.Holds data)
    (heq : o.m_bufferSize + l.length = 64) :
    Holds { o' with m_hash := o'.m_hash.processBlock (o'.m_buffer.slice 0 64)
                    m_numBytes := o'.m_numBytes + 64
                    m_bufferSize := 0 } (data ++ l) := by
  have hsize := h.bufferSize_eq
  have hslice := happ.slice
  rw [happ.bufferSize, heq] at hslice
  refine ⟨?_, ?_⟩
  · simp only [happ.hash, hslice, Bytes.slice_zero]
    exact h.taken.take (by simpa using heq)
  · simp only [happ.numBytes, h.numBytes, List.length_append]
    rw [show (data.length + l.length) / 64 * 64 = data.length / 64 * 64 + 64 by omega,
      UInt64.ofNat_add]
    rfl

/-- What is left when the buffer is empty: complete blocks, and the rest into the buffer. -/
theorem Holds.full_keep (h : o.Holds data) (hempty : o.m_bufferSize = 0) :
    ∃ o', (o.full l.length l).1.keep (o.full l.length l).2 = .ok o' ∧ o'.Holds (data ++ l) := by
  rw [full_eq le_rfl]
  set k := l.length / 64
  have hblocks := h.taken
  rw [hempty, Bytes.slice_zero] at hblocks
  have hall := hblocks.takeAll (show k * 64 ≤ l.length by omega)
  have hfull : Holds { o with m_hash := Blocks.take Words.processBlock 64 k o.m_hash l
                              m_numBytes := o.m_numBytes + UInt64.ofNat (k * 64) }
      (data ++ l.take (k * 64)) := by
    refine ⟨by simpa only [hempty, Bytes.slice_zero] using hall, ?_⟩
    have hsize := h.bufferSize_eq
    have htake : (l.take (k * 64)).length = k * 64 := by rw [List.length_take]; omega
    simp only [h.numBytes, List.length_append, htake]
    rw [← UInt64.ofNat_add]
    congr 1
    omega
  have hrest : (l.drop (k * 64)).length < 64 := by rw [List.length_drop]; omega
  obtain ⟨o', hkeep, happ⟩ := keep_eq (o := { o with
    m_hash := Blocks.take Words.processBlock 64 k o.m_hash l
    m_numBytes := o.m_numBytes + UInt64.ofNat (k * 64) }) (l := l.drop (k * 64))
    (by simp only [hempty]; omega)
  refine ⟨o', hkeep, ?_⟩
  have := happ.holds hfull (by simp only [hempty]; omega)
  rwa [List.append_assoc, List.take_append_drop] at this

/-- `add` takes its piece. -/
theorem Holds.add (h : o.Holds data) : ∃ o', o.add l = .ok o' ∧ o'.Holds (data ++ l) := by
  have hlt := h.bufferSize_lt
  rw [Object.add]
  by_cases hempty : o.m_bufferSize = 0
  · rw [if_neg (by omega)]
    simp only [pure_bind, if_neg (show o.m_bufferSize ≠ 64 by omega)]
    split
    · next hl => exact ⟨o, rfl, by rwa [List.length_eq_zero_iff.1 hl, List.append_nil]⟩
    · exact h.full_keep hempty
  · obtain ⟨o₁, hfill, happ⟩ := fill_eq (l := l) hlt.le
    have hsize := happ.bufferSize
    rw [List.length_take] at hsize
    rw [if_pos (by omega), hfill]
    simp only [bind, Except.bind]
    by_cases hshort : o.m_bufferSize + l.length < 64
    · -- The piece does not complete the block.
      rw [List.take_of_length_le (by omega)] at happ
      have hdrop : (l.drop (64 - o.m_bufferSize)).length = 0 := by rw [List.length_drop]; omega
      rw [if_neg (show o₁.m_bufferSize ≠ 64 by omega), if_pos hdrop]
      exact ⟨o₁, rfl, happ.holds h hshort⟩
    · have hblock := happ.holds_block h (by rw [List.length_take]; omega)
      rw [if_pos (show o₁.m_bufferSize = 64 by omega)]
      split
      · next hdrop =>
        refine ⟨_, rfl, ?_⟩
        rwa [List.take_of_length_le (by rw [List.length_drop] at hdrop; omega)] at hblock
      · obtain ⟨o', hkeep, hholds⟩ := hblock.full_keep (l := l.drop (64 - o.m_bufferSize)) rfl
        rw [List.append_assoc, List.take_append_drop] at hholds
        exact ⟨o', hkeep, hholds⟩

/-! ### `getHash` -/

theorem processBlocks_eq (k : ℕ) (s : Words) (data : List UInt8) :
    s.processBlocks k data = Blocks.take Words.processBlock 64 k s data := by
  induction k generalizing s data with
  | zero => rfl
  | succ k ih => rw [Words.processBlocks, ih, Blocks.take]

theorem toUInt8_shiftRight (m : ℕ) {k : ℕ} (h : k ≤ 56) :
    (UInt64.ofNat m >>> UInt64.ofNat k).toUInt8 = UInt8.ofNat (m / 2 ^ k) := by
  refine UInt8.toNat_inj.1 (Nat.eq_of_testBit_eq fun i => ?_)
  have hk : k % 2 ^ 64 % 64 = k := by omega
  simp only [UInt64.toNat_toUInt8, UInt64.toNat_shiftRight, UInt64.toNat_ofNat', hk,
    UInt8.toNat_ofNat', Nat.testBit_mod_two_pow, Nat.testBit_shiftRight, Nat.testBit_div_two_pow]
  by_cases hi : i < 8
  · simp [hi, show k + i < 64 by omega, Nat.add_comm]
  · simp [hi]

/-- `msgBits` counts the bits of all bytes, modulo its range. -/
theorem lengthBytes_eq (n : ℕ) :
    lengthBytes (8 * (UInt64.ofNat (n / 64 * 64) + UInt64.ofNat (n % 64))) =
      (List.range 8).map fun i => UInt8.ofNat (8 * n / 2 ^ (8 * (7 - i))) := by
  have hbits : 8 * (UInt64.ofNat (n / 64 * 64) + UInt64.ofNat (n % 64)) = UInt64.ofNat (8 * n) := by
    rw [← UInt64.ofNat_add, Nat.div_add_mod', UInt64.ofNat_mul]
    rfl
  have hlast : (UInt64.ofNat (8 * n)).toUInt8 = UInt8.ofNat (8 * n / 2 ^ 0) := by
    rw [pow_zero, Nat.div_one]
    exact UInt64.toUInt8_ofNat ..
  rw [hbits, lengthBytes, hlast]
  have h := fun k (hk : k ≤ 56) => @toUInt8_shiftRight (8 * n) k hk
  simp only [List.range_eq_range', List.range'_succ, List.range'_zero, List.map_cons, List.map_nil]
  exact congrArg₂ _ (h 56 (by omega)) <| congrArg₂ _ (h 48 (by omega)) <|
    congrArg₂ _ (h 40 (by omega)) <| congrArg₂ _ (h 32 (by omega)) <|
    congrArg₂ _ (h 24 (by omega)) <| congrArg₂ _ (h 16 (by omega)) <|
    congrArg₂ _ (h 8 (by omega)) rfl

theorem slice_patch_of_le {m : Bytes 64} {ofs k : ℕ} {src : List UInt8} (h : k ≤ ofs) :
    (m.patch ofs src).slice 0 k = m.slice 0 k :=
  Bytes.slice_congr fun i hi => Bytes.byteAt_patch_of_not_mem (.inl (by omega))

/-- The bit and the zeros behind the first `r` bytes of a block. -/
theorem slice_marked {m : Bytes 64} {r k : ℕ} (hr : r < k) (hk : k ≤ 64) :
    ((m.patch r [128]).patch (r + 1) (List.replicate (64 - (r + 1)) 0)).slice 0 k =
      m.slice 0 r ++ 128 :: List.replicate (k - r - 1) 0 := by
  have hmark := @Bytes.patch_patch_append _ m r [128] (List.replicate (64 - (r + 1)) 0)
  rw [List.length_singleton] at hmark
  have hfits : r + ([128] ++ List.replicate (64 - (r + 1)) (0 : UInt8)).length ≤ 64 := by
    simp only [List.length_append, List.length_singleton, List.length_replicate]
    omega
  have hself := Bytes.slice_patch_self (m := m) hfits
  rw [List.length_append, List.length_singleton, List.length_replicate,
    show 1 + (64 - (r + 1)) = 64 - r by omega] at hself
  obtain ⟨j, rfl⟩ := Nat.exists_eq_add_of_lt hr
  have hrest := @Bytes.take_slice _ (m.patch r ([128] ++ List.replicate (64 - (r + 1)) 0)) r _ _
    (show j + 1 ≤ 64 - r by omega)
  rw [hself, List.singleton_append, List.take_succ_cons, List.take_replicate,
    Nat.min_eq_left (show j ≤ 64 - (r + 1) by omega)] at hrest
  rw [hmark, show r + j + 1 = r + (j + 1) by omega, Bytes.slice_add, slice_patch_of_le le_rfl,
    Nat.zero_add, List.singleton_append, ← hrest, show r + (j + 1) - r - 1 = j by omega]

/-- The padding fits into the block, -/
theorem processBuffer_one {r : ℕ} (hr : o.m_bufferSize = r) (h : r < 56) (extra : Bytes 64) :
    ∃ buffer, o.processBuffer extra = .ok { o with
        m_buffer := buffer
        m_hash := o.m_hash.processBlock (o.m_buffer.slice 0 r ++
          128 :: List.replicate (55 - r) 0 ++
          lengthBytes (8 * (o.m_numBytes + UInt64.ofNat r))) } ∧
      buffer.slice 0 r = o.m_buffer.slice 0 r := by
  set len := lengthBytes (8 * (o.m_numBytes + UInt64.ofNat r)) with hlen
  have hpadded : o.paddedLength = 56 := by
    rw [paddedLength, hr, if_pos (by omega)]
    omega
  set marked := (o.m_buffer.patch r [128]).patch (r + 1) (List.replicate (64 - (r + 1)) 0)
  have hmark : o.m_buffer.write Buffer.m_buffer r [128] = .ok (o.m_buffer.patch r [128]) :=
    Bytes.write_eq (by rw [List.length_singleton]; omega)
  have hzeros : (o.m_buffer.patch r [128]).write Buffer.m_buffer (r + 1)
      (List.replicate (64 - (r + 1)) 0) = .ok marked :=
    Bytes.write_eq (by rw [List.length_replicate]; omega)
  have hextra : extra.write Buffer.extra (max (r + 1) 64 - 64)
      (List.replicate (56 - max (r + 1) 64) 0) = .ok extra := by
    rw [Nat.max_eq_right (by omega)]
    exact (Bytes.write_eq (by simp)).trans (by simp)
  have hlength : marked.write Buffer.m_buffer 56 len = .ok (marked.patch 56 len) :=
    Bytes.write_eq le_rfl
  refine ⟨marked.patch 56 len, ?_, ?_⟩
  · simp only [processBuffer, hpadded, bind, Except.bind, pure, Except.pure, hmark, hzeros, hextra,
      hlength, hr, if_pos (show r < 64 by omega), if_pos (show 56 < 64 by omega),
      if_neg (show ¬ 64 < 56 by omega), ← hlen]
    have hfirst : (marked.patch 56 len).slice 0 56 = o.m_buffer.slice 0 r ++
        128 :: List.replicate (55 - r) 0 := by
      rw [slice_patch_of_le le_rfl, slice_marked h (by omega), show 56 - r - 1 = 55 - r by omega]
    have hblock : (marked.patch 56 len).slice 0 64 = o.m_buffer.slice 0 r ++
        128 :: List.replicate (55 - r) 0 ++ len := by
      rw [Bytes.slice_add 0 56 8, hfirst]
      exact congrArg _ (Bytes.slice_patch_self (show 56 + len.length ≤ 64 from le_rfl))
    rw [hblock]
  · rw [slice_patch_of_le h.le, slice_patch_of_le (Nat.le_succ r), slice_patch_of_le le_rfl]

/-- or it goes on in `extra`. -/
theorem processBuffer_two {r : ℕ} (hr : o.m_bufferSize = r) (h : 56 ≤ r) (hlt : r < 64)
    (extra : Bytes 64) :
    ∃ buffer, o.processBuffer extra = .ok { o with
        m_buffer := buffer
        m_hash := (o.m_hash.processBlock (o.m_buffer.slice 0 r ++
          128 :: List.replicate (63 - r) 0)).processBlock (List.replicate 56 0 ++
          lengthBytes (8 * (o.m_numBytes + UInt64.ofNat r))) } ∧
      buffer.slice 0 r = o.m_buffer.slice 0 r := by
  set len := lengthBytes (8 * (o.m_numBytes + UInt64.ofNat r)) with hlen
  have hpadded : o.paddedLength = 120 := by
    rw [paddedLength, hr]
    split <;> omega
  set marked := (o.m_buffer.patch r [128]).patch (r + 1) (List.replicate (64 - (r + 1)) 0)
  have hmark : o.m_buffer.write Buffer.m_buffer r [128] = .ok (o.m_buffer.patch r [128]) :=
    Bytes.write_eq (by rw [List.length_singleton]; omega)
  have hzeros : (o.m_buffer.patch r [128]).write Buffer.m_buffer (r + 1)
      (List.replicate (64 - (r + 1)) 0) = .ok marked :=
    Bytes.write_eq (by rw [List.length_replicate]; omega)
  have hextra : extra.write Buffer.extra (max (r + 1) 64 - 64)
      (List.replicate (120 - max (r + 1) 64) 0) = .ok (extra.patch 0 (List.replicate 56 0)) := by
    rw [Nat.max_eq_right (by omega)]
    exact Bytes.write_eq (by simp)
  have hlength : (extra.patch 0 (List.replicate 56 0)).write Buffer.extra (120 - 64) len =
      .ok (extra.patch 0 (List.replicate 56 0 ++ len)) := by
    rw [← Bytes.patch_patch_append]
    exact Bytes.write_eq (show 120 - 64 + 8 ≤ 64 by omega)
  refine ⟨marked, ?_, ?_⟩
  · simp only [processBuffer, hpadded, bind, Except.bind, pure, Except.pure, hmark, hzeros, hextra,
      hlength, hr, if_pos (show r < 64 by omega), if_neg (show ¬ 120 < 64 by omega),
      if_pos (show 64 < 120 by omega), ← hlen]
    have hsecond : (extra.patch 0 (List.replicate 56 0 ++ len)).slice 0 64 =
        List.replicate 56 0 ++ len :=
      Bytes.slice_patch_self (show 0 + (List.replicate 56 0 ++ len).length ≤ 64 from le_rfl)
    rw [slice_marked hlt le_rfl, hsecond, show 64 - r - 1 = 63 - r by omega]
  · rw [slice_patch_of_le (Nat.le_succ r), slice_patch_of_le le_rfl]

/-- The words of the padded bytes. -/
theorem Holds.processBuffer (h : o.Holds data) (extra : Bytes 64) :
    ∃ buffer, o.processBuffer extra = .ok { o with
        m_buffer := buffer
        m_hash := SHA256.reset.processBlocks ((data ++ padding data.length).length / 64)
          (data ++ padding data.length) } ∧
      buffer.slice 0 o.m_bufferSize = o.m_buffer.slice 0 o.m_bufferSize := by
  have hlt := h.bufferSize_lt
  have hsize := h.bufferSize_eq
  have hlen := lengthBytes_eq data.length
  rw [← h.numBytes, ← hsize] at hlen
  set r := o.m_bufferSize
  set len := lengthBytes (8 * (o.m_numBytes + UInt64.ofNat r))
  have hlength : len.length = 8 := rfl
  have hpadding : padding data.length =
      128 :: List.replicate ((119 - r) % 64) 0 ++ len := by rw [hlen, hsize]; rfl
  by_cases hone : r < 56
  · obtain ⟨buffer, hbuffer, hslice⟩ := processBuffer_one rfl hone extra
    have hblock := h.taken.take (l := padding data.length) (by
      rw [hpadding, List.length_append, List.length_append, List.length_cons, hlength,
        List.length_replicate, Bytes.length_slice]
      omega)
    refine ⟨buffer, ?_, hslice⟩
    rw [hbuffer, processBlocks_eq, ← hblock.eq_take, hpadding,
      show (119 - r) % 64 = 55 - r by omega, List.append_assoc]
  · obtain ⟨buffer, hbuffer, hslice⟩ := processBuffer_two rfl (not_lt.1 hone) hlt extra
    have hsplit : padding data.length =
        (128 :: List.replicate (63 - r) 0) ++ (List.replicate 56 0 ++ len) := by
      rw [hpadding, show (119 - r) % 64 = 63 - r + 56 by omega, List.replicate_add]
      simp only [List.cons_append, List.append_assoc]
    have hfirst := h.taken.take (l := 128 :: List.replicate (63 - r) 0) (by
      rw [List.length_append, List.length_cons, List.length_replicate, Bytes.length_slice]
      omega)
    have hsecond := hfirst.take (l := List.replicate 56 0 ++ len) rfl
    rw [List.append_assoc, ← hsplit] at hsecond
    refine ⟨buffer, ?_, hslice⟩
    rw [hbuffer, processBlocks_eq, ← hsecond.eq_take, List.nil_append]

/-- `getHash` gives the hash of what was added, and the object has taken that as before. -/
theorem Holds.getHash (h : o.Holds data) (extra : Bytes 64) :
    ∃ o', o.getHash extra = .ok (sha256 data, o') ∧ o'.Holds data := by
  obtain ⟨buffer, hbuffer, hslice⟩ := h.processBuffer extra
  refine ⟨{ o with m_buffer := buffer }, ?_, ⟨?_, h.numBytes⟩⟩
  · rw [Object.getHash, hbuffer]
    rfl
  · simpa only [hslice] using h.taken

/-- From an object that has taken `data`, every hash is that of the bytes added since the last
    `reset`. -/
theorem Holds.answers (h : o.Holds data) (calls : List Call) :
    o.answers calls = .ok (hashes data calls) := by
  induction calls generalizing o data with
  | nil => rfl
  | cons call calls ih =>
    cases call with
    | reset =>
      simp [Object.answers, Object.call, hashes, ih (holds_reset o), bind, Except.bind, pure,
        Except.pure]
    | add piece =>
      obtain ⟨o', hadd, hholds⟩ := h.add (l := piece)
      simp [Object.answers, Object.call, hashes, hadd, ih hholds, bind, Except.bind, pure,
        Except.pure]
    | getHash extra =>
      obtain ⟨o', hget, hholds⟩ := h.getHash extra
      simp [Object.answers, Object.call, hashes, hget, ih hholds, bind, Except.bind, pure,
        Except.pure]

end Object

/-- Whatever the memory held before, every hash that an object gives is that of the bytes added
    since its last `reset`, in whatever pieces, and no access leaves an array. -/
theorem answers_construct (memory : Object) (calls : List Call) :
    (Object.construct memory).answers calls = .ok (hashes [] calls) :=
  (Object.holds_reset memory).answers calls

/-! ### The hash as a text -/

/-- `dec2hex`. -/
def dec2hex : List Char := "0123456789abcdef".toList

/-- `getHash`, "as 64 hex characters". -/
def hexChars (rawHash : SHA2Store) : List Char :=
  rawHash.toList.flatMap fun byte : UInt8 =>
    [dec2hex.getD ((byte >>> 4) &&& 15).toNat ' ', dec2hex.getD (byte &&& 15).toNat ' ']

/-- The characters that `ascii2hex` gives a value to. -/
def IsHex (c : Char) : Prop := ('0' ≤ c ∧ c ≤ '9') ∨ ('A' ≤ c ∧ c ≤ 'F') ∨ ('a' ≤ c ∧ c ≤ 'f')

theorem ascii2hex_dec2hex {n : ℕ} (h : n < 16) : ascii2hex (dec2hex.getD n ' ') = n := by
  decide +revert

/-- The digits are those from 48, 65 and 97 on. -/
theorem IsHex.exists_eq {c : Char} (h : IsHex c) :
    ∃ n < 22, c = (dec2hex ++ "ABCDEF".toList).getD n ' ' := by
  have hchar : ∀ m, c.toNat = m → c = Char.ofNat m := fun m hm => by rw [← hm, Char.ofNat_toNat]
  have hle : ∀ a b : Char, a ≤ b ↔ a.toNat ≤ b.toNat := fun a b => Iff.rfl
  simp only [IsHex, hle, show '0'.toNat = 48 from rfl, show '9'.toNat = 57 from rfl,
    show 'A'.toNat = 65 from rfl, show 'F'.toNat = 70 from rfl, show 'a'.toNat = 97 from rfl,
    show 'f'.toNat = 102 from rfl] at h
  rcases h with ⟨h₁, h₂⟩ | ⟨h₁, h₂⟩ | ⟨h₁, h₂⟩
  · refine ⟨c.toNat - 48, by omega, ?_⟩
    generalize hm : c.toNat = m at h₁ h₂
    rw [hchar m hm]
    interval_cases m <;> rfl
  · refine ⟨c.toNat - 65 + 16, by omega, ?_⟩
    generalize hm : c.toNat = m at h₁ h₂
    rw [hchar m hm]
    interval_cases m <;> rfl
  · refine ⟨c.toNat - 97 + 10, by omega, ?_⟩
    generalize hm : c.toNat = m at h₁ h₂
    rw [hchar m hm]
    interval_cases m <;> rfl

theorem ascii2hex_lt (c : Char) : ascii2hex c < 16 := by
  have hle : ∀ a b : Char, a ≤ b ↔ a.toNat ≤ b.toNat := fun a b => Iff.rfl
  simp only [ascii2hex, hle, show '0'.toNat = 48 from rfl, show '9'.toNat = 57 from rfl,
    show 'A'.toNat = 65 from rfl, show 'F'.toNat = 70 from rfl, show 'a'.toNat = 97 from rfl,
    show 'f'.toNat = 102 from rfl]
  split_ifs <;> omega

/-- A digit is written in lower case, -/
theorem IsHex.dec2hex_ascii2hex {c : Char} (h : IsHex c) :
    dec2hex.getD (ascii2hex c) ' ' = c.toLower := by
  obtain ⟨n, hn, rfl⟩ := h.exists_eq
  clear h
  decide +revert

/-- and read in either. -/
theorem IsHex.ascii2hex_toLower {c : Char} (h : IsHex c) : ascii2hex c.toLower = ascii2hex c := by
  rw [← h.dec2hex_ascii2hex, ascii2hex_dec2hex (ascii2hex_lt c)]

/-- The two digits of a byte. -/
theorem digits_byte {x y : ℕ} (hx : x < 16) (hy : y < 16) :
    ((UInt8.ofNat (16 * x + y) >>> 4) &&& 15).toNat = x ∧
      (UInt8.ofNat (16 * x + y) &&& 15).toNat = y := by
  have hand : ∀ n : ℕ, n &&& 15 = n % 16 := fun n => Nat.and_two_pow_sub_one_eq_mod n 4
  have hnum : (UInt8.ofNat (16 * x + y)).toNat = 16 * x + y := by
    rw [UInt8.toNat_ofNat']
    omega
  constructor
  · rw [UInt8.toNat_and, UInt8.toNat_shiftRight, hnum]
    simp only [show (4 : UInt8).toNat = 4 from rfl, show (15 : UInt8).toNat = 15 from rfl, hand,
      Nat.shiftRight_eq_div_pow, show 2 ^ (4 % 8) = 16 from rfl]
    omega
  · rw [UInt8.toNat_and, hnum]
    simp only [show (15 : UInt8).toNat = 15 from rfl, hand]
    omega

theorem byte_digits (byte : UInt8) :
    UInt8.ofNat (16 * ((byte >>> 4) &&& 15).toNat + (byte &&& 15).toNat) = byte := by
  have hlt := byte.toNat_lt
  have hbyte : byte = UInt8.ofNat (16 * (byte.toNat / 16) + byte.toNat % 16) := by
    rw [Nat.div_add_mod, UInt8.ofNat_toNat]
  obtain ⟨hx, hy⟩ := digits_byte (x := byte.toNat / 16) (y := byte.toNat % 16) (by omega) (by omega)
  rw [← hbyte] at hx hy
  rw [hx, hy, ← hbyte]

theorem getD_flatMap_pair {β γ : Type*} (f g : β → γ) (l : List β) (d : γ) {i : ℕ}
    (h : i < l.length) :
    (l.flatMap fun b => [f b, g b]).getD (2 * i) d = f l[i] ∧
      (l.flatMap fun b => [f b, g b]).getD (2 * i + 1) d = g l[i] := by
  induction l generalizing i with
  | nil => simp at h
  | cons b l ih =>
    cases i with
    | zero => exact ⟨rfl, rfl⟩
    | succ i => exact ih (Nat.lt_of_succ_lt_succ h)

theorem length_hexChars (rawHash : SHA2Store) : (hexChars rawHash).length = 64 := by
  simp [hexChars, List.length_flatMap]

theorem str2hash_getElem {str : List Char} {i : ℕ} (h : i < (str2hash str).toList.length) :
    (str2hash str).toList[i] = UInt8.ofNat (16 * ascii2hex (str.getD (2 * i) '0') +
      ascii2hex (str.getD (2 * i + 1) '0')) := by
  simp only [Vector.getElem_toList, str2hash, Vector.getElem_ofFn]

/-- The text of a hash is read back. -/
theorem str2hash_hexChars (rawHash : SHA2Store) : str2hash (hexChars rawHash) = rawHash := by
  ext i hi
  have hlen : i < rawHash.toList.length := by simpa using hi
  obtain ⟨h₁, h₂⟩ := getD_flatMap_pair
    (fun byte : UInt8 => dec2hex.getD ((byte >>> 4) &&& 15).toNat ' ')
    (fun byte : UInt8 => dec2hex.getD (byte &&& 15).toNat ' ') rawHash.toList '0' hlen
  have hdigit : ∀ b : UInt8, (b &&& 15).toNat < 16 := fun b => by
    rw [UInt8.toNat_and]
    exact Nat.and_lt_two_pow _ (show (15 : UInt8).toNat < 2 ^ 4 by decide)
  rw [str2hash, Vector.getElem_ofFn, hexChars, h₁, h₂, ascii2hex_dec2hex (hdigit _),
    ascii2hex_dec2hex (hdigit _), byte_digits, Vector.getElem_toList]

/-- A text of 64 digits is that of the hash it is read as, but for the case of its letters. -/
theorem hexChars_str2hash {str : List Char} (hlen : str.length = 64) (hhex : ∀ c ∈ str, IsHex c) :
    hexChars (str2hash str) = str.map Char.toLower := by
  refine List.ext_getElem (by rw [length_hexChars, List.length_map, hlen]) fun k h₁ h₂ => ?_
  rw [length_hexChars] at h₁
  have hi : k / 2 < (str2hash str).toList.length := by rw [Vector.length_toList]; omega
  obtain ⟨hfst, hsnd⟩ := getD_flatMap_pair
    (fun byte : UInt8 => dec2hex.getD ((byte >>> 4) &&& 15).toNat ' ')
    (fun byte : UInt8 => dec2hex.getD (byte &&& 15).toNat ' ') (str2hash str).toList '0' hi
  have hdigits := digits_byte (ascii2hex_lt (str.getD (2 * (k / 2)) '0'))
    (ascii2hex_lt (str.getD (2 * (k / 2) + 1) '0'))
  rw [str2hash_getElem hi] at hfst hsnd
  rw [← List.getD_eq_getElem _ '0', List.getElem_map]
  have hchar : ∀ j (hj : j < 64), str.getD j '0' = str[j] ∧ IsHex str[j] := fun j hj =>
    ⟨List.getD_eq_getElem _ _ (by omega), hhex _ (List.getElem_mem _)⟩
  rcases Nat.mod_two_eq_zero_or_one k with hk | hk
  · have hkk : 2 * (k / 2) = k := by omega
    rw [hdigits.1, hkk, (hchar k h₁).1, (hchar k h₁).2.dec2hex_ascii2hex] at hfst
    rw [hexChars, hfst]
  · have hkk : 2 * (k / 2) + 1 = k := by omega
    rw [hdigits.2, hkk, (hchar k h₁).1, (hchar k h₁).2.dec2hex_ascii2hex] at hsnd
    rw [hexChars, hsnd]

/-- The sum that a user types, of 64 digits, is accepted for a hash just if it is the text of
    that hash, in letters of either case. -/
theorem str2hash_eq_iff {str : List Char} {rawHash : SHA2Store} (hlen : str.length = 64)
    (hhex : ∀ c ∈ str, IsHex c) :
    str2hash str = rawHash ↔ str.map Char.toLower = hexChars rawHash := by
  constructor
  · rintro rfl
    exact (hexChars_str2hash hlen hhex).symm
  · intro h
    have hlower : hexChars (str2hash str) = hexChars rawHash :=
      (hexChars_str2hash hlen hhex).trans h
    rw [← str2hash_hexChars (str2hash str), hlower, str2hash_hexChars]

theorem str2hash_eq_iff_zero :
    str2hash (List.replicate 64 '0') = Vector.replicate 32 0 ↔
      (List.replicate 64 '0').map Char.toLower = hexChars (Vector.replicate 32 0) :=
  str2hash_eq_iff (by simp) fun c hc => .inl (by rw [List.eq_of_mem_replicate hc]; decide)

end EW8.Update.SHA256

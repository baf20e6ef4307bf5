import EW8.Can.Protocol
import EW8.Update.DataPackets
import EW8.Update.VersionChange

/-!
# The layout of an upload

`CAN_SET_INFO` gives the size of the image and that of its chunks; with them, `InitControlFile`
computes how many chunks there are, and how many bytes the last one has. That is what
`CheckChunkSize` asks for, chunk by chunk, and where `CheckChunkSHA2` looks for a chunk.

* `infoHandled_iff`: when a layout is right, or refused without a trace;
* `chunkChecked_iff`: when the hash of a chunk is computed just if the image has all of it.
-/

namespace EW8.Update

namespace ControlFileHeader

variable {h : ControlFileHeader} {size chunkSize : ℕ}

/-- The size of the `i`-th part of an image in `chunks` parts. -/
def partSize (size chunkSize : ℕ) (chunks i : ℤ) : ℤ :=
  if i < chunks - 1 then chunkSize else size - (chunks - 1) * chunkSize

/-- The header divides an image of `size` bytes into chunks of `chunkSize` bytes, but for the last one,
    and `CheckChunkSize` goes by it. -/
structure Partitions (h : ControlFileHeader) (size chunkSize : ℕ) : Prop where
  chunks_pos : 1 ≤ h.chunks
  lower : (h.chunks - 1) * chunkSize < size
  upper : size ≤ h.chunks * chunkSize
  /-- The size of the control file has not overflowed. -/
  fileSize : h.fileSize = ControlFileHeader.size + 32 * (h.chunks + 1)
  /-- Each chunk is the next one, after the chunk before it. -/
  next : ∀ i, 0 ≤ i → i < h.chunks → { h with lastSuccessfulChunk := i - 1 }.next = i
  accepts : ∀ (p : CANProcessor) (last i : ℤ), 0 ≤ i → i < h.chunks →
    p.controlFile.header = { h with lastSuccessfulChunk := last } → p.controlFile.header.next = i →
    ∀ n : ℕ, p.checkChunkSize n = true ↔ n = partSize size chunkSize h.chunks i
  sum : ∑ i ∈ Finset.range h.chunks.toNat, partSize size chunkSize h.chunks i = size

/-- The parts make up the image. -/
theorem sum_partSize {chunks : ℤ} (hpos : 1 ≤ chunks) :
    ∑ i ∈ Finset.range chunks.toNat, partSize size chunkSize chunks i = size := by
  obtain ⟨m, hm⟩ : ∃ m : ℕ, chunks.toNat = m + 1 := ⟨chunks.toNat - 1, by omega⟩
  have hchunks : chunks = m + 1 := by omega
  have hpart (i : ℕ) (hi : i ∈ Finset.range m) : partSize size chunkSize chunks i = chunkSize := by
    rw [Finset.mem_range] at hi
    rw [partSize, if_pos (by omega)]
  have hfull : ∑ i ∈ Finset.range m, partSize size chunkSize chunks i = m * chunkSize := by
    rw [Finset.sum_congr rfl hpart]
    simp
  have hlast : partSize size chunkSize chunks m = size - m * chunkSize := by
    rw [partSize, if_neg (by omega), hchunks]
    ring
  rw [hm, Finset.sum_range_succ, hfull, hlast]
  ring

end ControlFileHeader

namespace ControlFile

variable {cf : ControlFile} {size chunkSize : ℕ}

/-- The number of chunks is the one with which the chunks reach the end of the image, and no more. -/
theorem bounds_layOut (cf : ControlFile) (h0 : size ≠ 0) (hchunk : chunkSize ≠ 0) :
    1 ≤ (cf.layOut size chunkSize).header.chunks ∧
      ((cf.layOut size chunkSize).header.chunks - 1) * chunkSize < size ∧
      size ≤ (cf.layOut size chunkSize).header.chunks * chunkSize := by
  obtain ⟨m, hm⟩ : ∃ m, m = (size + chunkSize - 1) / chunkSize := ⟨_, rfl⟩
  have hdiv := Nat.div_add_mod (size + chunkSize - 1) chunkSize
  have hlt := Nat.mod_lt (size + chunkSize - 1) (Nat.pos_of_ne_zero hchunk)
  rw [← hm] at hdiv
  have hpos : 1 ≤ m := by
    by_contra hzero
    obtain rfl : m = 0 := by omega
    rw [mul_zero] at hdiv
    omega
  have hmul : chunkSize * m = (m - 1) * chunkSize + chunkSize := by
    obtain ⟨k, rfl⟩ : ∃ k, m = k + 1 := ⟨m - 1, by omega⟩
    rw [Nat.add_sub_cancel]
    ring
  have hcast : (((m - 1) * chunkSize : ℕ) : ℤ) = ((m : ℤ) - 1) * chunkSize := by
    push_cast [Nat.cast_sub hpos]
    ring
  rw [cf.chunks_layOut hchunk, ← hm]
  refine ⟨by omega, ?_, ?_⟩
  · rw [← hcast]
    omega
  · calc (size : ℤ) ≤ (chunkSize * m : ℕ) := by omega
      _ = m * chunkSize := by push_cast; ring

/-- The size of each chunk of a layout. -/
theorem sizeOf_layOut (cf : ControlFile) (hsize : size < 2 ^ 32) (h0 : size ≠ 0)
    (hchunk : chunkSize ≠ 0) {k : ℕ} (hk : k < (cf.layOut size chunkSize).header.chunks) :
    ((cf.layOut size chunkSize).header.sizeOf k : ℤ) =
      ControlFileHeader.partSize size chunkSize (cf.layOut size chunkSize).header.chunks k := by
  have hcount := (cf.inRange_layOut hsize hchunk).count_eq
  have hfull : (cf.layOut size chunkSize).header.chunkSize = chunkSize := rfl
  by_cases hlast : (k : ℤ) < (cf.layOut size chunkSize).header.chunks - 1
  · rw [ControlFileHeader.partSize, if_pos hlast, ControlFileHeader.sizeOf, if_pos (.inl (by omega)),
      hfull]
  · have htotal := cf.total_layOut hsize h0 hchunk
    obtain rfl : k = (cf.layOut size chunkSize).header.count - 1 := by omega
    rw [ControlFileHeader.total, hfull] at htotal
    have hcast : (((cf.layOut size chunkSize).header.count - 1 : ℕ) : ℤ) =
        (cf.layOut size chunkSize).header.chunks - 1 := by omega
    rw [ControlFileHeader.partSize, if_neg hlast, ← hcast]
    zify at htotal
    rw [← htotal]
    ring

/-- A layout whose control file is not too large divides the image. -/
theorem partitions_layOut (cf : ControlFile) (hsize : size < 2 ^ 32) (h0 : size ≠ 0)
    (hchunk : chunkSize ≠ 0)
    (hfits : ControlFileHeader.size + 32 * ((size + chunkSize - 1) / chunkSize + 1) < 2 ^ 32) :
    (cf.layOut size chunkSize).sealHeader.header.Partitions size chunkSize := by
  obtain ⟨hpos, hlower, hupper⟩ := cf.bounds_layOut h0 hchunk
  have hchunks : (cf.layOut size chunkSize).header.chunks = ((size + chunkSize - 1) / chunkSize : ℕ) :=
    cf.chunks_layOut hchunk
  have hheader : ControlFileHeader.size = 64 := rfl
  have hseal : (cf.layOut size chunkSize).sealHeader.header = { (cf.layOut size chunkSize).header with
      fileSize := (cf.layOut size chunkSize).header.controlFileSize } := rfl
  rw [hseal]
  refine ⟨hpos, hlower, hupper, ?_, fun i h₁ h₂ => ?_, fun p last i h₁ h₂ hp hnext n => ?_,
    ControlFileHeader.sum_partSize hpos⟩
  · have hcast : ControlFileHeader.size + ((cf.layOut size chunkSize).header.chunks + 1) * 32 =
        (ControlFileHeader.size + 32 * ((size + chunkSize - 1) / chunkSize + 1) : ℕ) := by
      rw [hchunks]
      push_cast
      ring
    show ((cf.layOut size chunkSize).header.controlFileSize : ℤ) = _
    rw [ControlFileHeader.controlFileSize, hcast, toUInt_natCast hfits, ← hcast]
    ring
  · dsimp only at h₂ ⊢
    rw [ControlFileHeader.next, ControlFileHeader.nextChunk]
    simp only
    rw [toInt_of_lt (z := i - 1) (by omega) (by omega),
      toInt_of_lt (z := (cf.layOut size chunkSize).header.chunks) (by omega) (by omega), if_neg (by omega)]
    omega
  · obtain ⟨k, rfl⟩ := Int.eq_ofNat_of_zero_le h₁
    have hsizeOf : p.controlFile.header.sizeOf k = (cf.layOut size chunkSize).header.sizeOf k := by
      rw [hp]
      rfl
    rw [Engine.checkChunkSize_iff hnext, hsizeOf, ← cf.sizeOf_layOut hsize h0 hchunk h₂]
    exact Int.natCast_inj.symm

end ControlFile

namespace Engine

/-- `CAN_SET_INFO` is refused and changes nothing, or it is taken, and divides the image. -/
def InfoHandled (e : Engine) (o : Outcome) (size : UInt32) (chunkSize : UInt16) : Prop :=
  ∃ e' ack, e.commandHandler o (.setInfo size chunkSize) = some (e', ack) ∧
    (ack = .nackParam ∧ e' = e ∨
      ack = .ackOk ∧ e'.controlFile.header.Partitions size.toNat chunkSize.toNat)

/-- A layout is possible: the size of a chunk is not zero, and the working directory exists, with a
    control file that is not too large for it; or the directory is gone, and the layout is the one
    that is in memory already. -/
def CanLayOut (e : Engine) (size chunkSize : ℕ) : Prop :=
  chunkSize ≠ 0 ∧
    (e.controlFile.fs.here.isSome ∧
        ControlFileHeader.size + 32 * ((size + chunkSize - 1) / chunkSize + 1) < 2 ^ 32 ∨
      e.controlFile.fs.here = none ∧ e.controlFile.layOut size chunkSize = e.controlFile)

variable {e : Engine} {o : Outcome} {size : UInt32} {chunkSize : UInt16}

/-- A `CAN_SET_INFO` that is refused at once. -/
theorem setInfo_refused (h : e.processor.state ≠ .ready ∨ size = 0) :
    e.commandHandler o (.setInfo size chunkSize) = some (e, .nackParam) := by
  by_cases hready : e.processor.state = .ready
  · obtain rfl := h.resolve_left (not_not.2 hready)
    rw [commandHandler, CANProcessor.setInfo, if_neg (not_not.2 hready), ControlFile.initControlFile,
      if_pos UInt32.toNat_zero]
    rfl
  · rw [commandHandler, CANProcessor.setInfo, if_pos hready]
    rfl

/-- Otherwise, there is a division by zero, or a layout, that can be written or not. -/
theorem setInfo_ready (hready : e.processor.state = .ready) (h0 : size.toNat ≠ 0) :
    e.commandHandler o (.setInfo size chunkSize) =
      if chunkSize.toNat = 0 then none
      else if e.controlFile.fs.here.isSome then
        some (e.withControlFile (((e.controlFile.layOut size.toNat chunkSize.toNat).writeControlFile
          .first).1.setUpdateStatus .uploading), .ackOk)
      else some (e.withControlFile (e.controlFile.layOut size.toNat chunkSize.toNat), .nackParam) := by
  have hlay (hchunk : chunkSize.toNat ≠ 0) :
      e.processor.controlFile.initControlFile size.toNat chunkSize.toNat =
        some ((e.controlFile.layOut size.toNat chunkSize.toNat).writeControlFile .first) := by
    rw [ControlFile.initControlFile, if_neg h0, if_neg hchunk]
    rfl
  rw [commandHandler, CANProcessor.setInfo, if_neg (not_not.2 hready)]
  by_cases hchunk : chunkSize.toNat = 0
  · rw [if_pos hchunk, ControlFile.initControlFile, if_neg h0, if_pos hchunk]
    rfl
  · rw [if_neg hchunk, hlay hchunk]
    cases hd : e.controlFile.fs.here with
    | none =>
      have hd' : (e.controlFile.layOut size.toNat chunkSize.toNat).fs.here = none := hd
      simp only [ControlFile.writeControlFile, hd']
      rfl
    | some d =>
      have hd' : (e.controlFile.layOut size.toNat chunkSize.toNat).fs.here = some d := hd
      rw [ControlFile.writeControlFile_of_here hd']
      rfl

/-- A layout whose control file is too large has a wrong size for it. -/
theorem fits_of_partitions {cf : ControlFile} {n k : ℕ} (hk : k ≠ 0)
    (h : (cf.layOut n k).sealHeader.header.Partitions n k) :
    ControlFileHeader.size + 32 * ((n + k - 1) / k + 1) < 2 ^ 32 := by
  have hfile := h.fileSize
  have hchunks : (cf.layOut n k).sealHeader.header.chunks = ((n + k - 1) / k : ℕ) :=
    cf.chunks_layOut hk
  have hlt : (cf.layOut n k).sealHeader.header.fileSize < 2 ^ 32 := toUInt_lt _
  rw [hchunks] at hfile
  omega

end Engine

/-! ## The check of a chunk -/

/-- The numbers that `InitControlFile` computes. -/
structure ControlFileHeader.Lays (h : ControlFileHeader) (size part : ℕ) : Prop where
  chunkSize : h.chunkSize = part
  lastChunkSize : h.lastChunkSize = size % part
  chunks : h.chunks = size / part + if size % part > 0 then 1 else 0

namespace ControlFile

variable {cf : ControlFile} {image : List UInt8} {size chunkSize c : ℕ}

theorem lays_layOut (cf : ControlFile) : (cf.layOut size chunkSize).header.Lays size chunkSize :=
  ⟨rfl, rfl, rfl⟩

/-- Where the `c`-th chunk of an image of `size` bytes ends. -/
def chunkEnd (size chunkSize c : ℕ) : ℕ := min (chunkSize * (c + 1)) size

/-- `CheckChunkSHA2` succeeds just if there is such a chunk and the image has all of it, and the hash
    is then that of its bytes. -/
structure ChunkChecked (cf : ControlFile) (size chunkSize : ℕ) (image : List UInt8) (c : ℕ) : Prop where
  ok_iff : (cf.checkChunkSHA2 c).2.1 = .ok ↔
    c < cf.header.chunks ∧ chunkEnd size chunkSize c ≤ image.length
  hash : (cf.checkChunkSHA2 c).2.1 = .ok → (cf.checkChunkSHA2 c).2.2 =
    some (sha256 ((image.drop (chunkSize * c)).take (chunkEnd size chunkSize c - chunkSize * c)))

/-- The chunks are those that start before the end of the image. -/
theorem lt_chunks_iff (hlays : cf.header.Lays size chunkSize) (hpos : 0 < chunkSize) :
    (c : ℤ) < cf.header.chunks ↔ chunkSize * c < size := by
  have hdiv := Nat.div_add_mod size chunkSize
  have hlt := Nat.mod_lt size hpos
  have hmul {a b : ℕ} (h : a < b) : chunkSize * a + chunkSize ≤ chunkSize * b :=
    Nat.mul_le_mul_left chunkSize (Nat.succ_le_of_lt h)
  rw [hlays.chunks]
  rcases lt_trichotomy c (size / chunkSize) with h | rfl | h
  · have := hmul h
    refine iff_of_true ?_ (by omega)
    split_ifs <;> omega
  · split_ifs with hmod
    · exact iff_of_true (by omega) (by omega)
    · exact iff_of_false (by omega) (by omega)
  · have := hmul h
    refine iff_of_false ?_ (by omega)
    split_ifs <;> omega

/-- A single block is read, or what there is of it. -/
theorem readBlocks_block {file : List UInt8} {n : ℕ} (hpos : 0 < n) (hle : n ≤ 32768) :
    readBlocks file n = if file = [] then none else some (file.take n) := by
  rw [readBlocks, if_neg hpos.ne']
  split_ifs with hnil
  · rfl
  · rw [min_eq_left hle, Nat.sub_self, readBlocks, if_pos rfl, Option.map_some, List.append_nil]

/-- What the check of a chunk does: the number of the chunk and its offset have to be right as `int`s,
    and at least one byte is left of the image. -/
theorem checkChunkSHA2_block (himage : cf.image = some image) (hlays : cf.header.Lays size chunkSize)
    (hpos : 0 < chunkSize) (hle : chunkSize ≤ 32768) (hsize : size < 2 ^ 32) :
    ((cf.checkChunkSHA2 c).2.1 = .ok ↔ (c : ℤ) < cf.header.chunks ∧ cf.header.chunks < 2 ^ 31 ∧
        chunkSize * c < 2 ^ 31 ∧ chunkSize * c < image.length) ∧
      ((cf.checkChunkSHA2 c).2.1 = .ok → (cf.checkChunkSHA2 c).2.2 =
        some (sha256 ((image.drop (chunkSize * c)).take chunkSize))) := by
  have hchunk : (c : ℤ) ≠ ControlFileHeader.defaultChunkNo := by
    rw [ControlFileHeader.defaultChunkNo]
    omega
  have hlt := lt_chunks_iff (c := c) hlays hpos
  have hchunks : cf.header.chunks ≤ size := by
    by_contra hmore
    have hin := (lt_chunks_iff (c := size) hlays hpos).1 (not_le.1 hmore)
    have := Nat.le_mul_of_pos_left size hpos
    omega
  have hnonneg : 0 ≤ cf.header.chunks := by
    rw [hlays.chunks]
    split_ifs <;> positivity
  -- Above the range of an `int`, numbers turn out negative.
  obtain ⟨hcount, hcount'⟩ := toInt_spec cf.header.chunks
  obtain ⟨hofs, hofs'⟩ := toInt_spec (chunkSize * c)
  have hcast : ((chunkSize * c : ℕ) : ℤ) = chunkSize * c := Nat.cast_mul _ _
  rw [← hcast] at hofs hofs'
  simp only [checkChunkSHA2, himage, hchunk, if_false, hlays.chunkSize, ← hcast]
  generalize toInt cf.header.chunks = count at *
  generalize toInt (chunkSize * c : ℕ) = ofs at *
  by_cases hin : (c : ℤ) ≥ count
  · rw [if_pos hin]
    refine ⟨iff_of_false (by simp) ?_, fun h => by cases h⟩
    rintro ⟨hc, hsmall, -⟩
    omega
  rw [if_neg hin]
  have hc : chunkSize * c < size := hlt.1 (by omega)
  by_cases hneg : ofs < 0
  · rw [if_pos hneg]
    refine ⟨iff_of_false (by simp) ?_, fun h => by cases h⟩
    rintro ⟨-, -, hsmall, -⟩
    omega
  rw [if_neg hneg]
  obtain rfl : ofs = (chunkSize * c : ℕ) := by omega
  rw [Int.toNat_natCast, readBlocks_block hpos hle]
  by_cases hend : image.drop (chunkSize * c) = []
  · rw [if_pos hend]
    refine ⟨iff_of_false (by simp) ?_, fun h => by cases h⟩
    rintro ⟨-, -, -, hleft⟩
    rw [List.drop_eq_nil_iff] at hend
    omega
  · rw [if_neg hend]
    rw [List.drop_eq_nil_iff] at hend
    exact ⟨iff_of_true rfl ⟨by omega, by omega, by omega, by omega⟩, fun _ => rfl⟩

/-- The bytes of a chunk that the image has all of. -/
theorem take_chunkEnd (hlen : image.length ≤ size) (hend : chunkEnd size chunkSize c ≤ image.length) :
    (image.drop (chunkSize * c)).take (chunkEnd size chunkSize c - chunkSize * c) =
      (image.drop (chunkSize * c)).take chunkSize := by
  rw [chunkEnd] at hend ⊢
  rw [Nat.mul_succ] at hend ⊢
  rcases le_total (chunkSize * c + chunkSize) size with h | h
  · rw [min_eq_left h, Nat.add_sub_cancel_left]
  · -- the last chunk, that ends with the image
    rw [min_eq_right h] at hend ⊢
    rw [List.take_of_length_le (by rw [List.length_drop]; omega),
      List.take_of_length_le (by rw [List.length_drop]; omega)]

/-- When the check of a chunk does what it should: the image ends before the chunk begins, or else it
    has all of the chunk just if the numbers do not overflow. -/
theorem chunkChecked_iff (cf : ControlFile) (size chunkSize : ℕ) (image : List UInt8) (c : ℕ)
    (hsize : size < 2 ^ 32) (hpos : 1 ≤ chunkSize) (hmax : chunkSize ≤ Can.maxLogicalPacket)
    (hlays : cf.header.Lays size chunkSize) (himage : cf.image = some image)
    (hlen : image.length ≤ size) : cf.ChunkChecked size chunkSize image c ↔
      (chunkSize * c < image.length → (chunkEnd size chunkSize c ≤ image.length ↔
        cf.header.chunks < 2 ^ 31 ∧ chunkSize * c < 2 ^ 31)) := by
  have hle : chunkSize ≤ 32768 := hmax.trans (by rw [Can.maxLogicalPacket_eq]; norm_num)
  obtain ⟨hok, hhash⟩ := checkChunkSHA2_block (c := c) himage hlays hpos hle hsize
  have hlt := lt_chunks_iff (c := c) hlays hpos
  have hstart : (c : ℤ) < cf.header.chunks → chunkEnd size chunkSize c ≤ image.length →
      chunkSize * c < image.length := by
    intro hc hend
    have hin := hlt.1 hc
    rw [chunkEnd, Nat.mul_succ] at hend
    omega
  constructor
  · rintro ⟨hiff, -⟩ hleft
    rw [hok] at hiff
    have hc : (c : ℤ) < cf.header.chunks := hlt.2 (by omega)
    simpa only [hc, hleft, true_and, and_true] using hiff.symm
  · intro hcond
    have hiff : (cf.checkChunkSHA2 c).2.1 = .ok ↔
        c < cf.header.chunks ∧ chunkEnd size chunkSize c ≤ image.length := by
      rw [hok]
      refine and_congr_right fun hc => ⟨?_, fun hend => ?_⟩
      · rintro ⟨hcount, hofs, hleft⟩
        exact (hcond hleft).2 ⟨hcount, hofs⟩
      · -- a chunk that the image has all of starts before its end
        have hleft := hstart hc hend
        obtain ⟨hcount, hofs⟩ := (hcond hleft).1 hend
        exact ⟨hcount, hofs, hleft⟩
    refine ⟨hiff, fun h => ?_⟩
    rw [hhash h, take_chunkEnd hlen (hiff.1 h).2]

/-- An image of three bytes, in chunks of two, of which `image` is stored. -/
def twoChunks (image : List UInt8) : ControlFile :=
  { Engine.inProgress.controlFile with
    fs := Engine.inProgress.controlFile.fs.write .none image }

theorem chunkChecked_last : (twoChunks [7, 8, 9]).ChunkChecked 3 2 [7, 8, 9] 1 :=
  (chunkChecked_iff (twoChunks [7, 8, 9]) 3 2 [7, 8, 9] 1 (by norm_num) (by norm_num) (by decide)
    ⟨rfl, rfl, rfl⟩ rfl (by decide)).2 fun _ => by decide

/-- Of the first chunk, one byte is stored: its hash is taken for that of the chunk. -/
theorem chunkChecked_fails_of_cut : ¬ ∀ (cf : ControlFile) (size chunkSize : ℕ) (image : List UInt8)
    (c : ℕ), size < 2 ^ 32 → 1 ≤ chunkSize → chunkSize ≤ Can.maxLogicalPacket →
    cf.header.Lays size chunkSize → cf.image = some image → image.length ≤ size →
    cf.ChunkChecked size chunkSize image c := by
  intro hall
  have hlays : (twoChunks [7]).header.Lays 3 2 := ⟨rfl, rfl, rfl⟩
  have hchecked := hall (twoChunks [7]) 3 2 [7] 0 (by norm_num) (by norm_num) (by decide) hlays rfl
    (by decide)
  have hok := (checkChunkSHA2_block (c := 0) (rfl : (twoChunks [7]).image = some [7]) hlays
    (by norm_num) (by norm_num) (by norm_num)).1.2 (by decide)
  exact absurd (hchecked.ok_iff.1 hok).2 (by decide)

end ControlFile

end EW8.Update

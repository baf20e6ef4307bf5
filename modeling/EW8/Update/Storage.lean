import EW8.Lib.Transition
import EW8.Update.Resume
import EW8.Update.Device

/-!
# The control files of an upload, over reboots

The part of the engine that keeps the state of an upload (`Storage`), on its own: uploads are laid
out, chunks are stored, the image may get damaged, and the engine is rebooted and goes on with the
upload (`Op`).

After a chunk, only the last hashes are written, to the older one of the two control files. What
else is in that file, has to be what is in memory: both files have to be in step (`Steady`).

* `writeControlFileChunk_eq`: what is written in pieces is the control file as a whole, in every
  run in which the second control file is in step when an upload is laid out or resumed;
* `writeControlFileChunk_fails_of_older`: it need not be.
-/

namespace EW8.Update

theorem toInt_of_lt {z : ℤ} (h₁ : -2 ^ 31 ≤ z) (h₂ : z < 2 ^ 31) : toInt z = z :=
  Int.bmod_eq_of_le (by norm_num; omega) (by norm_num; omega)

theorem toUInt_natCast {n : ℕ} (h : n < 2 ^ 32) : toUInt n = n := by
  rw [toUInt]
  omega

theorem toUInt_lt (z : ℤ) : toUInt z < 2 ^ 32 := by
  rw [toUInt]
  omega

namespace ControlFileHeader

variable {h : ControlFileHeader}

/-- The last chunk is one of the chunks, or there is none. No chunk is stored where their number
    is not an `int`. -/
structure InRange (h : ControlFileHeader) : Prop where
  chunks_nonneg : 0 ≤ h.chunks
  chunks_lt : h.chunks < 2 ^ 32
  neg_one_le : -1 ≤ h.lastSuccessfulChunk
  lt_chunks : h.lastSuccessfulChunk < h.chunks
  eq_of_large : 2 ^ 31 ≤ h.chunks → h.lastSuccessfulChunk = -1

namespace InRange

theorem count_eq (hr : h.InRange) : (h.count : ℤ) = h.chunks := by
  have hlt := hr.chunks_lt
  have hnonneg := hr.chunks_nonneg
  rw [count, toUInt, Int.emod_eq_of_lt hnonneg (by omega), Int.toNat_of_nonneg hnonneg]

/-- The next chunk, if there is one. -/
theorem next_eq (hr : h.InRange) (hnext : h.next ≠ defaultChunkNo) :
    h.next = h.lastSuccessfulChunk + 1 ∧ h.lastSuccessfulChunk + 1 < h.chunks ∧
      h.chunks < 2 ^ 31 := by
  have hnonneg := hr.chunks_nonneg
  have hlast := hr.neg_one_le
  have hlast' := hr.lt_chunks
  have hsmall : h.chunks < 2 ^ 31 := by
    by_contra hlarge
    have hchunks : toInt h.chunks ≤ -1 := by
      have hlt := hr.chunks_lt
      have hmod : toInt h.chunks = h.chunks - 2 ^ 32 := by
        have := Int.bmod_eq_of_le (n := h.chunks - 2 ^ 32) (m := 2 ^ 32) (by norm_num; omega)
          (by norm_num; omega)
        rw [toInt, ← this]
        exact (Int.sub_bmod_right h.chunks (2 ^ 32)).symm
      omega
    apply hnext
    rw [next, nextChunk, hr.eq_of_large (not_lt.1 hlarge), toInt_of_lt (by norm_num) (by norm_num),
      if_pos (by omega)]
  rw [next, nextChunk, toInt_of_lt (z := h.lastSuccessfulChunk) (by omega) (by omega),
    toInt_of_lt (z := h.chunks) (by omega) (by omega)] at hnext ⊢
  split_ifs at hnext ⊢ with hge
  · exact absurd rfl hnext
  · exact ⟨rfl, by omega, hsmall⟩

/-- The header with another last chunk. -/
theorem of_last (hr : h.InRange) {k : ℤ} (hk : -1 ≤ k) (hlt : k < h.chunks) (hsmall : h.chunks < 2 ^ 31) :
    ({ h with lastSuccessfulChunk := k } : ControlFileHeader).InRange :=
  ⟨hr.chunks_nonneg, hr.chunks_lt, hk, hlt, fun hlarge => absurd hsmall (not_lt.2 hlarge)⟩

/-- The size of the control file does not matter. -/
theorem of_fileSize (hr : h.InRange) (n : ℕ) : ({ h with fileSize := n } : ControlFileHeader).InRange :=
  ⟨hr.chunks_nonneg, hr.chunks_lt, hr.neg_one_le, hr.lt_chunks, hr.eq_of_large⟩

end InRange

theorem Encodable.of_fileSize (he : h.Encodable) {n : ℕ} (hn : n < 2 ^ 64) :
    ({ h with fileSize := n } : ControlFileHeader).Encodable :=
  ⟨hn, he.reserved, he.chunkSize, he.lastChunkSize, he.chunks, he.lastSuccessfulChunk, he.updateSize⟩

theorem Encodable.of_last (he : h.Encodable) {k : ℤ} (hk : -2 ^ 63 ≤ k) (hlt : k < 2 ^ 63) :
    ({ h with lastSuccessfulChunk := k } : ControlFileHeader).Encodable :=
  ⟨he.fileSize, he.reserved, he.chunkSize, he.lastChunkSize, he.chunks, ⟨hk, hlt⟩, he.updateSize⟩

/-- A header as the engine writes it. -/
structure Written (h : ControlFileHeader) : Prop extends h.InRange where
  fileSize : h.fileSize = h.controlFileSize

theorem encodable_ofBytes (b : List UInt8) : (ofBytes b).Encodable := by
  have hLE (n k m : ℕ) (hm : 256 ^ k ≤ m) : ofLE ((b.drop n).take k) < m :=
    ((ofLE_lt _).trans_le (Nat.pow_le_pow_right (by norm_num) (List.length_take_le k _))).trans_le hm
  have hmod (n : ℕ) : -2 ^ 63 ≤ Int.bmod n (2 ^ 64) ∧ Int.bmod n (2 ^ 64) < 2 ^ 63 := by
    have hm : ((2 ^ 64 : ℕ) : ℤ) = 2 ^ 64 := by norm_num
    have h₁ := Int.le_bmod (x := (n : ℤ)) (m := 2 ^ 64) (by norm_num)
    have h₂ := Int.bmod_lt (x := (n : ℤ)) (m := 2 ^ 64) (by norm_num)
    rw [hm] at h₁ h₂
    omega
  have hchunks : (ofBytes b).chunks = Int.bmod (ofLE ((b.drop 40).take 8)) (2 ^ 64) := by
    simp only [ofBytes]
  have hlast : (ofBytes b).lastSuccessfulChunk = Int.bmod (ofLE ((b.drop 48).take 8)) (2 ^ 64) := by
    simp only [ofBytes]
  exact {
    fileSize := hLE 0 8 _ (by norm_num)
    reserved := hLE 8 24 _ (by norm_num)
    chunkSize := hLE 32 4 _ (by norm_num)
    lastChunkSize := hLE 36 4 _ (by norm_num)
    chunks := hchunks ▸ hmod _
    lastSuccessfulChunk := hlast ▸ hmod _
    updateSize := hLE 56 8 _ (by norm_num) }

end ControlFileHeader

namespace ControlFile

variable {cf cf' : ControlFile} {s : Suffix} {b buf image : List UInt8}

/-- A control file that is taken has the size that its header says, which then fits. -/
theorem length_of_accepted (h : (ControlFileHeader.ofBytes b).Written) (hacc : accepted b = true) :
    b.length = ControlFileHeader.size + 32 * (ControlFileHeader.ofBytes b).count + 32 ∧
      b.length < 2 ^ 32 := by
  have hcount := h.count_eq
  have hfile := h.fileSize
  simp only [accepted, Bool.and_eq_true, decide_eq_true_eq] at hacc
  obtain ⟨⟨hle, heq⟩, -⟩ := hacc
  have hlt : (ControlFileHeader.ofBytes b).fileSize < 2 ^ 32 := hfile ▸ toUInt_lt _
  have hfits : ControlFileHeader.size + ((ControlFileHeader.ofBytes b).chunks + 1) * 32 =
      (ControlFileHeader.size + 32 * (ControlFileHeader.ofBytes b).count + 32 : ℕ) := by
    rw [← hcount]
    push_cast
    ring
  rw [ControlFileHeader.controlFileSize, hfits, toUInt_natCast (by omega)] at hfile
  exact ⟨heq.symm.trans hfile, heq ▸ hlt⟩

/-! ## Files in step -/

/-- The bytes of the control file with the suffix `s`. -/
def fileOf (cf : ControlFile) (s : Suffix) : List UInt8 := (cf.fs.read s).getD []

theorem InStep.mono {lo hi lo' hi' : ℕ} (h : cf.InStep b lo hi) (hlo : lo' ≤ lo) (hhi : hi ≤ hi') :
    cf.InStep b lo' hi' :=
  fun hmany j hj hout => h hmany j hj (by omega)

theorem InStep.congr {lo hi : ℕ} (h : cf.InStep b lo hi) (hchunks : cf'.header.chunks = cf.header.chunks)
    (hsums : cf'.sums = cf.sums) : cf'.InStep b lo hi := by
  unfold InStep at h ⊢
  rwa [hchunks, hsums]

/-- A hash of the window may change. -/
theorem InStep.set {lo hi k : ℕ} {sum : SHA2Store} (h : cf.InStep b lo hi) (hlo : lo ≤ k) (hhi : k ≤ hi)
    (hchunks : cf'.header.chunks = cf.header.chunks) (hsums : cf'.sums = cf.sums.set k sum) :
    cf'.InStep b lo hi := by
  intro hmany j hj hout
  have hj' : j < cf.sums.length := by rwa [hsums, List.length_set] at hj
  rw [h (hchunks ▸ hmany) j hj' hout, List.get_eq_getElem, List.get_eq_getElem]
  simp only [hsums]
  rw [List.getElem_set_of_ne (by omega)]

/-- The file that an upload is resumed from is in step. -/
theorem inStep_of_hashes {lo hi : ℕ} (hsums : cf.sums = hashes b) : cf.InStep b lo hi := by
  intro _ j hj _
  rw [List.get_eq_getElem]
  simp only [hsums, hashes, List.getElem_map, List.getElem_range]

/-- The other file is in step, but for the last hashes. -/
def OtherInStep (cf : ControlFile) : Prop :=
  cf.InStep (cf.fileOf (nextSuffix cf.suffix)) cf.header.lastSuccessfulChunk.toNat
    (cf.header.lastSuccessfulChunk + 2).toNat

instance (cf : ControlFile) (file : List UInt8) (lo hi : ℕ) : Decidable (cf.InStep file lo hi) :=
  inferInstanceAs (Decidable (_ → _))

instance (cf : ControlFile) : Decidable cf.OtherInStep := inferInstanceAs (Decidable (cf.InStep ..))

/-! ## The start of an upload -/

/-- An upload has been laid out or resumed. -/
structure LaidOut (cf : ControlFile) : Prop where
  here : cf.fs.here.isSome
  suffix : cf.suffix ≠ .none
  allocated : cf.Allocated
  encodable : cf.header.Encodable
  inRange : cf.header.InRange

/-- The layout of an upload, as `InitControlFile` writes it. -/
def layOut (cf : ControlFile) (size chunkSize : ℕ) : ControlFile :=
  let lastChunkSize := size % chunkSize
  let chunks : ℤ := size / chunkSize + if lastChunkSize > 0 then 1 else 0
  let header := { cf.header with
    updateSize := size
    chunkSize := chunkSize
    reserved := 0
    lastChunkSize := lastChunkSize
    chunks := chunks
    lastSuccessfulChunk := ControlFileHeader.defaultChunkNo }
  { cf with
    header := { header with fileSize := (ControlFileHeader.size + (chunks + 1) * 32).toNat }
    sums := List.replicate chunks.toNat (Vector.replicate 32 0)
    suffix := .first }

theorem initControlFile_cases {size chunkSize : ℕ} {r : ControlFile × FileError}
    (h : cf.initControlFile size chunkSize = some r) : r = (cf, .fileDamaged) ∨
      size ≠ 0 ∧ chunkSize ≠ 0 ∧ r = (cf.layOut size chunkSize).writeControlFile .first := by
  unfold initControlFile at h
  split_ifs at h with hsize hchunk
  · exact .inl (Option.some.inj h).symm
  · exact .inr ⟨hsize, hchunk, (Option.some.inj h).symm⟩

/-- The number of chunks is the size of the image in chunks, rounded up. -/
theorem chunks_layOut (cf : ControlFile) {size chunkSize : ℕ} (hchunk : chunkSize ≠ 0) :
    (cf.layOut size chunkSize).header.chunks = ((size + chunkSize - 1) / chunkSize : ℕ) := by
  have hdiv := Nat.div_add_mod' size chunkSize
  have hlt := Nat.mod_lt size (Nat.pos_of_ne_zero hchunk)
  simp only [layOut]
  by_cases h0 : size % chunkSize = 0
  · have hq : (size + chunkSize - 1) / chunkSize = size / chunkSize :=
      Nat.div_eq_of_lt_le (by omega) (by rw [Nat.succ_mul]; omega)
    rw [if_neg (by omega), hq]
    simp
  · have hq : (size + chunkSize - 1) / chunkSize = size / chunkSize + 1 :=
      Nat.div_eq_of_lt_le (by rw [Nat.succ_mul]; omega) (by rw [Nat.succ_mul, Nat.succ_mul]; omega)
    rw [if_pos (by omega), hq]
    simp

/-- A file that there is not reads as zeros, as the hashes of chunks that are not stored. -/
theorem otherInStep_layOut {size chunkSize : ℕ} (hhere : cf.fs.here.isSome)
    (hnext : cf.fs.read .next = none) :
    ((cf.layOut size chunkSize).writeControlFile .first).1.OtherInStep := by
  obtain ⟨d, hd⟩ := Option.isSome_iff_exists.1 hhere
  have hd' : (cf.layOut size chunkSize).fs.here = some d := hd
  rw [writeControlFile_of_here hd']
  intro _ j hj _
  have hfile : fileOf { (cf.layOut size chunkSize).sealHeader with
      fs := (cf.layOut size chunkSize).fs.write .first
        (writeAt ((d.file .first).getD []) 0 (cf.layOut size chunkSize).sealHeader.content) }
      (nextSuffix .first) = [] := by
    rw [fileOf, FileSystem.read_write_of_ne (by decide)]
    exact congrArg (·.getD []) hnext
  have hsums : (cf.layOut size chunkSize).sealHeader.sums =
      List.replicate (cf.layOut size chunkSize).header.chunks.toNat (Vector.replicate 32 0) := rfl
  simp only [List.get_eq_getElem, hsums, List.getElem_replicate]
  refine (congrArg (hashAt · j) hfile).trans (hashAt_eq_iff.2 fun r hr => ?_)
  simp

section

variable {size chunkSize : ℕ}

theorem count_layOut (cf : ControlFile) (hsize : size < 2 ^ 32) (hchunk : chunkSize ≠ 0) :
    (size + chunkSize - 1) / chunkSize < 2 ^ 32 ∧
      (cf.layOut size chunkSize).header.count = (size + chunkSize - 1) / chunkSize := by
  have hle : (size + chunkSize - 1) / chunkSize ≤ size := by
    refine Nat.lt_succ_iff.1 ((Nat.div_lt_iff_lt_mul (Nat.pos_of_ne_zero hchunk)).2 ?_)
    have := Nat.le_mul_of_pos_right size (Nat.pos_of_ne_zero hchunk)
    rw [Nat.succ_mul]
    omega
  refine ⟨by omega, ?_⟩
  rw [ControlFileHeader.count, cf.chunks_layOut hchunk, toUInt_natCast (by omega)]

theorem inRange_layOut (cf : ControlFile) (hsize : size < 2 ^ 32) (hchunk : chunkSize ≠ 0) :
    (cf.layOut size chunkSize).header.InRange := by
  obtain ⟨n, hlt, hchunks⟩ : ∃ n : ℕ, n < 2 ^ 32 ∧ (cf.layOut size chunkSize).header.chunks = n :=
    ⟨_, (cf.count_layOut hsize hchunk).1, cf.chunks_layOut hchunk⟩
  have hlast : (cf.layOut size chunkSize).header.lastSuccessfulChunk = -1 := rfl
  exact ⟨by omega, by omega, by omega, by omega, fun _ => hlast⟩

theorem encodable_layOut (cf : ControlFile) (hsize : size < 2 ^ 32) (hchunk : chunkSize ≠ 0)
    (hchunk' : chunkSize < 2 ^ 32) :
    (cf.layOut size chunkSize).header.Encodable := by
  obtain ⟨n, hlt, hchunks⟩ : ∃ n : ℕ, n < 2 ^ 32 ∧ (cf.layOut size chunkSize).header.chunks = n :=
    ⟨_, (cf.count_layOut hsize hchunk).1, cf.chunks_layOut hchunk⟩
  have hlast : (cf.layOut size chunkSize).header.lastSuccessfulChunk = -1 := rfl
  have hfile : (cf.layOut size chunkSize).header.fileSize =
      (ControlFileHeader.size + ((cf.layOut size chunkSize).header.chunks + 1) * 32).toNat := rfl
  have hheader : ControlFileHeader.size = 64 := rfl
  have hmod := Nat.mod_lt size (Nat.pos_of_ne_zero hchunk)
  exact {
    fileSize := by omega
    reserved := by simp [layOut]
    chunkSize := hchunk'
    lastChunkSize := hmod.trans hchunk'
    chunks := by omega
    lastSuccessfulChunk := by omega
    updateSize := hsize.trans (by norm_num) }

theorem laidOut_layOut (cf : ControlFile) (hhere : cf.fs.here.isSome) (hsize : size < 2 ^ 32) (hchunk : chunkSize ≠ 0)
    (hchunk' : chunkSize < 2 ^ 32) : (cf.layOut size chunkSize).LaidOut where
  here := hhere
  suffix := by simp [layOut]
  allocated := by
    have hlen : (cf.layOut size chunkSize).sums.length =
        (cf.layOut size chunkSize).header.chunks.toNat := List.length_replicate
    rw [Allocated, hlen, cf.chunks_layOut hchunk, (cf.count_layOut hsize hchunk).2, Int.toNat_natCast]
  encodable := cf.encodable_layOut hsize hchunk hchunk'
  inRange := cf.inRange_layOut hsize hchunk

end

theorem header_resume (cf : ControlFile) (s : Suffix) (b : List UInt8) :
    (cf.resume s b).header = { ControlFileHeader.ofBytes b with
      lastSuccessfulChunk := (cf.load b).checkStoredImage.2.getD 0 } := by
  simp only [resume]

/-- Where an upload is resumed. -/
theorem inRange_resume (h : (ControlFileHeader.ofBytes b).Written) (hacc : accepted b = true)
    (himage : cf.image.isSome) : (cf.resume s b).header.InRange := by
  obtain ⟨image, himage⟩ := Option.isSome_iff_exists.1 himage
  have hcount : (ControlFileHeader.ofBytes b).count < 2 ^ 27 := by
    obtain ⟨hlen, hlt⟩ := length_of_accepted h hacc
    omega
  have hchunks := h.count_eq
  have hlen : (hashes b).length = (ControlFileHeader.ofBytes b).count := by simp [hashes]
  -- a chunk that is found on the image has its hash in the file
  have hle {n : ℕ} (hall : ∀ k < n, (cf.load b).FullChunk image k) :
      n ≤ (ControlFileHeader.ofBytes b).count := by
    by_contra hlt
    obtain ⟨-, hsum⟩ := hall (n - 1) (by omega)
    have hnone : (cf.load b).sums[n - 1]? = none :=
      List.getElem?_eq_none (by rw [load, hlen]; omega)
    rw [hnone] at hsum
    cases hsum
  have hrange : -1 ≤ (cf.load b).checkStoredImage.2.getD 0 ∧
      (cf.load b).checkStoredImage.2.getD 0 < (ControlFileHeader.ofBytes b).chunks := by
    rcases (cf.load b).checkStoredImage_spec himage with ⟨w, -, -, hall, hcheck⟩ | ⟨hall, hcheck⟩
    · have := hle hall
      rw [hcheck, Option.getD_some]
      omega
    · have hn := hle hall
      have hl : (cf.load b).header.lastSuccessfulChunk =
        (ControlFileHeader.ofBytes b).lastSuccessfulChunk := rfl
      have hlt := h.lt_chunks
      have hneg := h.neg_one_le
      rw [hl] at hn hcheck
      -- with no last chunk, `CheckStoredImage` would count up to 4294967295
      have hpos : 0 ≤ (ControlFileHeader.ofBytes b).lastSuccessfulChunk := by
        by_contra hneg'
        have : (ControlFileHeader.ofBytes b).lastSuccessfulChunk = -1 := by omega
        have hmax : toUInt (-1) = 4294967295 := by decide
        rw [this, hmax] at hn
        exact absurd (hn.trans_lt hcount) (by norm_num)
      have hu : (toUInt (ControlFileHeader.ofBytes b).lastSuccessfulChunk : ℤ) =
          (ControlFileHeader.ofBytes b).lastSuccessfulChunk := by
        rw [toUInt]
        omega
      rw [hcheck, Option.getD_some, hu, toInt_of_lt (by omega) (by omega)]
      exact ⟨hneg, hlt⟩
  rw [header_resume]
  exact h.toInRange.of_last hrange.1 hrange.2 (by omega)

theorem laidOut_resume (cf : ControlFile) (h : (ControlFileHeader.ofBytes b).Written) (hacc : accepted b = true)
    (himage : cf.image.isSome) (hs : s ≠ .none) : (cf.resume s b).LaidOut := by
  have hrange := inRange_resume (s := s) h hacc himage
  have hchunks := hrange.chunks_lt
  have hlast := hrange.neg_one_le
  have hlast' := hrange.lt_chunks
  have he := ControlFileHeader.encodable_ofBytes b
  obtain ⟨image, himage⟩ := Option.isSome_iff_exists.1 himage
  obtain ⟨d, hd, -⟩ := Option.bind_eq_some_iff.1 himage
  exact {
    here := Option.isSome_iff_exists.2 ⟨d, hd⟩
    suffix := hs
    allocated := by simp [Allocated, resume, load, hashes, ControlFileHeader.count]
    encodable := by
      rw [header_resume] at hlast hlast' hchunks ⊢
      dsimp only at hlast hlast' hchunks
      exact he.of_last (by omega) (by omega)
    inRange := hrange }

/-! ## A chunk -/

/-- `WriteFile`, and the thread: a chunk is stored, or after an error none. -/
def storeChunk (cf : ControlFile) (fault : Option WriteFault) (buf : List UInt8) : ControlFile :=
  match cf.writeFile with
  | (cf, .returned _) => cf
  | (cf, .waits chunk) => (cf.handOver chunk buf).intThread fault

/-- The upload when the thread comes to the control file. -/
def recorded (cf : ControlFile) (buf : List UInt8) (k : ℕ) (fault : Option WriteFault) : ControlFile :=
  (cf.handOver k buf).recordChunk fault

theorem writeFile_eq (hr : cf.header.InRange) (hok : cf.pd.mErr = .ok)
    (hnext : cf.header.next ≠ ControlFileHeader.defaultChunkNo) :
    ∃ k : ℕ, (k : ℤ) = cf.header.lastSuccessfulChunk + 1 ∧ (k : ℤ) < cf.header.chunks ∧
      cf.header.chunks < 2 ^ 31 ∧ cf.writeFile = (cf, .waits k) := by
  obtain ⟨hval, hlt, hsmall⟩ := hr.next_eq hnext
  have hlast := hr.neg_one_le
  refine ⟨(cf.header.lastSuccessfulChunk + 1).toNat, by omega, by omega, hsmall, ?_⟩
  rw [writeFile, if_neg (not_not.2 hok)]
  simp only [if_neg hnext]
  rw [hval, Int.toNat_of_nonneg (by omega)]

/-- Storing a chunk writes nothing but the image. -/
theorem fs_writeFile (cf : ControlFile) (fault : Option WriteFault) (buf : List UInt8) (chunk : ℤ) :
    (cf._writeFile fault buf chunk).1 = cf.fs ∨
      ∃ file, (cf._writeFile fault buf chunk).1 = cf.fs.write .none file := by
  unfold _writeFile
  split
  · exact .inl rfl
  · dsimp only
    split_ifs
    · exact .inl rfl
    · exact .inr ⟨_, rfl⟩
    · exact .inr ⟨_, rfl⟩
    · split <;> exact .inr ⟨_, rfl⟩

section

variable (cf) (buf) (k : ℕ) (fault : Option WriteFault)

theorem exists_sums_recorded : ∃ sum, (cf.recorded buf k fault).sums = cf.sums.set k sum := ⟨_, rfl⟩

theorem fs_recorded : (cf.recorded buf k fault).fs = cf.fs ∨
    ∃ file, (cf.recorded buf k fault).fs = cf.fs.write .none file :=
  fs_writeFile (cf.handOver k buf) fault buf k

theorem isSome_here_recorded :
    (cf.recorded buf k fault).fs.here.isSome ↔ cf.fs.here.isSome := by
  rcases cf.fs_recorded buf k fault with h | ⟨file, h⟩
  · rw [h]
  · rw [h, FileSystem.write, FileSystem.here_modify, Option.isSome_map]

/-- Storing a chunk leaves the control files. -/
theorem read_recorded (hs : s ≠ .none) : (cf.recorded buf k fault).fs.read s = cf.fs.read s := by
  rcases cf.fs_recorded buf k fault with h | ⟨file, h⟩
  · rw [h]
  · rw [h, FileSystem.read_write_of_ne hs]

theorem fileOf_recorded (hs : s ≠ .none) : (cf.recorded buf k fault).fileOf s = cf.fileOf s := by
  rw [fileOf, cf.read_recorded buf k fault hs, fileOf]

end

/-- The window of a chunk is that of the chunk alone. -/
theorem InStep.recorded {k lo hi : ℕ} {fault : Option WriteFault} (h : cf.InStep b lo hi) (hlo : lo ≤ k)
    (hhi : k ≤ hi) : (cf.recorded buf k fault).sealHeader.InStep b lo hi := by
  obtain ⟨sum, hsum⟩ := cf.exists_sums_recorded buf k fault
  exact h.set hlo hhi rfl hsum

theorem written_sealHeader (h : cf.header.InRange) : cf.sealHeader.header.Written :=
  ⟨h.of_fileSize _, rfl⟩

theorem encodable_sealHeader (he : cf.header.Encodable) : cf.sealHeader.header.Encodable :=
  he.of_fileSize ((toUInt_lt _).trans (by norm_num))

theorem laidOut_sealHeader (h : cf.LaidOut) : cf.sealHeader.LaidOut where
  here := h.here
  suffix := h.suffix
  allocated := h.allocated
  encodable := encodable_sealHeader h.encodable
  inRange := (written_sealHeader h.inRange).toInRange

theorem suffix_writeControlFile : (cf.writeControlFile s).1.suffix = cf.suffix := by
  unfold writeControlFile
  split <;> rfl

namespace LaidOut

/-- The name of the version does not matter. -/
theorem withVersion (h : cf.LaidOut) (v : String) : LaidOut { cf with version := v } :=
  ⟨h.here, h.suffix, h.allocated, h.encodable, h.inRange⟩

theorem writeControlFile (h : cf.LaidOut) : (cf.writeControlFile s).1.LaidOut := by
  obtain ⟨d, hd⟩ := Option.isSome_iff_exists.1 h.here
  have hseal := laidOut_sealHeader h
  rw [writeControlFile_of_here hd]
  refine ⟨?_, h.suffix, hseal.allocated, hseal.encodable, hseal.inRange⟩
  show (cf.fs.write s _).here.isSome
  rw [FileSystem.write, FileSystem.here_modify, Option.isSome_map]
  exact h.here

/-- A control file that has been written as a whole is in step. -/
theorem ownInStep_writeControlFile (h : cf.LaidOut) {lo hi : ℕ} :
    (cf.writeControlFile s).1.InStep ((cf.writeControlFile s).1.fileOf s) lo hi := by
  obtain ⟨d, hd⟩ := Option.isSome_iff_exists.1 h.here
  rw [writeControlFile_of_here hd, fileOf, FileSystem.read_write d hd, Option.getD_some]
  exact (inStep_overwrite (laidOut_sealHeader h).allocated).congr rfl rfl

theorem holds_writeControlFile (h : cf.LaidOut)
    (hfiles : cf.fs.Holds fun b => (ControlFileHeader.ofBytes b).Written) :
    (cf.writeControlFile s).1.fs.Holds fun b => (ControlFileHeader.ofBytes b).Written := by
  obtain ⟨d, hd⟩ := Option.isSome_iff_exists.1 h.here
  rw [writeControlFile_of_here hd]
  refine hfiles.write fun _ => ?_
  rw [ofBytes_overwrite _ (laidOut_sealHeader h).encodable]
  exact written_sealHeader h.inRange

end LaidOut

/-- The next chunk, when it is stored. -/
structure IsNext (cf : ControlFile) (k : ℕ) : Prop where
  eq : (k : ℤ) = cf.header.lastSuccessfulChunk + 1
  lt : (k : ℤ) < cf.header.chunks
  small : cf.header.chunks < 2 ^ 31

section

variable {k : ℕ} {fault : Option WriteFault}

theorem laidOut_recorded (buf : List UInt8) (fault : Option WriteFault) (h : cf.LaidOut)
    (hk : cf.IsNext k) : (cf.recorded buf k fault).LaidOut where
  here := (cf.isSome_here_recorded buf k fault).2 h.here
  suffix := h.suffix
  allocated := by
    obtain ⟨sum, hsum⟩ := cf.exists_sums_recorded buf k fault
    have hlen := h.allocated
    rw [Allocated] at hlen ⊢
    rw [hsum, List.length_set, hlen]
    rfl
  encodable := by
    have hlt := hk.lt.trans hk.small
    exact h.encodable.of_last (by omega) (by omega)
  inRange := h.inRange.of_last (by omega) hk.lt hk.small

/-- The pieces make the whole. -/
theorem pieces_recorded (h : cf.LaidOut) (hk : cf.IsNext k)
    (hstep : cf.InStep b (k - 2) k) : (cf.recorded buf k fault).sealHeader.pieces b k =
      writeAt b 0 (cf.recorded buf k fault).sealHeader.content := by
  have hw := laidOut_sealHeader (laidOut_recorded buf fault h hk)
  have hcount : k < (cf.recorded buf k fault).sealHeader.header.count := by
    have hlt : (k : ℤ) < (cf.recorded buf k fault).sealHeader.header.chunks := hk.lt
    rw [← hw.inRange.count_eq] at hlt
    exact_mod_cast hlt
  exact pieces_eq hw.allocated hcount (hstep.recorded (by omega) le_rfl)

/-- After a chunk, what is written in pieces is the control file as a whole, if the file is in
    step. -/
theorem writeControlFileChunk_recorded (h : cf.LaidOut) (hk : cf.IsNext k)
    (hstep : cf.InStep (cf.fileOf cf.suffix) (k - 2) k) :
    (cf.recorded buf k fault).writeControlFileChunk cf.suffix k =
      (cf.recorded buf k fault).writeControlFile cf.suffix := by
  have hw := laidOut_recorded buf fault h hk
  obtain ⟨d, hd⟩ := Option.isSome_iff_exists.1 hw.here
  have hfile : (d.file cf.suffix).getD [] = cf.fileOf cf.suffix := by
    rw [← cf.fileOf_recorded buf k fault h.suffix, fileOf, FileSystem.read, hd]
    rfl
  rw [writeControlFileChunk_of_here _ hd, writeControlFile_of_here hd, hfile,
    pieces_recorded h hk hstep]

/-- The upload after the chunk, with the bytes `file` of the control file. -/
def stored (cf : ControlFile) (buf : List UInt8) (k : ℕ) (fault : Option WriteFault)
    (file : List UInt8) : ControlFile :=
  { (cf.recorded buf k fault).sealHeader with
    fs := (cf.recorded buf k fault).fs.write cf.suffix file
    suffix := nextSuffix cf.suffix
    pd := { (cf.recorded buf k fault).pd with writtenStatus := true } }

theorem intThread_eq_stored (h : cf.LaidOut) (hk : cf.IsNext k) :
    (cf.handOver k buf).intThread fault = cf.stored buf k fault
      ((cf.recorded buf k fault).sealHeader.pieces (cf.fileOf cf.suffix) k) := by
  have hw := laidOut_recorded buf fault h hk
  obtain ⟨d, hd⟩ := Option.isSome_iff_exists.1 hw.here
  have hfile : (d.file cf.suffix).getD [] = cf.fileOf cf.suffix := by
    rw [← cf.fileOf_recorded buf k fault h.suffix, fileOf, FileSystem.read, hd]
    rfl
  have hwrite := writeControlFileChunk_of_here (s := cf.suffix) k hd
  have hthread : (cf.handOver k buf).intThread fault =
      { ((cf.recorded buf k fault).writeControlFileChunk cf.suffix k).1 with
        suffix := nextSuffix ((cf.recorded buf k fault).writeControlFileChunk cf.suffix k).1.suffix
        pd := { ((cf.recorded buf k fault).writeControlFileChunk cf.suffix k).1.pd with
          writtenStatus := true } } := rfl
  rw [hthread, hwrite, hfile]
  rfl

theorem nextSuffix_ne_none (s : Suffix) : nextSuffix s ≠ .none := by
  cases s <;> decide

theorem nextSuffix_ne (s : Suffix) : nextSuffix s ≠ s := by
  cases s <;> decide

theorem nextSuffix_nextSuffix (hs : s ≠ .none) : nextSuffix (nextSuffix s) = s := by
  cases s with
  | none => exact absurd rfl hs
  | first => rfl
  | next => rfl

theorem laidOut_stored {file : List UInt8} (h : cf.LaidOut) (hk : cf.IsNext k) :
    (cf.stored buf k fault file).LaidOut where
  here := by
    have hw := (laidOut_recorded buf fault h hk).here
    rwa [stored, FileSystem.write, FileSystem.here_modify, Option.isSome_map]
  suffix := nextSuffix_ne_none _
  allocated := (laidOut_sealHeader (laidOut_recorded buf fault h hk)).allocated
  encodable := (laidOut_sealHeader (laidOut_recorded buf fault h hk)).encodable
  inRange := (laidOut_sealHeader (laidOut_recorded buf fault h hk)).inRange

theorem fileOf_stored {file : List UInt8} (h : cf.LaidOut) :
    (cf.stored buf k fault file).fileOf cf.suffix = file := by
  obtain ⟨d, hd⟩ := Option.isSome_iff_exists.1 ((cf.isSome_here_recorded buf k fault).2 h.here)
  rw [fileOf, stored, FileSystem.read_write d hd, Option.getD_some]

theorem fileOf_stored_of_ne {file : List UInt8} (hs : s ≠ .none) (hne : s ≠ cf.suffix) :
    (cf.stored buf k fault file).fileOf s = cf.fileOf s := by
  rw [fileOf, stored, FileSystem.read_write_of_ne hne, ← cf.fileOf_recorded buf k fault hs, fileOf]

theorem holds_stored (h : cf.LaidOut) (hk : cf.IsNext k)
    (hfiles : cf.fs.Holds fun b => (ControlFileHeader.ofBytes b).Written) :
    (cf.stored buf k fault ((cf.recorded buf k fault).sealHeader.pieces b k)).fs.Holds
      fun b => (ControlFileHeader.ofBytes b).Written := by
  have hw := laidOut_recorded buf fault h hk
  refine FileSystem.Holds.write ?_ fun _ => ?_
  · rcases cf.fs_recorded buf k fault with hfs | ⟨file, hfs⟩
    · rw [hfs]
      exact hfiles
    · rw [hfs]
      exact hfiles.write fun hs => absurd rfl hs
  · rw [ofBytes_pieces (laidOut_sealHeader hw).encodable]
    exact written_sealHeader hw.inRange

end

/-! ## Both files in step -/

/-- Both files are in step, the one that is written next but for the last hash. -/
structure Steady (cf : ControlFile) : Prop extends cf.LaidOut where
  own : cf.InStep (cf.fileOf cf.suffix) (cf.header.lastSuccessfulChunk - 1).toNat
    (cf.header.lastSuccessfulChunk + 1).toNat
  other : cf.OtherInStep

theorem Steady.writes_whole {k : ℕ} {fault : Option WriteFault} (h : cf.Steady) (hk : cf.IsNext k) :
    (cf.recorded buf k fault).writeControlFileChunk cf.suffix k =
      (cf.recorded buf k fault).writeControlFile cf.suffix := by
  have heq := hk.eq
  exact writeControlFileChunk_recorded h.toLaidOut hk (h.own.mono (by omega) (by omega))

theorem storeChunk_of_isNext {k : ℕ} (buf : List UInt8) (fault : Option WriteFault) (h : cf.LaidOut)
    (hwrite : cf.writeFile = (cf, .waits k)) (hk : cf.IsNext k) :
    cf.storeChunk fault buf = cf.stored buf k fault
      ((cf.recorded buf k fault).sealHeader.pieces (cf.fileOf cf.suffix) k) := by
  rw [storeChunk, hwrite]
  exact intThread_eq_stored h hk

theorem exists_isNext (hr : cf.header.InRange) (hok : cf.pd.mErr = .ok)
    (hnext : cf.header.next ≠ ControlFileHeader.defaultChunkNo) :
    ∃ k : ℕ, cf.writeFile = (cf, .waits k) ∧ cf.IsNext k := by
  obtain ⟨k, heq, hlt, hsmall, hwrite⟩ := writeFile_eq hr hok hnext
  exact ⟨k, hwrite, heq, hlt, hsmall⟩

/-- The file that has been written is the other one then. -/
theorem otherInStep_stored {k : ℕ} {fault : Option WriteFault} (h : cf.LaidOut) (hk : cf.IsNext k)
    (hstep : cf.InStep b (k - 2) k) :
    (cf.stored buf k fault ((cf.recorded buf k fault).sealHeader.pieces b k)).OtherInStep := by
  have hw := laidOut_sealHeader (laidOut_recorded buf fault h hk)
  have hwhole : (cf.recorded buf k fault).sealHeader.InStep
      ((cf.recorded buf k fault).sealHeader.pieces b k) (k : ℤ).toNat ((k : ℤ) + 2).toNat := by
    rw [pieces_recorded h hk hstep]
    exact inStep_overwrite hw.allocated
  have hfile : (cf.stored buf k fault ((cf.recorded buf k fault).sealHeader.pieces b k)).fileOf
      (nextSuffix (nextSuffix cf.suffix)) = (cf.recorded buf k fault).sealHeader.pieces b k := by
    rw [nextSuffix_nextSuffix h.suffix, fileOf_stored h]
  rw [← hfile] at hwhole
  exact hwhole.congr rfl rfl

/-- And the other one is written next. -/
theorem ownInStep_stored {k : ℕ} {fault : Option WriteFault} {file : List UInt8} (hk : cf.IsNext k)
    (hstep : cf.OtherInStep) :
    (cf.stored buf k fault file).InStep ((cf.stored buf k fault file).fileOf (nextSuffix cf.suffix))
      ((k : ℤ) - 1).toNat ((k : ℤ) + 1).toNat := by
  have heq := hk.eq
  rw [fileOf_stored_of_ne (nextSuffix_ne_none _) (nextSuffix_ne _)]
  have hstep' : (cf.recorded buf k fault).sealHeader.InStep (cf.fileOf (nextSuffix cf.suffix))
      ((k : ℤ) - 1).toNat ((k : ℤ) + 1).toNat :=
    (hstep.mono (by omega) (by omega)).recorded (by omega) (by omega)
  exact hstep'.congr rfl rfl

/-- A chunk keeps the files in step. -/
theorem Steady.stored {k : ℕ} (buf : List UInt8) (fault : Option WriteFault) (h : cf.Steady)
    (hk : cf.IsNext k) :
    (cf.stored buf k fault
      ((cf.recorded buf k fault).sealHeader.pieces (cf.fileOf cf.suffix) k)).Steady where
  toLaidOut := laidOut_stored h.toLaidOut hk
  own := ownInStep_stored hk h.other
  other := by
    have heq := hk.eq
    exact otherInStep_stored h.toLaidOut hk (h.own.mono (by omega) (by omega))

theorem fs_resume : (cf.resume s b).fs = cf.fs := rfl

/-- The control file that an upload has been resumed from is in step. -/
theorem ownInStep_resume (cf : ControlFile) (hb : cf.fs.read s = some b) (lo hi : ℕ) :
    (cf.resume s b).InStep ((cf.resume s b).fileOf (cf.resume s b).suffix) lo hi := by
  have hsuffix : (cf.resume s b).suffix = s := by simp only [resume]
  rw [hsuffix, fileOf, fs_resume, hb, Option.getD_some]
  exact inStep_of_hashes (by simp only [resume, load])

/-- What is needed of an upload that is resumed, whatever the name of its version. -/
theorem steady_withVersion {v : String} (h : cf.LaidOut)
    (hown : ∀ lo hi, cf.InStep (cf.fileOf cf.suffix) lo hi)
    (hother : OtherInStep { cf with version := v }) : Steady { cf with version := v } :=
  ⟨h.withVersion v, (hown _ _).congr rfl rfl, hother⟩

theorem Steady.damaged (h : cf.Steady) (image : Option (List UInt8)) :
    Steady { cf with fs := cf.fs.modify fun d => d.setFile .none image } := by
  have hfile {s : Suffix} (hs : s ≠ .none) : fileOf
      { cf with fs := cf.fs.modify fun d => d.setFile .none image } s = cf.fileOf s := by
    rw [fileOf, FileSystem.read, FileSystem.here_modify, fileOf, FileSystem.read]
    cases cf.fs.here with
    | none => rfl
    | some d => exact congrArg (·.getD []) (VersionDir.file_setFile_of_ne hs)
  refine ⟨⟨?_, h.suffix, h.allocated, h.encodable, h.inRange⟩, ?_, ?_⟩
  · rw [FileSystem.here_modify, Option.isSome_map]
    exact h.here
  · rw [hfile h.suffix]
    exact h.own.congr rfl rfl
  · rw [OtherInStep, hfile (nextSuffix_ne_none _)]
    exact h.other.congr rfl rfl

theorem storeChunk_of_err (buf : List UInt8) (fault : Option WriteFault) (h : cf.pd.mErr ≠ .ok) : cf.storeChunk fault buf =
    { cf with header.lastSuccessfulChunk := cf.pd.lastSuccChunkBefore } := by
  have hwrite : cf.writeFile =
      ({ cf with header.lastSuccessfulChunk := cf.pd.lastSuccChunkBefore }, .returned .ok) := by
    rw [writeFile, if_pos h]
  rw [storeChunk, hwrite]

/-! ## The start of the engine -/

/-- The directory of the current version, as the start of the engine finds it. -/
def bootFs (fs : FileSystem) : FileSystem :=
  { makeDefault fs with cwd := .version (getVersion fs) }

/-- The boot writes no file, and resumes the upload of the current version if it can. -/
theorem bootStrap_cases (cf : ControlFile) :
    cf.bootStrap.2 ≠ .ok ∧ cf.bootStrap.1.fs.dirs = (makeDefault cf.fs).dirs ∧
        cf.bootStrap.1.fs.versionFile = cf.fs.versionFile ∨
      ∃ s b, s ≠ .none ∧ (bootFs cf.fs).read s = some b ∧ accepted b = true ∧
        ((bootFs cf.fs).read .none).isSome ∧
        cf.bootStrap = ({ { cf with fs := bootFs cf.fs }.resume s b with
          version := getVersion cf.fs }, .ok) := by
  have hv : getVersion (makeDefault cf.fs) = getVersion cf.fs := rfl
  unfold bootStrap
  simp only [hv]
  split_ifs with hempty
  · exact .inl ⟨by simp, rfl, rfl⟩
  · cases hcd : (makeDefault cf.fs).chdirVersion (getVersion cf.fs) with
    | none => exact .inl ⟨by simp, rfl, rfl⟩
    | some fs =>
      have hfs : fs = bootFs cf.fs := by
        unfold FileSystem.chdirVersion at hcd
        split_ifs at hcd
        exact (Option.some.inj hcd).symm
      subst hfs
      rcases checkAndLoad_cases { cf with fs := bootFs cf.fs } with
        ⟨⟨header, sum, sums, heq⟩, -⟩ | ⟨s, b, hs, hb, hacc, himage, heq⟩
      · simp only [heq]
        exact .inl ⟨by simp, rfl, rfl⟩
      · simp only [heq]
        exact .inr ⟨s, b, hs, hb, hacc, himage, rfl⟩

end ControlFile

namespace FileSystem

variable {fs : FileSystem} {P : List UInt8 → Prop}

theorem Holds.makeDefault (h : fs.Holds P) : (ControlFile.makeDefault fs).Holds P := by
  intro loc d s b hd hs hb
  have hdirs : (ControlFile.makeDefault fs).dirs = if (fs.dirs .download).isSome then fs.dirs
    else Function.update fs.dirs .download (some .empty) := rfl
  rw [hdirs] at hd
  split_ifs at hd with hsome
  · exact h loc d s b hd hs hb
  · by_cases hloc : loc = .download
    · subst hloc
      rw [Function.update_self] at hd
      rw [← Option.some.inj hd] at hb
      cases hb
    · rw [Function.update_of_ne hloc] at hd
      exact h loc d s b hd hs hb

/-- The directory of the version `v`, that is made if it does not exist, becomes the current one. -/
def enter (fs : FileSystem) (v : String) : FileSystem where
  dirs := Function.update fs.dirs (.version v) (some ((fs.dirs (.version v)).getD .empty))
  versionFile := some v
  cwd := .version v

theorem here_enter (fs : FileSystem) (v : String) :
    (fs.enter v).here = some ((fs.dirs (.version v)).getD .empty) :=
  Function.update_self ..

theorem Holds.enter (h : fs.Holds P) (v : String) : (fs.enter v).Holds P := by
  intro loc d s b hd hs hb
  by_cases hloc : loc = .version v
  · subst hloc
    obtain rfl := Option.some.inj (hd.symm.trans (fs.here_enter v))
    cases hdir : fs.dirs (.version v) with
    | none =>
      rw [hdir] at hb
      cases hb
    | some d =>
      rw [hdir] at hb
      exact h _ d s b hdir hs hb
  · exact h loc d s b ((Function.update_of_ne hloc ..).symm.trans hd) hs hb

end FileSystem

/-! ## Runs -/

/-- The part of the engine that keeps the state of an upload. -/
structure Storage where
  cf : ControlFile
  /-- An upload has been laid out or resumed. -/
  running : Bool

namespace Storage

/-- What happens to it. -/
inductive Op
  /-- `InitControlFile`, in the directory of a version. -/
  | init (version : String) (size chunkSize : UInt32)
  /-- A chunk is stored. -/
  | chunk (fault : Option WriteFault) (buf : List UInt8)
  /-- The image is damaged, or lost. -/
  | damage (image : Option (List UInt8))
  /-- The engine is started again; what it shares with the thread is whatever is found there. -/
  | reboot (pd : WriteThreadSharedData)

/-- A step; `none` where the process is killed, or there is no upload. -/
def step (t : Storage) : Op → Option Storage
  | .init v size chunkSize =>
    (ControlFile.initControlFile { t.cf with fs := t.cf.fs.enter v } size.toNat chunkSize.toNat).map
      fun r => ⟨r.1, r.2 = .ok⟩
  | .chunk fault buf => if t.running then some { t with cf := t.cf.storeChunk fault buf } else none
  | .damage image =>
    some { t with cf := { t.cf with fs := t.cf.fs.modify fun d => d.setFile .none image } }
  | .reboot pd =>
    let r := (ControlFile.new pd t.cf.fs).bootStrap
    some ⟨r.1, r.2 = .ok⟩

/-- There is a chunk left to be stored, and when an upload is laid out or resumed, the second
    control file is in step. -/
def inStep (t : Storage) : Op → Prop
  | .chunk .. => t.cf.pd.mErr = .ok → t.cf.header.next ≠ ControlFileHeader.defaultChunkNo
  | .damage _ => True
  | op => ∀ t' ∈ t.step op, t'.running = true → t'.cf.OtherInStep

/-- All control files are as the engine writes them. -/
def FilesWritten (t : Storage) : Prop :=
  t.cf.fs.Holds fun b => (ControlFileHeader.ofBytes b).Written

/-- The files are in step while an upload is stored. -/
structure Kept (t : Storage) : Prop where
  files : t.FilesWritten
  steady : t.running = true → t.cf.pd.mErr = .ok → t.cf.Steady

instance (t : Storage) : (op : Op) → Decidable (t.inStep op)
  | .init v size chunkSize =>
    inferInstanceAs (Decidable (∀ t' ∈ t.step (.init v size chunkSize), _ → _))
  | .chunk .. => inferInstanceAs (Decidable (_ → _))
  | .damage _ => inferInstanceAs (Decidable True)
  | .reboot pd => inferInstanceAs (Decidable (∀ t' ∈ t.step (.reboot pd), _ → _))

variable {t t' : Storage} {op : Op} {l : List Op}

theorem kept_init {v : String} {size chunkSize : UInt32} (h : t.Kept)
    (hstep : t.step (.init v size chunkSize) = some t')
    (hC : t'.running = true → t'.cf.OtherInStep) : t'.Kept := by
  obtain ⟨r, hr, rfl⟩ := Option.map_eq_some_iff.1 hstep
  have hfiles := h.files.enter v
  rcases ControlFile.initControlFile_cases hr with rfl | ⟨-, hchunk, rfl⟩
  · exact ⟨hfiles, fun hrun => absurd hrun (by simp)⟩
  · have hhere := t.cf.fs.here_enter v
    have hlaid : (({ t.cf with fs := t.cf.fs.enter v } : ControlFile).layOut size.toNat
        chunkSize.toNat).LaidOut :=
      ControlFile.laidOut_layOut _ (by rw [hhere]; rfl) size.toNat_lt hchunk chunkSize.toNat_lt
    refine ⟨hlaid.holds_writeControlFile hfiles, fun hrun _ => ⟨hlaid.writeControlFile, ?_, hC hrun⟩⟩
    rw [ControlFile.suffix_writeControlFile]
    exact hlaid.ownInStep_writeControlFile

theorem kept_chunk {fault : Option WriteFault} {buf : List UInt8} (h : t.Kept)
    (hstep : t.step (.chunk fault buf) = some t')
    (hC : t.cf.pd.mErr = .ok → t.cf.header.next ≠ ControlFileHeader.defaultChunkNo) : t'.Kept := by
  simp only [step] at hstep
  split_ifs at hstep with hrun
  obtain rfl := Option.some.inj hstep
  by_cases hok : t.cf.pd.mErr = .ok
  · have hsteady := h.steady hrun hok
    obtain ⟨k, hwrite, hk⟩ := ControlFile.exists_isNext hsteady.inRange hok (hC hok)
    have heq := ControlFile.storeChunk_of_isNext buf fault hsteady.toLaidOut
      hwrite hk
    refine ⟨?_, fun _ _ => ?_⟩
    · show FileSystem.Holds _ (t.cf.storeChunk fault buf).fs
      rw [heq]
      exact ControlFile.holds_stored hsteady.toLaidOut hk h.files
    · show (t.cf.storeChunk fault buf).Steady
      rw [heq]
      exact hsteady.stored buf fault hk
  · have heq := ControlFile.storeChunk_of_err buf fault hok
    refine ⟨?_, fun _ hok' => ?_⟩
    · show FileSystem.Holds _ (t.cf.storeChunk fault buf).fs
      rw [heq]
      exact h.files
    · replace hok' : (t.cf.storeChunk fault buf).pd.mErr = .ok := hok'
      rw [heq] at hok'
      exact absurd hok' hok

theorem kept_damage {image : Option (List UInt8)} (h : t.Kept)
    (hstep : t.step (.damage image) = some t') : t'.Kept := by
  obtain rfl := Option.some.inj hstep
  refine ⟨h.files.modify fun d s b _ hs hb => ?_, fun hrun hok => (h.steady hrun hok).damaged image⟩
  exact .inl (VersionDir.file_setFile_of_ne hs ▸ hb)

theorem kept_reboot {pd : WriteThreadSharedData} (h : t.Kept)
    (hstep : t.step (.reboot pd) = some t')
    (hC : t'.running = true → t'.cf.OtherInStep) : t'.Kept := by
  obtain rfl := Option.some.inj hstep
  have hfiles := h.files.makeDefault
  rcases ControlFile.bootStrap_cases (ControlFile.new pd t.cf.fs) with
    ⟨herr, hdirs, -⟩ | ⟨s, b, hs, hb, hacc, himage, heq⟩
  · exact ⟨hfiles.of_dirs hdirs, fun hrun => absurd hrun (by simp [herr])⟩
  · rw [heq] at hC ⊢
    have hboot : (ControlFile.bootFs (ControlFile.new pd t.cf.fs).fs).Holds fun b =>
        (ControlFileHeader.ofBytes b).Written := hfiles.of_dirs rfl
    have hlaid := ControlFile.laidOut_resume { ControlFile.new pd t.cf.fs with
      fs := ControlFile.bootFs t.cf.fs } (hboot.read hs hb) hacc himage hs
    have hown := ControlFile.ownInStep_resume { ControlFile.new pd t.cf.fs with
      fs := ControlFile.bootFs t.cf.fs } hb
    exact ⟨hboot, fun hrun _ => ControlFile.steady_withVersion hlaid hown (hC hrun)⟩

theorem kept_step (h : t.Kept) (hC : t.inStep op) (hstep : t.step op = some t') : t'.Kept := by
  cases op with
  | init v size chunkSize => exact kept_init h hstep (hC t' hstep)
  | chunk fault buf => exact kept_chunk h hstep hC
  | damage image => exact kept_damage h hstep
  | reboot pd => exact kept_reboot h hstep (hC t' hstep)

/-- In every run in which a chunk is left to be stored whenever one is, and the second control file
    is in step whenever an upload is laid out or resumed, the control file that is written in
    pieces is the one that would be written as a whole. -/
theorem writeControlFileChunk_eq {fault : Option WriteFault} {buf : List UInt8} {cf : ControlFile}
    {chunk : ℤ} (hfiles : t.FilesWritten) (hstart : t.running = false)
    (hmeets : Transition.Meets step inStep t l) (hrun : Transition.run step t l = some t')
    (hrunning : t'.running = true) (hwrite : t'.cf.writeFile = (cf, .waits chunk))
    (hnext : cf.header.next ≠ ControlFileHeader.defaultChunkNo) :
    let w := (cf.handOver chunk buf).recordChunk fault
    w.writeControlFileChunk w.suffix w.pd.chunk = w.writeControlFile w.suffix := by
  have hkept : t'.Kept := Transition.inv_of_meets (fun _ _ _ h hC hs => kept_step h hC hs)
    ⟨hfiles, fun h => absurd h (by simp [hstart])⟩ hmeets hrun
  obtain ⟨rfl, hok⟩ := ControlFile.writeFile_fst hwrite
  have hsteady := hkept.steady hrunning hok
  obtain ⟨k, hwrite', hk⟩ := ControlFile.exists_isNext hsteady.inRange hok hnext
  obtain rfl : chunk = k := by
    rw [hwrite] at hwrite'
    injection hwrite' with _ h
    injection h
  exact hsteady.writes_whole hk

/-- In a directory without a second control file, an upload is laid out in step. -/
theorem inStep_init {v : String} {size chunkSize : UInt32} (h : (t.cf.fs.enter v).read .next = none) :
    t.inStep (.init v size chunkSize) := by
  intro t' hstep hrun
  obtain ⟨r, hr, rfl⟩ := Option.map_eq_some_iff.1 hstep
  rcases ControlFile.initControlFile_cases hr with rfl | ⟨-, -, rfl⟩
  · simp at hrun
  · exact ControlFile.otherInStep_layOut (by rw [t.cf.fs.here_enter v]; rfl) h

/-! ## A directory that has been used -/

/-- No upload yet, and no files. -/
def blank : Storage where
  cf := ControlFile.new ⟨[], 0, .ok, 0, true, []⟩ ⟨fun _ => none, none, .download⟩
  running := false

theorem filesWritten_blank : blank.FilesWritten := fun _ _ _ _ hd => by cases hd

/-- An upload of eighteen chunks is started. -/
def started : List Op := [.init "1" 18 1, .chunk none [1], .chunk none [2]]

/-- An upload of eighteen chunks is started; after four chunks, another one. -/
def used : List Op :=
  [.init "1" 18 1, .chunk none [1], .chunk none [2], .chunk none [3], .chunk none [4],
    .init "1" 18 1, .chunk none [5]]

/-- The state after a run, in which the chunk `chunk` is handed over. -/
theorem exists_handedOver (l : List Op) (chunk : ℤ)
    (h : (Transition.run step blank l).any fun t' => t'.running && t'.cf.writeFile.2 = .waits chunk &&
      t'.cf.writeFile.1.header.next ≠ ControlFileHeader.defaultChunkNo) :
    ∃ t' cf, Transition.run step blank l = some t' ∧ t'.running = true ∧
      t'.cf.writeFile = (cf, .waits chunk) ∧ cf.header.next ≠ ControlFileHeader.defaultChunkNo := by
  obtain ⟨t', hrun, ht'⟩ := (Option.any_eq_true ..).1 h
  simp only [Bool.and_eq_true, decide_eq_true_eq] at ht'
  obtain ⟨⟨hrunning, hwaits⟩, hnext⟩ := ht'
  exact ⟨t', t'.cf.writeFile.1, hrun, hrunning, by rw [← hwaits], hnext⟩

theorem writeControlFileChunk_started : ∃ t' cf, Transition.run step blank started = some t' ∧
    t'.cf.writeFile = (cf, .waits 2) ∧
    let w := (cf.handOver 2 [3]).recordChunk none
    w.writeControlFileChunk w.suffix w.pd.chunk = w.writeControlFile w.suffix := by
  obtain ⟨t', cf, hrun, hrunning, hwrite, hnext⟩ :=
    exists_handedOver started 2 (by decide +kernel)
  have hmeets : Transition.Meets step inStep blank started := by decide +kernel
  exact ⟨t', cf, hrun, hwrite,
    writeControlFileChunk_eq filesWritten_blank rfl hmeets hrun hrunning hwrite hnext⟩

/-- The second control file still has the hashes of the first upload. -/
theorem writeControlFileChunk_fails_of_older :
    ¬ ∀ (t t' : Storage) (l : List Op) (fault : Option WriteFault) (buf : List UInt8)
      (cf : ControlFile) (chunk : ℤ), t.FilesWritten → t.running = false →
      Transition.run step t l = some t' → t'.running = true →
      t'.cf.writeFile = (cf, .waits chunk) → cf.header.next ≠ ControlFileHeader.defaultChunkNo →
      let w := (cf.handOver chunk buf).recordChunk fault
      w.writeControlFileChunk w.suffix w.pd.chunk = w.writeControlFile w.suffix := by
  intro hall
  obtain ⟨t', cf, hrun, hrunning, hwrite, hnext⟩ :=
    exists_handedOver used 1 (by decide +kernel)
  have heq := hall blank t' used none [6] cf 1 filesWritten_blank rfl hrun hrunning hwrite hnext
  have hdiff : (Transition.run step blank used).all (fun t =>
      let w := (t.cf.writeFile.1.handOver 1 [6]).recordChunk none
      (w.writeControlFileChunk w.suffix w.pd.chunk).1.fs.read .next ≠
        (w.writeControlFile w.suffix).1.fs.read .next) = true := by
    decide +kernel
  rw [hrun, Option.all_some, decide_eq_true_eq, hwrite] at hdiff
  exact hdiff (congrArg (fun r : ControlFile × FileError => r.1.fs.read .next) heq)

end Storage

end EW8.Update

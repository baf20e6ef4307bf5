import EW8.Update.PowerLoss

/-!
# A control file, written and read again

`WriteControlFile` writes over the file of the given name, from its start. The file is not cut off
there: if it was longer before, its end stays behind the new content. `ReadControlFile`, on the
other hand, takes no file of another size than its header says.

* `roundTrips_iff`: what has been written is read again just if the file was no longer before.
-/

namespace EW8.Update

/-- The header is one that `InitControlFile` has set up. -/
def ControlFileHeader.SetUp (h : ControlFileHeader) : Prop :=
  ∃ (cf cf' : ControlFile) (size chunkSize : UInt32),
    cf.initControlFile size.toNat chunkSize.toNat = some (cf', .ok) ∧ cf'.header = h

theorem ControlFileHeader.SetUp.written {h : ControlFileHeader} (hsetUp : h.SetUp) :
    h.Written ∧ h.Encodable := by
  obtain ⟨cf, cf', size, chunkSize, hinit, rfl⟩ := hsetUp
  rcases ControlFile.initControlFile_cases hinit with heq | ⟨-, hchunk, heq⟩
  · cases heq
  · obtain rfl := congrArg Prod.fst heq
    cases hd : (cf.layOut size.toNat chunkSize.toNat).fs.here with
    | none =>
      simp only [ControlFile.writeControlFile, hd, Prod.mk.injEq, reduceCtorEq, and_false] at heq
    | some d =>
      have hlaid := cf.laidOut_layOut (Option.isSome_iff_exists.2 ⟨d, hd⟩) size.toNat_lt hchunk
        chunkSize.toNat_lt
      rw [ControlFile.writeControlFile_of_here hd]
      exact ⟨ControlFile.written_sealHeader hlaid.inRange,
        ControlFile.encodable_sealHeader hlaid.encodable⟩

namespace ControlFile

variable {cf cf' : ControlFile} {s : Suffix} {d : VersionDir} {file : List UInt8}

/-- The most that one call of `write` writes. -/
def writeMax : ℕ := 0x7ffff000

/-- `WriteControlFile` can open the file, and each `write` writes all that it is given. -/
def WriteSucceeds (cf : ControlFile) (s : Suffix) : Prop :=
  (cf.writeControlFile s).2 = .ok ∧ 32 * cf.header.count ≤ writeMax

/-- After `WriteControlFile`, a `ReadControlFile` of the same file gives back the header and the
    hashes of the chunks, whatever the engine had in memory. -/
def RoundTrips (cf : ControlFile) (s : Suffix) : Prop :=
  ∀ cf' : ControlFile, cf'.fs.read s = (cf.writeControlFile s).1.fs.read s →
    (cf'.readControlFile s).2 = .ok ∧ (cf'.readControlFile s).1.header = cf.header ∧
      (cf'.readControlFile s).1.sums = cf.sums

/-- What is written of an upload that has been set up, and its size. -/
theorem sealHeader_setUp (hsetUp : cf.header.SetUp) (hsums : (cf.sums.length : ℤ) = cf.header.chunks)
    (hmax : 32 * cf.header.count ≤ writeMax) :
    cf.sealHeader = { cf with sum := sha256 (cf.header.bytes ++ sumsBytes cf.sums) } ∧
      cf.Allocated ∧
      cf.header.fileSize = ControlFileHeader.size + 32 * cf.header.count + 32 := by
  obtain ⟨hwritten, -⟩ := hsetUp.written
  have hcount := hwritten.count_eq
  have hsize := hwritten.fileSize
  have halloc : cf.sums.length = cf.header.count := by omega
  refine ⟨?_, halloc, ?_⟩
  · have hheader : { cf.header with fileSize := cf.header.controlFileSize } = cf.header := by
      rw [← hsize]
    have htake : cf.sums.take (toUInt cf.header.chunks) = cf.sums :=
      List.take_of_length_le halloc.le
    rw [sealHeader, hheader, htake]
  · have hfits : ControlFileHeader.size + (cf.header.chunks + 1) * 32 =
        (ControlFileHeader.size + 32 * cf.header.count + 32 : ℕ) := by
      push_cast
      rw [hcount]
      ring
    have hlt : ControlFileHeader.size + 32 * cf.header.count + 32 < 2 ^ 32 := by
      have hheaderSize : ControlFileHeader.size = 64 := rfl
      rw [writeMax] at hmax
      omega
    rw [hsize, ControlFileHeader.controlFileSize, hfits, toUInt_natCast hlt]

/-- A control file of its own size is read back. -/
theorem readControlFile_content (halloc : cf.Allocated) (he : cf.header.Encodable)
    (hsize : cf.header.fileSize = ControlFileHeader.size + 32 * cf.header.count + 32)
    (hsum : cf.sum = sha256 (cf.header.bytes ++ sumsBytes cf.sums))
    (hread : cf'.fs.read s = some cf.content) :
    (cf'.readControlFile s).2 = .ok ∧ (cf'.readControlFile s).1.header = cf.header ∧
      (cf'.readControlFile s).1.sums = cf.sums := by
  have hacc := accepted_content halloc he hsize hsum
  rcases cf'.readControlFile_of_read hread with ⟨heq, -⟩ | ⟨-, hnot⟩
  · rw [heq]
    simp only [load, ofBytes_content he, hashes_content halloc he, and_self]
  · rw [hacc] at hnot
    cases hnot

/-- A file that is longer than its header says is not taken. -/
theorem not_accepted_of_longer (file : List UInt8) (he : cf.header.Encodable)
    (hsize : cf.header.fileSize < (writeAt file 0 cf.content).length) :
    accepted (writeAt file 0 cf.content) = false := by
  simp only [accepted, ofBytes_overwrite file he, Bool.and_eq_false_iff, decide_eq_false_iff_not]
  exact .inl (.inr hsize.ne)

/-- What is in the file after `WriteControlFile`. -/
theorem read_writeControlFile (hd : cf.fs.here = some d) (hseal : cf.sealHeader.content = file) :
    (cf.writeControlFile s).1.fs.read s = some (writeAt ((cf.fs.read s).getD []) 0 file) := by
  rw [writeControlFile_of_here hd, FileSystem.read_write d hd, hseal]
  simp [FileSystem.read, hd]

theorem here_of_writeSucceeds (hok : cf.WriteSucceeds s) : ∃ d, cf.fs.here = some d := by
  cases hd : cf.fs.here with
  | none =>
    have herr := hok.1
    simp [writeControlFile, hd] at herr
  | some d => exact ⟨d, rfl⟩

/-- A successful write of a control file that has been set up: what is read afterwards depends on
    the length of the file before. -/
theorem roundTrips_iff_of_here (hsetUp : cf.header.SetUp)
    (hsums : (cf.sums.length : ℤ) = cf.header.chunks) (hok : cf.WriteSucceeds s) :
    cf.RoundTrips s ↔ ((cf.fs.read s).getD []).length ≤
      ControlFileHeader.size + 32 * cf.header.count + 32 := by
  obtain ⟨d, hd⟩ := here_of_writeSucceeds hok
  obtain ⟨hseal, halloc, hsize⟩ := sealHeader_setUp hsetUp hsums hok.2
  obtain ⟨hwritten, he⟩ := hsetUp.written
  have hread := cf.read_writeControlFile (s := s) hd rfl
  -- In memory, only the hash of the file changes.
  obtain ⟨w, hw⟩ : ∃ w, w = cf.sealHeader := ⟨_, rfl⟩
  have hheader : w.header = cf.header := by rw [hw, hseal]
  have hwsums : w.sums = cf.sums := by rw [hw, hseal]
  have hwsum : w.sum = sha256 (w.header.bytes ++ sumsBytes w.sums) := by
    rw [hheader, hwsums, hw, hseal]
  have hwalloc : w.Allocated := by rwa [Allocated, hheader, hwsums]
  rw [← hw] at hread
  rw [← hheader] at he hsize ⊢
  have hlen := length_content hwalloc
  constructor
  · intro hrt
    by_contra hlonger
    have hne : w.content ≠ [] := List.ne_nil_of_length_pos (by omega)
    have hnot := not_accepted_of_longer ((cf.fs.read s).getD []) he (by
      rw [length_overwrite hne]
      omega)
    obtain ⟨b, hb, hacc⟩ := readControlFile_ok_iff.1 (hrt _ rfl).1
    rw [hread] at hb
    obtain rfl := Option.some.inj hb
    rw [hacc] at hnot
    cases hnot
  · intro hle cf' hcf'
    rw [hread, writeAt, overwrite_zero (by omega)] at hcf'
    rw [← hheader, ← hwsums]
    exact readControlFile_content hwalloc he hsize hwsum hcf'

/-- What `WriteControlFile` has written of an upload with `n` chunks is read again by any engine,
    just if the file was not there before, or no longer than a control file for `n` chunks is. -/
theorem roundTrips_iff (cf : ControlFile) (s : Suffix) (hsetUp : cf.header.SetUp)
    (hsums : (cf.sums.length : ℤ) = cf.header.chunks) (hok : cf.WriteSucceeds s) :
    cf.RoundTrips s ↔ ∀ b, cf.fs.read s = some b →
      (b.length : ℤ) ≤ ControlFileHeader.size + 32 * (cf.header.chunks + 1) := by
  have hcount := hsetUp.written.1.count_eq
  rw [roundTrips_iff_of_here hsetUp hsums hok]
  cases hb : cf.fs.read s with
  | none => simp
  | some b =>
    simp only [Option.getD_some, Option.some.injEq, forall_eq']
    omega

/-! ## A file that has been longer -/

/-- A version whose first control file has the bytes `b`; an upload of three bytes is set up. -/
def threeBytes (b : Option (List UInt8)) : ControlFile where
  header := ⟨160, 0, 2, 1, 2, -1, 3⟩
  sum := Vector.replicate 32 0
  sums := List.replicate 2 (Vector.replicate 32 0)
  suffix := .first
  version := "1"
  pd := ⟨[], 0, .ok, 0, true, []⟩
  sha2 := Vector.replicate 32 0
  fs := ⟨fun loc => if loc = .version "1" then some (VersionDir.empty.setFile .first b) else none,
    some "1", .version "1"⟩

theorem setUp_threeBytes (b : Option (List UInt8)) : (threeBytes b).header.SetUp :=
  ⟨threeBytes none, (((threeBytes none).layOut 3 2).writeControlFile .first).1, 3, 2, rfl, rfl⟩

theorem writeSucceeds_threeBytes (b : Option (List UInt8)) : (threeBytes b).WriteSucceeds .first :=
  ⟨rfl, by
    have hcount : (threeBytes b).header.count = 2 := rfl
    rw [hcount]
    decide⟩

theorem roundTrips_threeBytes : (threeBytes none).RoundTrips .first :=
  (roundTrips_iff (threeBytes none) .first (setUp_threeBytes none) rfl
    (writeSucceeds_threeBytes none)).2 fun _ hb => by cases hb

/-- The control file of an upload of six bytes, in three chunks. -/
def ofSixBytes : List UInt8 := ((threeBytes none).layOut 6 2).sealHeader.content

theorem laidOut_ofSixBytes : ((threeBytes none).layOut 6 2).LaidOut :=
  (threeBytes none).laidOut_layOut rfl (by norm_num) (by norm_num) (by norm_num)

theorem accepted_ofSixBytes : accepted ofSixBytes = true :=
  accepted_sealHeader laidOut_ofSixBytes (by
    rw [Fits]
    decide)

theorem length_ofSixBytes : ofSixBytes.length = 192 :=
  length_content (laidOut_sealHeader laidOut_ofSixBytes).allocated

/-- An upload of two chunks is set up where the control file of one of three chunks is left. -/
theorem roundTrips_fails_of_longer : ¬ ∀ (cf : ControlFile) (s : Suffix), cf.header.SetUp →
    (cf.sums.length : ℤ) = cf.header.chunks → cf.WriteSucceeds s →
    (∀ b, cf.fs.read s = some b → accepted b = true) → cf.RoundTrips s := by
  intro hall
  have hrt := hall (threeBytes (some ofSixBytes)) .first (setUp_threeBytes _) rfl
    (writeSucceeds_threeBytes _) fun b hb => Option.some.inj hb ▸ accepted_ofSixBytes
  rw [roundTrips_iff_of_here (setUp_threeBytes _) rfl (writeSucceeds_threeBytes _)] at hrt
  have hread : (threeBytes (some ofSixBytes)).fs.read .first = some ofSixBytes := rfl
  have hcount : (threeBytes (some ofSixBytes)).header.count = 2 := rfl
  rw [hread, Option.getD_some, length_ofSixBytes, hcount] at hrt
  exact absurd hrt (by decide)

end ControlFile

end EW8.Update

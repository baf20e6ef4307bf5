import EW8.Update.Client
import EW8.Update.PowerLoss
import EW8.Update.Verification

/-!
# A file, chunk by chunk

The upload of a file into an empty directory, when no chunk fails to be stored: after `k` chunks the
image is what they make up, and the control file written last says so (`Upto`). It is taken by
`ReadControlFile` if its size fits in 32 bits.

* `upto_layOut`: the layout;
* `upto_chunk`: a chunk is handed over, and stored.
-/

namespace EW8.Update

namespace Upload

variable (u : Upload)

/-- The number of chunks of the file. -/
def chunks : ℕ := (u.file.length + u.chunkSize - 1) / u.chunkSize

variable {u} {k : ℕ}

/-- The chunks are those that start inside of the file. -/
theorem lt_chunks_iff : k < u.chunks ↔ k * u.chunkSize < u.file.length := by
  have hpos := u.chunkSize_pos
  rw [chunks, ← Nat.succ_le_iff, Nat.le_div_iff_mul_le hpos, Nat.succ_mul]
  omega

theorem chunks_pos (h : u.file ≠ []) : 0 < u.chunks := by
  rw [lt_chunks_iff, Nat.zero_mul]
  exact List.length_pos_of_ne_nil h

theorem chunks_le (u : Upload) : u.chunks ≤ u.file.length := by
  by_contra h
  have hlt := lt_chunks_iff.1 (not_le.1 h)
  have := Nat.le_mul_of_pos_right u.file.length u.chunkSize_pos
  omega

/-- The chunks make up the file. -/
theorem take_append_chunkAt (k : ℕ) : u.file.take (k * u.chunkSize) ++ u.chunkAt k =
    u.file.take ((k + 1) * u.chunkSize) := by
  rw [chunkAt, Nat.succ_mul, List.take_add]

theorem take_chunks : u.file.take (u.chunks * u.chunkSize) = u.file := by
  refine List.take_of_length_le ?_
  have h : ¬ u.chunks < u.chunks := lt_irrefl _
  rw [lt_chunks_iff] at h
  exact not_lt.1 h

/-- The layout of the file. -/
structure Lays (u : Upload) (h : ControlFileHeader) : Prop where
  chunkSize : h.chunkSize = u.chunkSize
  lastChunkSize : h.lastChunkSize = u.file.length % u.chunkSize
  chunks : h.chunks = u.chunks

/-- Each chunk has the size that the engine expects. -/
theorem Lays.length_chunkAt {h : ControlFileHeader} (hl : u.Lays h) (hk : k < u.chunks) :
    (u.chunkAt k).length = h.sizeOf k := by
  have hpos := u.chunkSize_pos
  have hlt := lt_chunks_iff.1 hk
  rw [chunkAt, List.length_take, List.length_drop, ControlFileHeader.sizeOf, hl.chunkSize,
    hl.lastChunkSize, hl.chunks]
  by_cases hlast : k + 1 < u.chunks
  · have hnext := lt_chunks_iff.1 hlast
    rw [Nat.succ_mul] at hnext
    rw [if_pos (Or.inl (by exact_mod_cast hlast))]
    omega
  · -- the last chunk ends with the file
    have hend : u.file.length ≤ (k + 1) * u.chunkSize := by
      rw [lt_chunks_iff] at hlast
      exact not_lt.1 hlast
    rw [Nat.succ_mul] at hend
    obtain ⟨r, hr⟩ := Nat.exists_eq_add_of_lt hlt
    have hmod : u.file.length % u.chunkSize = (r + 1) % u.chunkSize := by
      rw [hr, Nat.add_assoc, Nat.mul_add_mod']
    rw [hmod]
    obtain hfull | hpart := eq_or_lt_of_le (show r + 1 ≤ u.chunkSize by omega)
    · rw [hfull, Nat.mod_self, if_pos (Or.inr rfl)]
      omega
    · have hcond : ¬((k : ℤ) + 1 < u.chunks ∨ r + 1 = 0) := by omega
      rw [Nat.mod_eq_of_lt hpart, if_neg hcond]
      omega

end Upload

namespace ControlFile

variable {u : Upload} {cf cf' : ControlFile} {s : Suffix} {b : List UInt8} {k : ℕ}

/-- The first `k` chunks, with their numbers. -/
def numbered (u : Upload) (k : ℕ) : List (ℤ × List UInt8) :=
  (List.range k).map fun j : ℕ => ((j : ℤ), u.chunkAt j)

/-- The first `k` chunks of the file are in the image, and in the control file written last. -/
structure Upto (u : Upload) (cf : ControlFile) (k : ℕ) : Prop where
  steady : cf.Steady
  written : cf.pd.writtenStatus = true
  ok : cf.pd.mErr = .ok
  handed : cf.pd.handed = numbered u k
  layout : u.Lays cf.header
  last : cf.header.lastSuccessfulChunk + 1 = k
  image : cf.image.getD [] = u.file.take (k * u.chunkSize)
  files : ∀ s b, s ≠ .none → cf.fs.read s = some b →
    b.length = ControlFileHeader.size + 32 * u.chunks + 32 ∧ (ControlFileHeader.ofBytes b).Written ∧
      (ControlFileHeader.ofBytes b).chunks = u.chunks
  newest : 0 < k → ∃ b, cf.fs.read (nextSuffix cf.suffix) = some b ∧
    (ControlFileHeader.ofBytes b).lastSuccessfulChunk + 1 = k ∧ (cf.Fits → accepted b = true)

theorem Upto.count_eq (h : cf.Upto u k) : cf.header.count = u.chunks := by
  have hcount := h.steady.inRange.count_eq
  rw [h.layout.chunks] at hcount
  exact_mod_cast hcount

/-! ## A chunk -/

theorem Upto.isNext (h : cf.Upto u k) (hk : k < u.chunks) (hsmall : u.chunks < 2 ^ 31) : cf.IsNext k where
  eq := h.last.symm
  lt := by rw [h.layout.chunks]; exact_mod_cast hk
  small := by rw [h.layout.chunks]; exact_mod_cast hsmall

/-- The file that is written after a chunk is the control file as a whole, and no more. -/
theorem Upto.pieces_recorded {buf : List UInt8} (h : cf.Upto u k) (hk : cf.IsNext k) :
    (cf.recorded buf k none).sealHeader.pieces (cf.fileOf cf.suffix) k =
      (cf.recorded buf k none).sealHeader.content := by
  have hseal := laidOut_sealHeader (laidOut_recorded buf none h.steady.toLaidOut hk)
  have heq := hk.eq
  rw [ControlFile.pieces_recorded h.steady.toLaidOut hk (h.steady.own.mono (by omega) (by omega)),
    writeAt, overwrite_zero]
  rw [length_content hseal.allocated, fileOf]
  cases hb : cf.fs.read cf.suffix with
  | none => exact Nat.zero_le _
  | some b =>
    have hcount : (cf.recorded buf k none).sealHeader.header.count = u.chunks := h.count_eq
    rw [Option.getD_some, (h.files _ b h.steady.suffix hb).1, hcount]

theorem numbered_succ (u : Upload) (k : ℕ) :
    numbered u (k + 1) = numbered u k ++ [((k : ℤ), u.chunkAt k)] := by
  rw [numbered, List.range_succ, List.map_append, List.map_singleton, numbered]

/-- The chunk is written behind the chunks before it. -/
theorem Upto.recorded (h : cf.Upto u k) (hk : k < u.chunks) (hsize : u.file.length < 2 ^ 31) :
    (cf.recorded (u.chunkAt k) k none).pd.mErr = .ok ∧
      (cf.recorded (u.chunkAt k) k none).fs =
        cf.fs.write .none (u.file.take ((k + 1) * u.chunkSize)) := by
  obtain ⟨d, hd⟩ := Option.isSome_iff_exists.1 h.steady.here
  have hlt := Upload.lt_chunks_iff.1 hk
  have hnext := h.isNext hk (u.chunks_le.trans_lt hsize)
  have hofs : cf.header.chunkSize * k = k * u.chunkSize := by rw [h.layout.chunkSize, mul_comm]
  have hchunk : (k : ℤ) < toInt (cf.handOver k (u.chunkAt k)).header.chunks := by
    rw [show (cf.handOver k (u.chunkAt k)).header.chunks = cf.header.chunks from rfl,
      toInt_of_lt (by have := hnext.lt; omega) hnext.small]
    exact hnext.lt
  have hd' : (cf.handOver k (u.chunkAt k)).fs.here = some d := hd
  have hsmall : (cf.handOver k (u.chunkAt k)).header.chunkSize * k < 2 ^ 31 := by
    show cf.header.chunkSize * k < 2 ^ 31
    omega
  have hwrite := _writeFile_ok (u.chunkAt k) hd' hchunk hsmall
  have hwritten : writeAt ((cf.handOver k (u.chunkAt k)).image.getD [])
      ((cf.handOver k (u.chunkAt k)).header.chunkSize * k) (u.chunkAt k) =
        u.file.take ((k + 1) * u.chunkSize) := by
    have hlen : (u.file.take (k * u.chunkSize)).length = k * u.chunkSize := by
      rw [List.length_take, min_eq_left hlt.le]
    show writeAt (cf.image.getD []) (cf.header.chunkSize * k) (u.chunkAt k) = _
    have happend : writeAt (u.file.take (k * u.chunkSize) ++ []) (u.file.take (k * u.chunkSize)).length
        (u.chunkAt k) = u.file.take (k * u.chunkSize) ++ u.chunkAt k ++ [].drop (u.chunkAt k).length :=
      overwrite_append (u.file.take (k * u.chunkSize)) []
    rw [List.append_nil, List.drop_nil, List.append_nil, hlen] at happend
    rw [h.image, hofs, ← Upload.take_append_chunkAt, happend]
  rw [hwritten] at hwrite
  have hpair : (cf.recorded (u.chunkAt k) k none).pd.mErr =
        ((cf.handOver k (u.chunkAt k))._writeFile none (u.chunkAt k) k).2.1 ∧
      (cf.recorded (u.chunkAt k) k none).fs =
        ((cf.handOver k (u.chunkAt k))._writeFile none (u.chunkAt k) k).1 := ⟨rfl, rfl⟩
  rw [hpair.1, hpair.2, hwrite]
  exact ⟨rfl, rfl⟩

theorem upto_chunk (h : cf.Upto u k) (hk : k < u.chunks) (hsize : u.file.length < 2 ^ 31) :
    ((cf.handOver k (u.chunkAt k)).intThread none).Upto u (k + 1) := by
  have hnext := h.isNext hk (u.chunks_le.trans_lt hsize)
  have hw := laidOut_recorded (u.chunkAt k) none h.steady.toLaidOut hnext
  have hseal := laidOut_sealHeader hw
  have hsteady := h.steady.stored (u.chunkAt k) none hnext
  obtain ⟨hok, hfs⟩ := h.recorded hk hsize
  obtain ⟨d, hd⟩ := Option.isSome_iff_exists.1 hw.here
  rw [intThread_eq_stored h.steady.toLaidOut hnext]
  rw [h.pieces_recorded hnext] at hsteady ⊢
  have hcount : (cf.recorded (u.chunkAt k) k none).sealHeader.header.count = u.chunks := h.count_eq
  have himage : (cf.stored (u.chunkAt k) k none
      (cf.recorded (u.chunkAt k) k none).sealHeader.content).image =
        some (u.file.take ((k + 1) * u.chunkSize)) := by
    obtain ⟨d', hd'⟩ := Option.isSome_iff_exists.1 h.steady.here
    rw [image, ControlFile.stored, FileSystem.read_write_of_ne h.steady.suffix.symm, hfs,
      FileSystem.read_write d' hd']
  have hown : (cf.stored (u.chunkAt k) k none
      (cf.recorded (u.chunkAt k) k none).sealHeader.content).fs.read cf.suffix =
        some (cf.recorded (u.chunkAt k) k none).sealHeader.content :=
    FileSystem.read_write d hd _
  exact {
    steady := hsteady
    written := rfl
    ok := hok
    handed := by
      rw [numbered_succ, ← h.handed]
      rfl
    layout := ⟨h.layout.chunkSize, h.layout.lastChunkSize, h.layout.chunks⟩
    last := by
      push_cast
      rfl
    image := by rw [himage, Option.getD_some]
    -- only the file with the suffix is written, and the other one keeps what it has
    files := fun s b hs hb => by
      by_cases hne : s = cf.suffix
      · subst hne
        obtain rfl := Option.some.inj (hown.symm.trans hb)
        rw [length_content hseal.allocated, ofBytes_content hseal.encodable, hcount]
        exact ⟨rfl, written_sealHeader hw.inRange, h.layout.chunks⟩
      · rw [ControlFile.stored, FileSystem.read_write_of_ne hne, hfs, FileSystem.read_write_of_ne hs] at hb
        exact h.files s b hs hb
    newest := fun _ => by
      refine ⟨_, ?_, ?_, fun hfits => accepted_sealHeader hw hfits⟩
      · show FileSystem.read _ (nextSuffix (nextSuffix cf.suffix)) = _
        rw [nextSuffix_nextSuffix h.steady.suffix]
        exact hown
      · rw [ofBytes_content hseal.encodable]
        push_cast
        rfl }

/-! ## The layout -/

/-- A new status changes neither the image nor the control files. -/
theorem Upto.setUpdateStatus (h : cf.Upto u k) (status : UpdateStatus) :
    (cf.setUpdateStatus status).Upto u k := by
  have hread (s : Suffix) : (cf.setUpdateStatus status).fs.read s = cf.fs.read s :=
    FileSystem.read_modify_status _
  have hfile (s : Suffix) : (cf.setUpdateStatus status).fileOf s = cf.fileOf s := by
    rw [fileOf, hread, fileOf]
  exact {
    steady := {
      here := here_setUpdateStatus.trans h.steady.here
      suffix := h.steady.suffix
      allocated := h.steady.allocated
      encodable := h.steady.encodable
      inRange := h.steady.inRange
      own := by
        rw [hfile]
        exact h.steady.own.congr rfl rfl
      other := by
        rw [OtherInStep, hfile]
        exact h.steady.other.congr rfl rfl }
    written := h.written
    ok := h.ok
    handed := h.handed
    layout := h.layout
    last := h.last
    image := by rw [image_setUpdateStatus, h.image]
    files := fun s b hs hb => h.files s b hs ((hread s).symm.trans hb)
    newest := fun hk => by
      obtain ⟨b, hb, hlast, hacc⟩ := h.newest hk
      exact ⟨b, (hread _).trans hb, hlast, hacc⟩ }

/-- The version directory has no files yet, and nothing has been handed over. -/
structure Unused (cf : ControlFile) : Prop where
  empty : ∃ d, cf.fs.here = some d ∧ ∀ s, d.file s = none
  written : cf.pd.writtenStatus = true
  ok : cf.pd.mErr = .ok
  handed : cf.pd.handed = []

theorem upto_layOut (h : cf.Unused) (hsize : u.file.length < 2 ^ 31) (hchunk : u.chunkSize < 2 ^ 32) :
    ((cf.layOut u.file.length u.chunkSize).writeControlFile .first).1.Upto u 0 := by
  obtain ⟨d, hd, hnone⟩ := h.empty
  have hhere : cf.fs.here.isSome := by rw [hd]; rfl
  have hread (s : Suffix) : cf.fs.read s = none := by
    rw [FileSystem.read, hd, Option.bind_some, hnone]
  have hsize' : u.file.length < 2 ^ 32 := hsize.trans (by norm_num)
  have hne : u.chunkSize ≠ 0 := u.chunkSize_pos.ne'
  have hlaid := cf.laidOut_layOut hhere hsize' hne hchunk
  have hseal := laidOut_sealHeader hlaid
  have hlays : u.Lays (cf.layOut u.file.length u.chunkSize).header :=
    ⟨rfl, rfl, cf.chunks_layOut hne⟩
  have hcount : (cf.layOut u.file.length u.chunkSize).sealHeader.header.count = u.chunks :=
    (cf.count_layOut hsize' hne).2
  obtain ⟨n, hheader⟩ := (cf.layOut u.file.length u.chunkSize).header_writeControlFile .first
  have hpd : ((cf.layOut u.file.length u.chunkSize).writeControlFile .first).1.pd = cf.pd :=
    pd_writeControlFile
  have hsuffix : ((cf.layOut u.file.length u.chunkSize).writeControlFile .first).1.suffix = .first :=
    suffix_writeControlFile
  exact {
    steady := ⟨hlaid.writeControlFile, by rw [hsuffix]; exact hlaid.ownInStep_writeControlFile,
      otherInStep_layOut hhere (hread .next)⟩
    written := hpd ▸ h.written
    ok := hpd ▸ h.ok
    handed := hpd ▸ h.handed
    layout := hheader ▸ ⟨hlays.chunkSize, hlays.lastChunkSize, hlays.chunks⟩
    last := by
      rw [hheader]
      rfl
    image := by
      rw [image_writeControlFile (by decide), Nat.zero_mul, List.take_zero]
      exact congrArg (·.getD []) (hread .none)
    -- only the first control file is written, in a directory without any
    files := fun s b hs hb => by
      have hd' : (cf.layOut u.file.length u.chunkSize).fs.here = some d := hd
      rw [writeControlFile_of_here hd', hnone, Option.getD_none, writeAt,
        overwrite_zero (Nat.zero_le _)] at hb
      by_cases hfirst : s = .first
      · subst hfirst
        obtain rfl := Option.some.inj ((FileSystem.read_write d hd' _).symm.trans hb)
        rw [length_content hseal.allocated, ofBytes_content hseal.encodable, hcount]
        exact ⟨rfl, written_sealHeader hlaid.inRange, hlays.chunks⟩
      · have hother : ((cf.layOut u.file.length u.chunkSize).fs.write .first
            (cf.layOut u.file.length u.chunkSize).sealHeader.content).read s = cf.fs.read s :=
          FileSystem.read_write_of_ne hfirst _
        rw [hother] at hb
        cases (hread s).symm.trans hb
    newest := fun hk => absurd hk (lt_irrefl _) }

/-! ## The end -/

/-- Once all chunks are stored, the image is the file. -/
theorem Upto.image_eq (h : cf.Upto u u.chunks) (hne : u.file ≠ []) : cf.image = some u.file := by
  have himage := h.image
  rw [Upload.take_chunks] at himage
  cases hi : cf.image with
  | some file => rw [← himage, hi, Option.getD_some]
  | none =>
    rw [hi, Option.getD_none] at himage
    exact absurd himage.symm hne

/-- A control file with the last chunk is taken just if its size fits in 32 bits. -/
theorem Upto.readControlFile_iff (h : cf.Upto u k) (hk : 0 < k) :
    (∃ s, s ≠ .none ∧ (cf.readControlFile s).2 = .ok ∧
        (cf.readControlFile s).1.header.lastSuccessfulChunk + 1 = k) ↔
      ControlFileHeader.size + 32 * (u.chunks + 1) < 2 ^ 32 := by
  constructor
  · rintro ⟨s, hs, hok, -⟩
    obtain ⟨b, hb, hacc⟩ := readControlFile_ok_iff.1 hok
    obtain ⟨hlen, hwritten, -⟩ := h.files s b hs hb
    have hlt := (length_of_accepted hwritten hacc).2
    omega
  · intro hfits
    obtain ⟨b, hb, hlast, hacc⟩ := h.newest hk
    have hacc := hacc (by rw [Fits, h.count_eq]; exact hfits)
    have hheader : (cf.readControlFile (nextSuffix cf.suffix)).1.header = ControlFileHeader.ofBytes b := by
      simp only [readControlFile, hb]
      split_ifs <;> rfl
    refine ⟨_, nextSuffix_ne_none _, readControlFile_ok_iff.2 ⟨b, hb, hacc⟩, ?_⟩
    rw [hheader, hlast]

end ControlFile

end EW8.Update

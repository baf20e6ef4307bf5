import EW8.Update.ControlFile

/-!
# The copies of the control file

The bytes of a control file: the header, the hashes of the chunks, and a hash of both. When such a
file is read, it is taken just if it is complete (`accepted`); the control file is written either
as a whole or, after a chunk, in pieces: the header, the last hashes, and the hash of the file.

* `readControlFile_ok_iff`: what is read;
* `pieces_eq`: the pieces make the whole where the rest of the file is in step with the hashes
  in memory (`InStep`);
* `accepted_content`: and that is taken when it is read again.
-/

namespace EW8.Update

namespace ControlFileHeader

variable {h : ControlFileHeader}

@[simp] theorem length_bytes (h : ControlFileHeader) : h.bytes.length = size := by
  simp [bytes, size]

/-- The numbers of the header fit in their fields. -/
structure Encodable (h : ControlFileHeader) : Prop where
  fileSize : h.fileSize < 2 ^ 64
  reserved : h.reserved < 2 ^ 192
  chunkSize : h.chunkSize < 2 ^ 32
  lastChunkSize : h.lastChunkSize < 2 ^ 32
  chunks : -2 ^ 63 ≤ h.chunks ∧ h.chunks < 2 ^ 63
  lastSuccessfulChunk : -2 ^ 63 ≤ h.lastSuccessfulChunk ∧ h.lastSuccessfulChunk < 2 ^ 63
  updateSize : h.updateSize < 2 ^ 64

theorem bmod_toLE {z : ℤ} (hz : -2 ^ 63 ≤ z ∧ z < 2 ^ 63) :
    Int.bmod (ofLE (toLE 8 (z % 2 ^ 64).toNat)) (2 ^ 64) = z := by
  have hcast : (2 : ℤ) ^ 64 = ((2 ^ 64 : ℕ) : ℤ) := by norm_num
  rw [ofLE_toLE (by omega), Int.toNat_of_nonneg (by omega), hcast, Int.emod_bmod]
  exact Int.bmod_eq_of_le (by omega) (by omega)

/-- The header is read back from its bytes. -/
theorem ofBytes_bytes (he : h.Encodable) (rest : List UInt8) : ofBytes (h.bytes ++ rest) = h := by
  have hfileSize := ofLE_toLE (k := 8) he.fileSize
  have hreserved := ofLE_toLE (k := 24) he.reserved
  have hchunkSize := ofLE_toLE (k := 4) he.chunkSize
  have hlastChunkSize := ofLE_toLE (k := 4) he.lastChunkSize
  have hupdateSize := ofLE_toLE (k := 8) he.updateSize
  have hchunks := bmod_toLE he.chunks
  have hlast := bmod_toLE he.lastSuccessfulChunk
  simp only [ofBytes, bytes, List.append_assoc, length_toLE, List.take_left', List.drop_left',
    List.drop_append, Nat.reduceLeDiff, List.drop_of_length_le, Nat.reduceSub, List.nil_append,
    hfileSize, hreserved, hchunkSize, hlastChunkSize, hchunks, hlast, hupdateSize]

/-- The number of hashes in the control file. -/
def count (h : ControlFileHeader) : ℕ := toUInt h.chunks

end ControlFileHeader

namespace ControlFile

/-! ## Bytes -/

@[simp] theorem length_sumsBytes (sums : List SHA2Store) :
    (sumsBytes sums).length = 32 * sums.length :=
  length_flatMap_const (fun sum => by simp) sums

/-- The hashes in the file are those of the list. -/
theorem getD_sumsBytes {sums : List SHA2Store} {j r : ℕ} (hr : r < 32) (hj : j < sums.length) :
    (sumsBytes sums).getD (32 * j + r) 0 = (sums.get ⟨j, hj⟩)[r] := by
  rw [sumsBytes, getD_flatMap_const (fun sum => by simp) sums hr, List.getElem?_eq_getElem hj]
  simp [hr]

/-- The `j`-th hash in the control file with the bytes `b`. -/
def hashAt (b : List UInt8) (j : ℕ) : SHA2Store :=
  Vector.ofFn fun r => b.getD (ControlFileHeader.size + 32 * j + r) 0

theorem hashAt_eq_iff {b : List UInt8} {j : ℕ} {sum : SHA2Store} :
    hashAt b j = sum ↔ ∀ r (hr : r < 32), b.getD (ControlFileHeader.size + 32 * j + r) 0 = sum[r] := by
  constructor
  · rintro rfl r hr
    simp [hashAt]
  · intro h
    refine Vector.ext fun r hr => ?_
    rw [hashAt, Vector.getElem_ofFn, h r hr]

/-- The hashes of the chunks in the control file with the bytes `b`. -/
def hashes (b : List UInt8) : List SHA2Store :=
  (List.range (ControlFileHeader.ofBytes b).count).map (hashAt b)

theorem readSums_eq (b : List UInt8) (n : ℕ) :
    readSums (b.drop ControlFileHeader.size) n = (List.range n).map (hashAt b) := by
  refine List.map_congr_left fun j _ => Vector.ext fun r hr => ?_
  simp only [hashAt, Vector.getElem_ofFn, List.getD_eq_getElem?_getD, List.getElem?_drop, add_assoc]

/-! ## Reading -/

/-- `ReadControlFile` takes the file with the bytes `b`. -/
def accepted (b : List UInt8) : Bool :=
  let header := ControlFileHeader.ofBytes b
  ControlFileHeader.size + 32 * header.count + 32 ≤ b.length && header.fileSize = b.length &&
    hashAt b header.count = sha256 (header.bytes ++ sumsBytes (hashes b))

/-- The control file as read from the bytes `b`. -/
def load (cf : ControlFile) (b : List UInt8) : ControlFile :=
  { cf with
    header := ControlFileHeader.ofBytes b
    sums := hashes b
    sum := hashAt b (ControlFileHeader.ofBytes b).count }

variable {cf cf' : ControlFile} {s : Suffix} {b file : List UInt8} {d : VersionDir}

/-- A file is read in full, or it is not taken. -/
theorem readControlFile_of_read (cf : ControlFile) (hb : cf.fs.read s = some b) :
    cf.readControlFile s = (cf.load b, .ok) ∧ accepted b = true ∨
      (cf.readControlFile s).2 ≠ .ok ∧ accepted b = false := by
  have hsum : (Vector.ofFn fun j : Fin 32 =>
      (b.drop ControlFileHeader.size).getD (32 * toUInt (ControlFileHeader.ofBytes b).chunks + j) 0) =
        hashAt b (ControlFileHeader.ofBytes b).count := by
    refine Vector.ext fun r hr => ?_
    simp only [hashAt, Vector.getElem_ofFn, List.getD_eq_getElem?_getD, List.getElem?_drop, add_assoc,
      ControlFileHeader.count]
  have hcount : (ControlFileHeader.ofBytes b).count = toUInt (ControlFileHeader.ofBytes b).chunks := rfl
  simp only [readControlFile, hb, List.length_drop, readSums_eq, hsum]
  split_ifs with h₁ h₂ h₃ h₄ h₅
  · refine .inr ⟨by simp, ?_⟩
    simp only [accepted, Bool.and_eq_false_iff, decide_eq_false_iff_not]
    exact .inl (.inl (by omega))
  · exact .inr ⟨by simp, by simp [accepted, h₂]⟩
  · refine .inr ⟨by simp, ?_⟩
    simp only [accepted, Bool.and_eq_false_iff, decide_eq_false_iff_not]
    exact .inl (.inl (by omega))
  · refine .inr ⟨by simp, ?_⟩
    simp only [accepted, Bool.and_eq_false_iff, decide_eq_false_iff_not]
    exact .inl (.inl (by omega))
  · refine .inr ⟨by simp, ?_⟩
    simp only [accepted, Bool.and_eq_false_iff, decide_eq_false_iff_not]
    exact .inr h₅
  · refine .inl ⟨rfl, ?_⟩
    simp only [accepted, Bool.and_eq_true, decide_eq_true_eq]
    exact ⟨⟨by omega, not_not.1 h₂⟩, not_not.1 h₅⟩

theorem readControlFile_ok_iff :
    (cf.readControlFile s).2 = .ok ↔ ∃ b, cf.fs.read s = some b ∧ accepted b = true := by
  cases hb : cf.fs.read s with
  | none => simp [readControlFile, hb]
  | some b =>
    rcases cf.readControlFile_of_read hb with ⟨h, hacc⟩ | ⟨h, hacc⟩
    · simp [h, hacc]
    · simp [h, hacc]

/-! ## Writing -/

/-- The bytes of the control file. -/
def content (cf : ControlFile) : List UInt8 :=
  cf.header.bytes ++ sumsBytes (cf.sums.take cf.header.count) ++ cf.sum.toList

/-- The hashes that are written after the chunk with the number `chunk`, and the first of them. -/
def window (cf : ControlFile) (chunk : ℤ) : ℕ × List SHA2Store :=
  if cf.header.chunks ≤ 16 then (0, cf.sums.take cf.header.count)
  else
    ((chunk - 2).toNat, (cf.sums.drop (chunk - 2).toNat).take (chunk - (chunk - 2).toNat + 1).toNat)

/-- A file in which the header, the hashes of the window and the hash of the file are written. -/
def pieces (cf : ControlFile) (file : List UInt8) (chunk : ℤ) : List UInt8 :=
  writeAt (writeAt (writeAt file 0 cf.header.bytes) (ControlFileHeader.size + 32 * (cf.window chunk).1)
    (sumsBytes (cf.window chunk).2)) (ControlFileHeader.size + 32 * cf.header.count) cf.sum.toList

theorem writeControlFile_of_here (hd : cf.fs.here = some d) : cf.writeControlFile s =
    ({ cf.sealHeader with
      fs := cf.fs.write s (writeAt ((d.file s).getD []) 0 cf.sealHeader.content) }, .ok) := by
  simp only [writeControlFile, hd]
  rfl

theorem writeControlFileChunk_of_here (chunk : ℤ) (hd : cf.fs.here = some d) :
    cf.writeControlFileChunk s chunk =
      ({ cf.sealHeader with
        fs := cf.fs.write s (cf.sealHeader.pieces ((d.file s).getD []) chunk) }, .ok) := by
  simp only [writeControlFileChunk, hd, pieces, window, ControlFileHeader.count]
  split_ifs <;> rfl

/-- There is a hash for each chunk. -/
def Allocated (cf : ControlFile) : Prop := cf.sums.length = cf.header.count

/-- Outside of the hashes from `lo` to `hi`, those in the file are those in memory, as far as the
    control file is not written as a whole anyway. -/
def InStep (cf : ControlFile) (file : List UInt8) (lo hi : ℕ) : Prop :=
  16 < cf.header.chunks → ∀ j (hj : j < cf.sums.length), j < lo ∨ hi < j →
    hashAt file j = cf.sums.get ⟨j, hj⟩

theorem length_content (h : cf.Allocated) :
    cf.content.length = ControlFileHeader.size + 32 * cf.header.count + 32 := by
  rw [Allocated] at h
  simp [content, h, add_assoc]

theorem getD_content_header {i : ℕ} (hi : i < ControlFileHeader.size) :
    cf.content.getD i 0 = cf.header.bytes.getD i 0 := by
  rw [content, List.append_assoc, List.getD_append _ _ _ _ (by simpa using hi)]

theorem getD_content_sums (h : cf.Allocated) {j r : ℕ} (hr : r < 32) (hj : j < cf.sums.length) :
    cf.content.getD (ControlFileHeader.size + 32 * j + r) 0 = (cf.sums.get ⟨j, hj⟩)[r] := by
  have hlen : cf.sums.length = cf.header.count := h
  have htake : cf.sums.take cf.header.count = cf.sums := List.take_of_length_le hlen.le
  rw [content, htake, List.getD_append _ _ _ _ (by simp; omega),
    List.getD_append_right _ _ _ _ (by simp; omega), ControlFileHeader.length_bytes, add_assoc,
    Nat.add_sub_cancel_left, getD_sumsBytes hr hj]

theorem getD_content_sum (h : cf.Allocated) (r : ℕ) :
    cf.content.getD (ControlFileHeader.size + 32 * cf.header.count + r) 0 = cf.sum.toList.getD r 0 := by
  have hlen : cf.sums.length = cf.header.count := h
  have htake : cf.sums.take cf.header.count = cf.sums := List.take_of_length_le hlen.le
  rw [content, htake, List.getD_append_right _ _ _ _ (by simp; omega), List.length_append,
    ControlFileHeader.length_bytes, length_sumsBytes, hlen, Nat.add_sub_cancel_left]

/-- The window covers the hashes that are not in the file yet. -/
theorem exists_window {k : ℕ} (h : cf.Allocated) (hk : k < cf.header.count)
    (hstep : cf.InStep file (k - 2) k) : ∃ start len,
      cf.window k = (start, (cf.sums.drop start).take len) ∧ start + len ≤ cf.sums.length ∧
      ∀ j (hj : j < cf.sums.length), j < start ∨ start + len ≤ j →
        hashAt file j = cf.sums.get ⟨j, hj⟩ := by
  have hlen : cf.sums.length = cf.header.count := h
  by_cases hfew : cf.header.chunks ≤ 16
  · refine ⟨0, cf.header.count, by rw [window, if_pos hfew, List.drop_zero], by omega, ?_⟩
    intro j hj hout
    omega
  · refine ⟨k - 2, k - (k - 2) + 1, ?_, by omega, ?_⟩
    · rw [window, if_neg hfew, show ((k : ℤ) - 2).toNat = k - 2 by omega,
        show ((k : ℤ) - (k - 2 : ℕ) + 1).toNat = k - (k - 2) + 1 by omega]
    · intro j hj hout
      exact hstep (not_le.1 hfew) j hj (by omega)

/-- The pieces make the whole. -/
theorem pieces_eq {k : ℕ} (h : cf.Allocated) (hk : k < cf.header.count)
    (hstep : cf.InStep file (k - 2) k) : cf.pieces file k = writeAt file 0 cf.content := by
  have hlen : cf.sums.length = cf.header.count := h
  have hcontent := length_content h
  have hsize : ControlFileHeader.size = 64 := rfl
  obtain ⟨start, len, hwindow, hle, hout⟩ := exists_window h hk hstep
  have hwlen : (sumsBytes ((cf.sums.drop start).take len)).length = 32 * len := by
    rw [length_sumsBytes, List.length_take, List.length_drop]
    omega
  have hhead : cf.header.bytes ≠ [] := List.ne_nil_of_length_pos (by simp [hsize])
  have hsum : cf.sum.toList ≠ [] := List.ne_nil_of_length_pos (by simp)
  have hne : cf.content ≠ [] := List.ne_nil_of_length_pos (by omega)
  simp only [pieces, hwindow, writeAt]
  refine ext_getD (z := 0) ?_ fun i _ => ?_
  · rw [length_overwrite hsum, length_overwrite hne, hcontent]
    by_cases hnil : sumsBytes ((cf.sums.drop start).take len) = []
    · rw [hnil, overwrite_nil, length_overwrite hhead]
      simp
      omega
    · rw [length_overwrite hnil, hwlen, length_overwrite hhead]
      simp
      omega
  · have hwhole : (overwrite 0 file 0 cf.content).getD i 0 =
        if i < ControlFileHeader.size + 32 * cf.header.count + 32 then cf.content.getD i 0
        else file.getD i 0 := by
      simp only [getD_overwrite, hcontent, zero_le, true_and, zero_add, Nat.sub_zero]
    rw [hwhole, getD_overwrite, getD_overwrite, getD_overwrite, hwlen, ControlFileHeader.length_bytes,
      Vector.length_toList]
    simp only [zero_le, true_and, zero_add, Nat.sub_zero]
    by_cases h₁ : i < ControlFileHeader.size
    · rw [if_neg (by omega), if_neg (by omega), if_pos h₁, if_pos (by omega), getD_content_header h₁]
    by_cases h₂ : i < ControlFileHeader.size + 32 * cf.header.count
    · -- a byte of the `j`-th hash
      obtain ⟨j, r, hr, rfl⟩ : ∃ j r, r < 32 ∧ i = ControlFileHeader.size + 32 * j + r :=
        ⟨(i - ControlFileHeader.size) / 32, (i - ControlFileHeader.size) % 32, by omega, by omega⟩
      have hj : j < cf.sums.length := by omega
      rw [if_neg (by omega), if_neg h₁]
      by_cases hin : start ≤ j ∧ j < start + len
      · have hsub : ControlFileHeader.size + 32 * j + r - (ControlFileHeader.size + 32 * start) =
            32 * (j - start) + r := by omega
        rw [if_pos (by omega), if_pos (by omega), hsub, getD_content_sums h hr hj,
          getD_sumsBytes hr (by rw [List.length_take, List.length_drop]; omega)]
        simp [Nat.add_sub_cancel' hin.1]
      · rw [if_neg (by omega), if_pos (by omega), getD_content_sums h hr hj, ← hout j hj (by omega)]
        simp [hashAt]
    by_cases h₃ : i < ControlFileHeader.size + 32 * cf.header.count + 32
    · obtain ⟨r, rfl⟩ := Nat.exists_eq_add_of_le (not_lt.1 h₂)
      rw [if_pos (by omega), if_pos h₃, Nat.add_sub_cancel_left, getD_content_sum h r]
    · rw [if_neg (by omega), if_neg (by omega), if_neg h₁, if_neg h₃]

/-! ## What has been written -/

theorem hashAt_content (h : cf.Allocated) {j : ℕ} (hj : j < cf.sums.length) :
    hashAt cf.content j = cf.sums.get ⟨j, hj⟩ :=
  hashAt_eq_iff.2 fun _ hr => getD_content_sums h hr hj

/-- Behind the header and the hashes, a file that is written as a whole keeps what it has. -/
theorem hashAt_overwrite (h : cf.Allocated) {j : ℕ} (hj : j < cf.sums.length) :
    hashAt (writeAt file 0 cf.content) j = cf.sums.get ⟨j, hj⟩ := by
  have hlen : cf.sums.length = cf.header.count := h
  rw [← hashAt_content h hj]
  refine hashAt_eq_iff.2 fun r hr => ?_
  rw [getD_overwrite, if_pos ⟨Nat.zero_le _, by rw [length_content h]; omega⟩, Nat.sub_zero]
  simp [hashAt]

theorem inStep_overwrite (h : cf.Allocated) {lo hi : ℕ} :
    cf.InStep (writeAt file 0 cf.content) lo hi :=
  fun _ _ hj _ => hashAt_overwrite h hj

/-- The header of a file is in its first bytes. -/
theorem ofBytes_of_take {header : ControlFileHeader} (he : header.Encodable)
    (hb : b.take ControlFileHeader.size = header.bytes) : ControlFileHeader.ofBytes b = header := by
  rw [← List.take_append_drop ControlFileHeader.size b, hb]
  exact ControlFileHeader.ofBytes_bytes he _

theorem ofBytes_overwrite (file : List UInt8) (he : cf.header.Encodable) :
    ControlFileHeader.ofBytes (writeAt file 0 cf.content) = cf.header := by
  have hsize : ControlFileHeader.size = 64 := rfl
  have hlen : ControlFileHeader.size ≤ cf.content.length := by
    rw [content, List.length_append, List.length_append, ControlFileHeader.length_bytes]
    omega
  have hhead : cf.content.take ControlFileHeader.size = cf.header.bytes := by
    rw [content, List.append_assoc]
    exact List.take_left' (ControlFileHeader.length_bytes _)
  refine ofBytes_of_take he ?_
  rw [writeAt, overwrite_of_ne_nil (List.ne_nil_of_length_pos (by omega)), List.take_zero,
    List.nil_append, List.take_append_of_le_length hlen, hhead]

theorem ofBytes_content (he : cf.header.Encodable) :
    ControlFileHeader.ofBytes cf.content = cf.header := by
  have hwhole := ofBytes_overwrite [] he
  rwa [writeAt, overwrite_zero (Nat.zero_le _)] at hwhole

/-- The hashes of the chunks are read back. -/
theorem hashes_content (h : cf.Allocated) (he : cf.header.Encodable) : hashes cf.content = cf.sums := by
  have hlen : cf.sums.length = cf.header.count := h
  rw [hashes, ofBytes_content he]
  refine List.ext_getElem (by simp [hlen]) fun j h₁ h₂ => ?_
  rw [List.getElem_map, List.getElem_range, hashAt_content h h₂]
  rfl

theorem ofBytes_pieces (he : cf.header.Encodable) (chunk : ℤ) :
    ControlFileHeader.ofBytes (cf.pieces file chunk) = cf.header := by
  have hsize : ControlFileHeader.size = 64 := rfl
  have hne : cf.header.bytes ≠ [] := List.ne_nil_of_length_pos (by simp [hsize])
  have hlen : ControlFileHeader.size ≤ (writeAt file 0 cf.header.bytes).length := by
    rw [length_overwrite hne, ControlFileHeader.length_bytes]
    omega
  have hlen' : ControlFileHeader.size ≤ (writeAt (writeAt file 0 cf.header.bytes)
      (ControlFileHeader.size + 32 * (cf.window chunk).1) (sumsBytes (cf.window chunk).2)).length := by
    by_cases hnil : sumsBytes (cf.window chunk).2 = []
    · simpa only [hnil, writeAt, overwrite_nil] using hlen
    · rw [length_overwrite hnil]
      omega
  refine ofBytes_of_take he ?_
  rw [pieces, writeAt, take_overwrite (by omega) hlen', take_overwrite (by omega) hlen]
  rw [← ControlFileHeader.length_bytes cf.header]
  show ((writeAt _ 0 cf.header.bytes).drop 0).take cf.header.bytes.length = cf.header.bytes
  exact drop_take_overwrite

/-- A control file that is written as a whole is read again. -/
theorem accepted_content (h : cf.Allocated) (he : cf.header.Encodable)
    (hsize : cf.header.fileSize = ControlFileHeader.size + 32 * cf.header.count + 32)
    (hsum : cf.sum = sha256 (cf.header.bytes ++ sumsBytes cf.sums)) : accepted cf.content = true := by
  have hlast : hashAt cf.content cf.header.count = cf.sum := by
    refine hashAt_eq_iff.2 fun r hr => ?_
    rw [getD_content_sum h]
    simp [hr]
  simp only [accepted, ofBytes_content he, hashes_content h he, hlast, hsum, length_content h, hsize,
    le_refl, decide_true, Bool.and_self]

end ControlFile

end EW8.Update

import EW8.Update.Busy
import EW8.Update.Effects

/-!
# The check of the whole image

At the end of an upload the client has the engine compute the hash of the image. A chunk is
acknowledged when it is handed over to the thread that stores it (`acked`), so that the image need
not have it yet (`hashed_fails_of_pending`).

* `hashed_of_run`: once all chunks are acknowledged and the thread is idle, the image is the chunks in
  order, in the runs in which no chunk fails to be stored, all have the size that the engine asks
  for, and no image before was longer;
* `whole_iff_of_run`: this needs no more than that no chunk fails to be stored, and the bound on the
  image before, whose end stays in the new one otherwise (`whole_fails_of_longer`).

What carries the proofs is that the image is at any time the chunks that have been stored, followed by
what is left of the image before (`Holding`).
-/

namespace EW8.Update

namespace ControlFileHeader

/-- The size of the `k`-th chunk. -/
def sizeOf (h : ControlFileHeader) (k : ℕ) : ℕ :=
  if (k : ℤ) + 1 < h.chunks ∨ h.lastChunkSize = 0 then h.chunkSize else h.lastChunkSize

/-- The size of the image. -/
def total (h : ControlFileHeader) : ℕ := h.chunkSize * (h.count - 1) + h.sizeOf (h.count - 1)

theorem sizeOf_pos (h : ControlFileHeader) (hpos : 0 < h.chunkSize) (k : ℕ) : 0 < h.sizeOf k := by
  rw [sizeOf]
  split_ifs with hfull
  · exact hpos
  · exact Nat.pos_of_ne_zero (not_or.1 hfull).2

/-- All chunks lie in the image. -/
theorem InRange.le_total {h : ControlFileHeader} {k : ℕ} (hr : h.InRange) (hk : k < h.count) :
    h.chunkSize * k + h.sizeOf k ≤ h.total := by
  have hcount := hr.count_eq
  obtain rfl | hlt := eq_or_lt_of_le (Nat.le_sub_one_of_lt hk)
  · exact le_rfl
  · have hfull : h.sizeOf k = h.chunkSize := if_pos (.inl (by omega))
    calc h.chunkSize * k + h.sizeOf k = h.chunkSize * (k + 1) := by rw [hfull]; ring
      _ ≤ h.chunkSize * (h.count - 1) := Nat.mul_le_mul_left _ hlt
      _ ≤ h.total := Nat.le_add_right _ _

end ControlFileHeader

namespace ControlFile

variable {cf : ControlFile} {d : VersionDir} {old stored buf : List UInt8} {n k : ℕ}

/-- The chunks of a layout make up the image. -/
theorem total_layOut (cf : ControlFile) {size chunkSize : ℕ} (hsize : size < 2 ^ 32) (h0 : size ≠ 0)
    (hchunk : chunkSize ≠ 0) : (cf.layOut size chunkSize).header.total = size := by
  have hcount := (cf.inRange_layOut hsize hchunk).count_eq
  have hchunks : (cf.layOut size chunkSize).header.chunks =
      size / chunkSize + if size % chunkSize > 0 then 1 else 0 := rfl
  have hlast : (cf.layOut size chunkSize).header.lastChunkSize = size % chunkSize := rfl
  have hfull : (cf.layOut size chunkSize).header.chunkSize = chunkSize := rfl
  have hdiv := Nat.div_add_mod size chunkSize
  rw [ControlFileHeader.total, ControlFileHeader.sizeOf, hlast, hfull]
  by_cases hmod : size % chunkSize = 0
  · rw [if_neg (by omega)] at hchunks
    have hcount' : (cf.layOut size chunkSize).header.count = size / chunkSize := by omega
    have hpos : 0 < size / chunkSize := by
      rcases Nat.eq_zero_or_pos (size / chunkSize) with hq | hq
      · rw [hq, hmod] at hdiv
        omega
      · exact hq
    rw [if_pos (Or.inr hmod), hcount', ← Nat.mul_succ, Nat.succ_eq_add_one, Nat.sub_add_cancel hpos]
    omega
  · rw [if_pos (Nat.pos_of_ne_zero hmod)] at hchunks
    have hcount' : (cf.layOut size chunkSize).header.count = size / chunkSize + 1 := by omega
    rw [hcount', Nat.add_sub_cancel, if_neg (by omega)]
    exact hdiv

/-- The image before a layout with chunks of the size `chunkSize`, once the chunk that may still have
    to be stored is stored. -/
def leftover (cf : ControlFile) (chunkSize : ℕ) : List UInt8 :=
  if cf.pd.writtenStatus then cf.image.getD []
  else writeAt (cf.image.getD []) (toInt (chunkSize * cf.pd.chunk)).toNat cf.pd.payload

/-- The image is the bytes `stored`, and behind them what is left of the image `old` before. -/
def Holding (cf : ControlFile) (old stored : List UInt8) : Prop :=
  cf.image.getD [] = stored ++ old.drop stored.length

theorem Holding.congr {cf' : ControlFile} (h : cf.Holding old stored) (himage : cf'.image = cf.image) :
    cf'.Holding old stored := by
  rw [Holding, himage]
  exact h

/-- Just if the image before was no longer, nothing is left of it. -/
theorem Holding.eq_iff (h : cf.Holding old stored) :
    cf.image.getD [] = stored ↔ old.length ≤ stored.length := by
  rw [h, List.append_right_eq_self, List.drop_eq_nil_iff]

/-! ## The thread -/

/-- A chunk of the image is stored. -/
theorem _writeFile_ok (buf : List UInt8) (hd : cf.fs.here = some d) (hlt : (k : ℤ) < toInt cf.header.chunks)
    (hofs : cf.header.chunkSize * k < 2 ^ 31) : cf._writeFile none buf k =
      (cf.fs.write .none (writeAt (cf.image.getD []) (cf.header.chunkSize * k) buf), .ok,
        some (sha256 buf)) := by
  have himage : cf.image.getD [] = (d.file .none).getD [] := by
    rw [image, FileSystem.read, hd, Option.bind_some]
  have hcast : toInt (cf.header.chunkSize * k) = (cf.header.chunkSize * k : ℕ) := by
    rw [Nat.cast_mul]
    have hnonneg : (0 : ℤ) ≤ (cf.header.chunkSize : ℤ) * k := by positivity
    exact toInt_of_lt (by omega) (by exact_mod_cast hofs)
  simp only [_writeFile, hd, himage, reduceCtorEq, if_false, if_neg (not_le.2 hlt), hcast, false_or]
  rw [if_neg (by omega), Int.toNat_natCast, drop_take_overwrite]

/-- Where a chunk of the image is stored. -/
theorem _writeFile_of_ok {chunk : ℤ} (buf : List UInt8) (hok : (cf._writeFile none buf chunk).2.1 = .ok) :
    chunk < toInt cf.header.chunks ∧ 0 ≤ toInt (cf.header.chunkSize * chunk) ∧
      cf.fs.here.isSome ∧ cf._writeFile none buf chunk =
        (cf.fs.write .none (writeAt (cf.image.getD []) (toInt (cf.header.chunkSize * chunk)).toNat buf),
          .ok, some (sha256 buf)) := by
  cases hd : cf.fs.here with
  | none =>
    simp only [_writeFile, hd] at hok
    cases hok
  | some d =>
    have himage : cf.image.getD [] = (d.file .none).getD [] := by
      rw [image, FileSystem.read, hd, Option.bind_some]
    simp only [_writeFile, hd, himage, reduceCtorEq, if_false, false_or] at hok ⊢
    split_ifs at hok ⊢ with hlt hofs
    exact ⟨not_le.1 hlt, not_lt.1 hofs, rfl, by rw [drop_take_overwrite]⟩

/-- The offset of a chunk below 4 GiB. -/
theorem toInt_ofs (h0 : 0 ≤ toInt ((n : ℤ) * k)) (hofs : n * k < 2 ^ 32) :
    (toInt ((n : ℤ) * k)).toNat = n * k := by
  rw [← Nat.cast_mul] at h0 ⊢
  exact (toInt_eq_natCast hofs (Int.toNat_of_nonneg h0).symm).symm

/-- The chunk behind those that are stored. -/
theorem Holding.write (h : cf.Holding old stored) (buf : List UInt8) :
    writeAt (cf.image.getD []) stored.length buf = stored ++ buf ++ old.drop (stored ++ buf).length := by
  rw [h, List.length_append, ← List.drop_drop]
  exact overwrite_append stored (old.drop stored.length)

theorem here_setUpdateStatus {status : UpdateStatus} :
    (cf.setUpdateStatus status).fs.here.isSome = cf.fs.here.isSome := by
  show ((cf.fs.modify _).here).isSome = _
  rw [FileSystem.here_modify, Option.isSome_map]

theorem image_writeControlFileChunk {s : Suffix} {chunk : ℤ} (hs : s ≠ .none) :
    (cf.writeControlFileChunk s chunk).1.image = cf.image := by
  unfold writeControlFileChunk
  split
  · rfl
  · exact FileSystem.read_write_of_ne hs.symm _

theorem here_writeControlFileChunk {s : Suffix} {chunk : ℤ} :
    (cf.writeControlFileChunk s chunk).1.fs.here.isSome = cf.fs.here.isSome := by
  unfold writeControlFileChunk
  split
  · rfl
  · show ((cf.fs.write s _).here).isSome = _
    rw [FileSystem.write, FileSystem.here_modify, Option.isSome_map]

theorem image_writeControlFile {s : Suffix} (hs : s ≠ .none) :
    (cf.writeControlFile s).1.image = cf.image := by
  unfold writeControlFile
  split
  · rfl
  · exact FileSystem.read_write_of_ne hs.symm _

theorem mErr_intThread (fault : Option WriteFault) :
    (cf.intThread fault).pd.mErr = (cf._writeFile fault cf.pd.payload cf.pd.chunk).2.1 := by
  simp only [ControlFile.intThread, pd_writeControlFileChunk]
  rfl

/-- The thread has stored the chunk handed to it. -/
theorem image_intThread (hs : cf.suffix ≠ .none) (hok : (cf.intThread none).pd.mErr = .ok) :
    0 ≤ toInt (cf.header.chunkSize * cf.pd.chunk) ∧ (cf.intThread none).fs.here.isSome ∧
      (cf.intThread none).image = some (writeAt (cf.image.getD [])
        (toInt (cf.header.chunkSize * cf.pd.chunk)).toNat cf.pd.payload) := by
  rw [mErr_intThread] at hok
  obtain ⟨-, hofs, hhere, hwrite⟩ := _writeFile_of_ok cf.pd.payload hok
  obtain ⟨d, hd⟩ := Option.isSome_iff_exists.1 hhere
  have hfs : (cf.recordChunk none).fs = (cf._writeFile none cf.pd.payload cf.pd.chunk).1 := rfl
  have hhere' : (cf.intThread none).fs.here.isSome = (cf.recordChunk none).fs.here.isSome :=
    here_writeControlFileChunk
  have himage : (cf.intThread none).image = (cf.recordChunk none).image :=
    image_writeControlFileChunk hs
  rw [hwrite] at hfs
  refine ⟨hofs, ?_, ?_⟩
  · rw [hhere', hfs, FileSystem.write, FileSystem.here_modify, Option.isSome_map]
    exact hhere
  · rw [himage, image, hfs, FileSystem.read_write d hd]

theorem Holding.intThread (h : cf.Holding old stored) (hs : cf.suffix ≠ .none) (hchunk : cf.pd.chunk = k)
    (hofs : stored.length = cf.header.chunkSize * k) (hlt : cf.header.chunkSize * k < 2 ^ 32)
    (hok : (cf.intThread none).pd.mErr = .ok) :
    (cf.intThread none).Holding old (stored ++ cf.pd.payload) := by
  obtain ⟨h0, -, himage⟩ := image_intThread hs hok
  rw [hchunk] at h0 himage
  rw [Holding, himage, Option.getD_some, toInt_ofs h0 hlt, ← hofs, h.write]

end ControlFile

/-- A command that keeps the layout and the files, whatever the state of the engine. -/
def Command.keepsUpload : Command → Bool
  | userRemove _ => false
  | c => !c.isSetup

namespace Engine

variable {e e' : Engine} {a : Event} {l : List Event} {size : ℕ} {old : List UInt8}
  {stored : List (List UInt8)}

/-! ## Acknowledged chunks -/

/-- The chunk that is acknowledged with success in a step. -/
def ackedBy (e : Engine) : Event → List (List UInt8)
  | .receive _ (.sendData buf) =>
    match (e.dataHandler buf).2 with
    | some (.ackChunk _) => [buf]
    | _ => []
  | .finishWrite => (e.writing.map Prod.snd).toList
  | _ => []

/-- The chunks that are acknowledged with success in a run. -/
def acked : Engine → List Event → List (List UInt8)
  | _, [] => []
  | e, a :: l =>
    e.ackedBy a ++
      match e.step a with
      | some e' => acked e' l
      | none => []

/-! ## The condition and the invariant -/

/-- A data packet has the size of a chunk that is left to be stored, no chunk fails to be stored, and
    the layout and the files are left alone. -/
def inOrder (e : Engine) : Event → Bool
  | .receive _ (.sendData buf) =>
    e.controlFile.header.next ≠ ControlFileHeader.defaultChunkNo &&
      e.processor.checkChunkSize buf.length
  | .receive _ (.command c) => c.keepsUpload || e.processor.state ≠ .ready
  | .writer fault => fault.isNone
  | _ => true

/-- The chunks `stored` have been accepted, and all of them are in the image but for the one that the
    thread has yet to store. -/
structure Uploaded (e : Engine) (size : ℕ) (old : List UInt8) (stored : List (List UInt8)) : Prop where
  ok : e.controlFile.pd.mErr = .ok
  here : e.controlFile.fs.here.isSome
  suffix : e.controlFile.suffix ≠ .none
  inRange : e.controlFile.header.InRange
  last : e.controlFile.header.lastSuccessfulChunk + 1 = stored.length
  chunks_pos : 0 < e.controlFile.header.chunks
  chunkSize_pos : 0 < e.controlFile.header.chunkSize
  total : e.controlFile.header.total = size
  /-- All chunks start below 4 GiB. -/
  small : e.controlFile.header.chunkSize * (e.controlFile.header.count - 1) < 2 ^ 32
  length : ∀ k (hk : k < stored.length),
    (stored.get ⟨k, hk⟩).length = e.controlFile.header.sizeOf k
  writing : ∀ k buf, e.writing = some (k, buf) → e.controlFile.IsNext stored.length ∧
    k = stored.length ∧ buf.length = e.controlFile.header.sizeOf stored.length
  idle : e.controlFile.pd.writtenStatus = true → e.controlFile.Holding old stored.flatten
  /-- The thread has yet to store the last of the chunks, or one of before the layout. -/
  pending : e.controlFile.pd.writtenStatus = false →
    (∃ front, stored = front ++ [e.controlFile.pd.payload] ∧ e.controlFile.pd.chunk = front.length ∧
      e.controlFile.Holding old front.flatten) ∨
    stored = [] ∧ e.controlFile.leftover e.controlFile.header.chunkSize = old

/-! ## The steps -/

/-- All chunks but the last one have the full size. -/
theorem length_flatten {h : ControlFileHeader}
    (hlen : ∀ k (hk : k < stored.length), (stored.get ⟨k, hk⟩).length = h.sizeOf k)
    (hlt : (stored.length : ℤ) < h.chunks) : stored.flatten.length = h.chunkSize * stored.length := by
  have hfull : ∀ n ∈ stored.map List.length, n = h.chunkSize := by
    intro n hn
    obtain ⟨chunk, hchunk, rfl⟩ := List.mem_map.1 hn
    obtain ⟨k, hk, rfl⟩ := List.mem_iff_getElem.1 hchunk
    exact (hlen k hk).trans (if_pos (.inl (by omega)))
  rw [List.length_flatten, List.sum_eq_card_nsmul _ _ hfull, List.length_map, smul_eq_mul, mul_comm]

/-- The last chunk, and the chunks before it. -/
theorem length_concat {h : ControlFileHeader} {front : List (List UInt8)} {chunk : List UInt8}
    (hlen : ∀ k (hk : k < (front ++ [chunk]).length),
      ((front ++ [chunk]).get ⟨k, hk⟩).length = h.sizeOf k)
    (hlt : (front.length : ℤ) < h.chunks) :
    front.flatten.length = h.chunkSize * front.length ∧ chunk.length = h.sizeOf front.length := by
  constructor
  · refine length_flatten (fun k hk => ?_) hlt
    have hk' : k < (front ++ [chunk]).length := by
      rw [List.length_append]
      omega
    rw [← hlen k hk', List.get_eq_getElem, List.get_eq_getElem, List.getElem_append_left hk]
  · rw [← hlen front.length (by simp), List.get_eq_getElem, List.getElem_append_right le_rfl]
    simp only [Nat.sub_self, List.getElem_cons_zero]

theorem checkChunkSize_iff {p : CANProcessor} {n k : ℕ} (hnext : p.controlFile.header.next = k) :
    p.checkChunkSize n = true ↔ n = p.controlFile.header.sizeOf k := by
  simp only [CANProcessor.checkChunkSize, hnext, ControlFileHeader.sizeOf, decide_eq_true_eq]
  by_cases hlast : (k : ℤ) + 1 ≥ p.controlFile.header.chunks
  · rw [if_pos hlast]
    by_cases h0 : p.controlFile.header.lastChunkSize = 0
    · rw [if_pos h0, if_pos (.inr h0), eq_comm]
    · rw [if_neg h0, if_neg (by omega), eq_comm]
  · rw [if_neg hlast, if_pos (Or.inl (not_le.1 hlast))]
    split_ifs with h0
    · rw [h0, eq_comm]
    · exact eq_comm

theorem uploaded_congr (h : e.Uploaded size old stored) (hheader : e'.controlFile.header = e.controlFile.header)
    (hpd : e'.controlFile.pd = e.controlFile.pd) (hsuffix : e'.controlFile.suffix = e.controlFile.suffix)
    (hhere : e'.controlFile.fs.here.isSome) (himage : e'.controlFile.image = e.controlFile.image)
    (hwriting : e'.writing = e.writing) : e'.Uploaded size old stored where
  ok := hpd ▸ h.ok
  here := hhere
  suffix := hsuffix ▸ h.suffix
  inRange := hheader ▸ h.inRange
  last := hheader ▸ h.last
  chunks_pos := hheader ▸ h.chunks_pos
  chunkSize_pos := hheader ▸ h.chunkSize_pos
  total := hheader ▸ h.total
  small := hheader ▸ h.small
  length := hheader ▸ h.length
  writing k buf hk := by
    obtain ⟨hnext, hrest⟩ := h.writing k buf (hwriting ▸ hk)
    exact ⟨⟨hheader ▸ hnext.eq, hheader ▸ hnext.lt, hheader ▸ hnext.small⟩, hheader ▸ hrest⟩
  idle hp := (h.idle (hpd ▸ hp)).congr himage
  pending hp := by
    rcases h.pending (hpd ▸ hp) with ⟨front, heq, hchunk, hold⟩ | ⟨rfl, hold⟩
    · exact .inl ⟨front, hpd ▸ heq, hpd ▸ hchunk, hold.congr himage⟩
    · refine .inr ⟨rfl, ?_⟩
      rw [ControlFile.leftover, hpd, himage, hheader]
      exact hold

theorem uploaded_status {status : UpdateStatus} (h : e.Uploaded size old stored)
    (hcf : e'.controlFile = e.controlFile.setUpdateStatus status) (hwriting : e'.writing = e.writing) :
    e'.Uploaded size old stored := by
  refine uploaded_congr h (by rw [hcf]; rfl) (by rw [hcf]; rfl) (by rw [hcf]; rfl) ?_ ?_ hwriting
  · rw [hcf]
    exact ControlFile.here_setUpdateStatus.trans h.here
  · rw [hcf, ControlFile.image_setUpdateStatus]

theorem uploaded_handOver {buf : List UInt8} (h : e.Uploaded size old stored)
    (hnext : e.controlFile.IsNext stored.length)
    (hbuf : buf.length = e.controlFile.header.sizeOf stored.length)
    (hwritten : e.controlFile.pd.writtenStatus = true) :
    (e.handOver stored.length buf).Uploaded size old (stored ++ [buf]) where
  ok := h.ok
  here := h.here
  suffix := h.suffix
  inRange := h.inRange.of_last (by omega) hnext.lt hnext.small
  last := by
    rw [List.length_append, List.length_singleton, Nat.cast_add, Nat.cast_one]
    rfl
  chunks_pos := h.chunks_pos
  chunkSize_pos := h.chunkSize_pos
  total := h.total
  small := h.small
  length k hk := by
    rw [List.length_append, List.length_singleton] at hk
    rw [List.get_eq_getElem]
    rcases Nat.lt_succ_iff_lt_or_eq.1 hk with hlt | rfl
    · rw [List.getElem_append_left hlt]
      exact h.length k hlt
    · show _ = e.controlFile.header.sizeOf stored.length
      rw [List.getElem_append_right le_rfl, ← hbuf]
      simp only [Nat.sub_self, List.getElem_cons_zero]
  writing k buf' hk := by cases hk
  idle hp := by cases hp
  pending _ := .inl ⟨stored, rfl, rfl, h.idle hwritten⟩

theorem Uploaded.of_writer (h : e.Uploaded size old stored) (hheader : ∃ n, e'.controlFile.header =
    { e.controlFile.header with fileSize := n }) (hsuffix : e'.controlFile.suffix ≠ .none)
    (hok : e'.controlFile.pd.mErr = .ok) (hhere : e'.controlFile.fs.here.isSome)
    (hwritten : e'.controlFile.pd.writtenStatus = true) (hwriting : e'.writing = e.writing)
    (hold : e'.controlFile.Holding old stored.flatten) :
    e'.Uploaded size old stored := by
  obtain ⟨n, hheader⟩ := hheader
  exact {
    ok := hok
    here := hhere
    suffix := hsuffix
    inRange := hheader ▸ h.inRange.of_fileSize n
    last := hheader ▸ h.last
    chunks_pos := hheader ▸ h.chunks_pos
    chunkSize_pos := hheader ▸ h.chunkSize_pos
    total := hheader ▸ h.total
    small := hheader ▸ h.small
    length := hheader ▸ h.length
    writing := fun k buf hk => by
      obtain ⟨hnext, hrest⟩ := h.writing k buf (hwriting ▸ hk)
      exact ⟨⟨hheader ▸ hnext.eq, hheader ▸ hnext.lt, hheader ▸ hnext.small⟩, hheader ▸ hrest⟩
    idle := fun _ => hold
    pending := fun hp => by rw [hwritten] at hp; cases hp }

theorem uploaded_writer (h : e.Uploaded size old stored) (hstep : e.writerStep none = some e')
    (hok : e'.controlFile.pd.mErr = .ok) : e'.Uploaded size old stored := by
  simp only [writerStep] at hstep
  split_ifs at hstep with hwritten
  obtain rfl := Option.some.inj hstep
  obtain ⟨⟨n, -, hheader⟩, -, hsuffix⟩ := e.controlFile.layout_intThread none
  have hsuffix' : (e.controlFile.intThread none).suffix ≠ .none := by
    rw [hsuffix]
    exact ControlFile.nextSuffix_ne_none _
  obtain ⟨-, hhere, himage⟩ := ControlFile.image_intThread h.suffix hok
  refine h.of_writer ⟨n, hheader⟩ hsuffix' hok hhere rfl rfl ?_
  rcases h.pending (by simpa using hwritten) with ⟨front, rfl, hchunk, hold⟩ | ⟨rfl, hold⟩
  · -- the chunk handed over is the last one, and so it is one of the chunks
    have hlast := h.last
    rw [List.length_append, List.length_singleton] at hlast
    have hlt : (front.length : ℤ) < e.controlFile.header.chunks := by
      have := h.inRange.lt_chunks
      omega
    have hcount := h.inRange.count_eq
    obtain ⟨hofs, -⟩ := length_concat h.length hlt
    have hofs_lt : e.controlFile.header.chunkSize * front.length < 2 ^ 32 :=
      (Nat.mul_le_mul_left _ (by omega)).trans_lt h.small
    rw [List.flatten_append, List.flatten_singleton]
    exact hold.intThread h.suffix hchunk hofs hofs_lt hok
  · -- one of before the layout
    have hold' : writeAt (e.controlFile.image.getD [])
        (toInt (e.controlFile.header.chunkSize * e.controlFile.pd.chunk)).toNat
        e.controlFile.pd.payload = old := by
      rw [← hold, ControlFile.leftover, if_neg hwritten]
    show (e.controlFile.intThread none).image.getD [] = [] ++ old.drop 0
    rw [himage, Option.getD_some, hold', List.nil_append, List.drop_zero]

theorem uploaded_command {c : Command} {o : Outcome} {ack : Acknowledge} (h : e.Uploaded size old stored)
    (hc : c.keepsUpload = true ∨ e.processor.state ≠ .ready)
    (hstep : e.commandHandler o c = some (e', ack)) : e'.Uploaded size old stored := by
  have hhandled := handled_of_commandHandler hstep
  have hsame (heq : e'.controlFile = e.controlFile) : e'.Uploaded size old stored :=
    uploaded_congr h (congrArg _ heq) (congrArg _ heq) (congrArg _ heq) (heq ▸ h.here)
      (congrArg _ heq) hhandled.writing
  have heffect := commandEffect hstep
  generalize hcf : e'.controlFile = cf at heffect
  cases heffect with
  | same => exact hsame hcf
  | existing hready => exact absurd hc (by simp [Command.keepsUpload, Command.isSetup, hready])
  | new hready => exact absurd hc (by simp [Command.keepsUpload, Command.isSetup, hready])
  | laidOut hready => exact absurd hc (by simp [Command.keepsUpload, Command.isSetup, hready])
  | notLaidOut hready => exact absurd hc (by simp [Command.keepsUpload, Command.isSetup, hready])
  | removed hready => exact absurd hc (by simp [Command.keepsUpload, hready])
  | checked => exact uploaded_status h hcf hhandled.writing

theorem uploaded_data {buf : List UInt8} {o : Outcome} (h : e.Uploaded size old stored)
    (hC : e.inOrder (.receive o (.sendData buf)) = true) :
    (e.dataHandler buf).1.Uploaded size old (stored ++ e.ackedBy (.receive o (.sendData buf))) := by
  simp only [inOrder, Bool.and_eq_true, decide_eq_true_eq] at hC
  obtain ⟨hnext, hsize⟩ := hC
  obtain ⟨k, hwrite, hk⟩ := ControlFile.exists_isNext h.inRange h.ok hnext
  obtain rfl : k = stored.length := by
    have := hk.eq
    have := h.last
    omega
  have hbuf : buf.length = e.controlFile.header.sizeOf stored.length := by
    refine (checkChunkSize_iff ?_).1 hsize
    rw [hk.eq]
    exact (h.inRange.next_eq hnext).1
  cases hwritten : e.controlFile.pd.writtenStatus with
  | true =>
    have hdata : e.dataHandler buf = (e.handOver stored.length buf,
        some (e.handOver stored.length buf).ackNextChunk) := by
      simp only [dataHandler, hwrite, hwritten, if_true]
    have hacked : e.ackedBy (.receive o (.sendData buf)) = [buf] := by
      simp only [ackedBy, hdata, ackNextChunk]
    rw [hacked, hdata]
    exact uploaded_handOver h hk hbuf hwritten
  | false =>
    have hdata : e.dataHandler buf = ({ e with writing := some (↑stored.length, buf) }, none) := by
      simp only [dataHandler, hwrite, hwritten, Bool.false_eq_true, if_false]
    have hacked : e.ackedBy (.receive o (.sendData buf)) = [] := by
      simp only [ackedBy, hdata]
    rw [hacked, hdata, List.append_nil]
    exact { h with
      writing := fun k' buf' hk' => by
        cases hk'
        exact ⟨hk, rfl, hbuf⟩ }

theorem uploaded_step (h : e.Uploaded size old stored) (hC : e.inOrder a = true) (hstep : e.step a = some e')
    (hok : e'.controlFile.pd.mErr = .ok) : e'.Uploaded size old (stored ++ e.ackedBy a) := by
  cases a with
  | receive o packet =>
    simp only [step] at hstep
    split_ifs at hstep
    obtain ⟨⟨e₁, ack⟩, hreceive, rfl⟩ := Option.map_eq_some_iff.1 hstep
    cases packet with
    | command c =>
      obtain ⟨⟨e₂, ack'⟩, hcommand, heq⟩ := Option.map_eq_some_iff.1 hreceive
      cases heq
      have hc : c.keepsUpload = true ∨ e.processor.state ≠ .ready := by
        simpa only [inOrder, Bool.or_eq_true, decide_eq_true_eq] using hC
      simp only [ackedBy, List.append_nil]
      exact uploaded_command h hc hcommand
    | sendData buf =>
      have hdata := uploaded_data h hC
      rwa [Option.some.inj hreceive] at hdata
  | finishWrite =>
    obtain ⟨⟨e₁, ack⟩, hfinish, rfl⟩ := Option.map_eq_some_iff.1 hstep
    unfold finishWrite at hfinish
    split at hfinish
    · cases hfinish
    · rename_i k buf hwriting
      split_ifs at hfinish with hwritten
      cases hfinish
      obtain ⟨hnext, rfl, hbuf⟩ := h.writing k buf hwriting
      have hacked : e.ackedBy .finishWrite = [buf] := by rw [ackedBy, hwriting]; rfl
      rw [hacked]
      exact uploaded_handOver h hnext hbuf hwritten
  | writer fault =>
    obtain rfl : fault = none := Option.isNone_iff_eq_none.1 hC
    simp only [ackedBy, List.append_nil]
    exact uploaded_writer h hstep hok
  | script i =>
    obtain ⟨p, hp, rfl⟩ := Option.map_eq_some_iff.1 hstep
    simp only [ackedBy, List.append_nil]
    rcases CANProcessor.scriptStep_status hp with heq | ⟨status, heq⟩
    · exact uploaded_congr h (congrArg _ heq) (congrArg _ heq) (congrArg _ heq)
        ((congrArg (fun cf => cf.fs.here.isSome) heq).trans h.here) (congrArg _ heq) rfl
    · have hstatus : (e.withProcessor p).controlFile = e.controlFile.setUpdateStatus status := heq
      exact uploaded_status h hstatus rfl
  | scriptStatus i v done =>
    obtain ⟨p, hp, rfl⟩ := Option.map_eq_some_iff.1 hstep
    obtain ⟨-, hheader, -, hpd⟩ := CANProcessor.scriptStatus_files hp
    obtain ⟨hsuffix, hhere, hread⟩ := CANProcessor.scriptStatus_read hp
    simp only [ackedBy, List.append_nil]
    exact uploaded_congr h hheader hpd hsuffix (hhere.trans h.here) (hread .none) rfl

/-- The chunks that have been accepted at the end of a run without errors. -/
theorem uploaded_of_run (h : e.Uploaded size old stored)
    (hmeets : Transition.Meets step
      (fun e a => e.inOrder a = true ∧ ∀ e' ∈ step e a, e'.controlFile.pd.mErr = .ok) e l)
    (hrun : Transition.run step e l = some e') : e'.Uploaded size old (stored ++ acked e l) := by
  induction l generalizing e stored with
  | nil =>
    cases hrun
    rwa [acked, List.append_nil]
  | cons a l ih =>
    obtain ⟨e₁, hstep, hrun⟩ := Option.bind_eq_some_iff.1 hrun
    rw [acked, hstep, ← List.append_assoc]
    exact ih (uploaded_step h hmeets.1.1 hstep (hmeets.1.2 e₁ hstep)) (hmeets.2 e₁ hstep) hrun

/-! ## The layout -/

/-- Nothing is left to be stored, no chunk has failed to be, and the image that there may be is no
    longer than one of the size `size`, which is at most 2 GiB. -/
structure Clear (e : Engine) (size : ℕ) : Prop where
  writing : e.writing = none
  written : e.controlFile.pd.writtenStatus = true
  ok : e.controlFile.pd.mErr = .ok
  image : (e.controlFile.image.getD []).length ≤ size
  small : size ≤ 2 ^ 31

/-- An upload that has just been laid out. -/
theorem uploaded_setInfo {o : Outcome} {fileSize : UInt32} {chunkSize : UInt16} (hfree : e.writing = none)
    (hok : e.controlFile.pd.mErr = .ok)
    (hstep : e.commandHandler o (.setInfo fileSize chunkSize) = some (e', .ackOk)) :
    e'.Uploaded fileSize.toNat (e.controlFile.leftover chunkSize.toNat) [] := by
  have hhandled := handled_of_commandHandler hstep
  obtain ⟨cf, hinit, hcf⟩ := setInfo_ok hstep
  rcases ControlFile.initControlFile_cases hinit with hdamaged | ⟨hsize, hchunk, hwrite⟩
  · cases hdamaged
  have hchunk' : chunkSize.toNat < 2 ^ 32 := chunkSize.toNat_lt.trans (by norm_num)
  have htotal := e.controlFile.total_layOut fileSize.toNat_lt hsize hchunk
  have hchunks : (e.controlFile.layOut fileSize.toNat chunkSize.toNat).header.chunks = _ :=
    e.controlFile.chunks_layOut hchunk
  have hlaidOut (hhere : e.controlFile.fs.here.isSome) :=
    e.controlFile.laidOut_layOut hhere fileSize.toNat_lt hchunk hchunk'
  -- of what is laid out, the proof needs only the sizes, and that the image is still the old one
  set laid := e.controlFile.layOut fileSize.toNat chunkSize.toNat
  have hhere : e.controlFile.fs.here.isSome := by
    by_contra hnone
    have hd : laid.fs.here = none := Option.not_isSome_iff_eq_none.1 hnone
    simp only [ControlFile.writeControlFile, hd] at hwrite
    cases congrArg Prod.snd hwrite
  have hwritten := (hlaidOut hhere).writeControlFile (s := .first)
  obtain ⟨n, hheader⟩ := laid.header_writeControlFile .first
  have hpos := laid.header.sizeOf_pos (Nat.pos_of_ne_zero hchunk) (laid.header.count - 1)
  obtain rfl : cf = (laid.writeControlFile .first).1 := congrArg Prod.fst hwrite
  have hheader' : e'.controlFile.header = { laid.header with fileSize := n } := by
    rw [hcf, ControlFile.header_setUpdateStatus, hheader]
  have himage : e'.controlFile.image = e.controlFile.image := by
    rw [hcf, ControlFile.image_setUpdateStatus, ControlFile.image_writeControlFile (by decide)]
    rfl
  exact {
    ok := by rw [hhandled.pd, hok]
    here := by
      rw [hcf, ControlFile.here_setUpdateStatus]
      exact hwritten.here
    suffix := by
      rw [hcf]
      exact hwritten.suffix
    inRange := by
      rw [hcf, ControlFile.header_setUpdateStatus]
      exact hwritten.inRange
    last := by
      rw [hheader']
      rfl
    chunks_pos := by
      rw [hheader']
      show 0 < laid.header.chunks
      rw [hchunks]
      exact_mod_cast Nat.div_pos (by omega) (Nat.pos_of_ne_zero hchunk)
    chunkSize_pos := by
      rw [hheader']
      exact Nat.pos_of_ne_zero hchunk
    total := by
      rw [hheader']
      exact htotal
    small := by
      rw [hheader']
      have hsmall := fileSize.toNat_lt
      rw [← htotal, ControlFileHeader.total] at hsmall
      show laid.header.chunkSize * (laid.header.count - 1) < 2 ^ 32
      omega
    length := fun k hk => (by cases hk)
    writing := fun k buf hk => by
      rw [hhandled.writing, hfree] at hk
      cases hk
    idle := fun hp => by
      rw [hhandled.pd] at hp
      rw [ControlFile.leftover, if_pos hp, ControlFile.Holding, himage]
      rfl
    -- a chunk that still is to be stored goes into the new layout, at the old image
    pending := fun hp => by
      refine .inr ⟨rfl, ?_⟩
      rw [ControlFile.leftover, ControlFile.leftover, hhandled.pd, himage, hheader']
      rfl }

/-! ## The check -/

/-- All chunks make up the new image. -/
theorem Uploaded.length_eq (h : e.Uploaded size old stored)
    (hall : (stored.length : ℤ) = e.controlFile.header.chunks) : stored.flatten.length = size := by
  have hcount := h.inRange.count_eq
  have hpos := h.chunks_pos
  rcases stored.eq_nil_or_concat' with rfl | ⟨front, chunk, rfl⟩
  · rw [List.length_nil] at hall
    omega
  rw [List.length_append, List.length_singleton] at hall
  obtain ⟨hfront, hchunk⟩ := length_concat h.length (by omega)
  rw [← h.total, List.flatten_append, List.flatten_singleton, List.length_append, hfront, hchunk,
    ControlFileHeader.total, show e.controlFile.header.count - 1 = front.length by omega]

/-- Once all chunks are stored, the image is these chunks just if the one before was no longer. -/
theorem Uploaded.image_iff (h : e.Uploaded size old stored) (hwritten : e.controlFile.pd.writtenStatus = true)
    (hall : (stored.length : ℤ) = e.controlFile.header.chunks) :
    e.controlFile.image = some stored.flatten ↔ old.length ≤ size := by
  have hlength := h.length_eq hall
  have hpos : 0 < size := by
    rw [← h.total]
    exact Nat.add_pos_right _ (e.controlFile.header.sizeOf_pos h.chunkSize_pos _)
  rw [← hlength, ← (h.idle hwritten).eq_iff]
  cases himage : e.controlFile.image with
  | some file => rw [Option.getD_some, Option.some_inj]
  | none =>
    rw [Option.getD_none]
    refine iff_of_false nofun fun hnil => ?_
    rw [← hnil, List.length_nil] at hlength
    omega

/-- The check of the whole image. -/
theorem Uploaded.hashed (h : e.Uploaded size old stored)
    (hall : (stored.length : ℤ) = e.controlFile.header.chunks)
    (himage : e.controlFile.image = some stored.flatten) :
    (e.controlFile.checkChunkSHA2 ControlFileHeader.defaultChunkNo).2 =
      (.ok, some (sha256 stored.flatten)) := by
  have hlast := h.last
  have hpos := h.chunks_pos
  have hsmall : e.controlFile.header.chunks < 2 ^ 31 := by
    by_contra hlarge
    have := h.inRange.eq_of_large (not_lt.1 hlarge)
    omega
  have hchunks : toInt e.controlFile.header.chunks = e.controlFile.header.chunks :=
    toInt_of_lt (by omega) hsmall
  have hlt : ¬ ControlFileHeader.defaultChunkNo ≥ toInt e.controlFile.header.chunks := by
    rw [hchunks]
    exact not_le.2 (lt_trans (by decide) hpos)
  simp only [ControlFile.checkChunkSHA2, himage, if_neg hlt, if_true, lt_irrefl, if_false,
    Int.toNat_zero, List.drop_zero, ControlFile.readBlocks_length]

/-- The thread is idle, or has yet to store one of the chunks. -/
def Fresh (e : Engine) (stored : List (List UInt8)) : Prop :=
  e.controlFile.pd.writtenStatus = true ∨ stored ≠ []

theorem fresh_step (h : e.Fresh stored) (hstep : e.step a = some e') :
    e'.Fresh (stored ++ e.ackedBy a) := by
  rcases h with hwritten | hne
  · cases handing hstep with
    | kept ha hpd hwriting hheader => exact .inl (hpd ▸ hwritten)
    | waits hfree hwrite hpending => cases hwritten.symm.trans hpending
    | @handedOver o buf chunk hfree hwrite hwritten =>
      refine .inr (List.append_ne_nil_of_right_ne_nil _ ?_)
      simp only [ackedBy, dataHandler, hwrite, hwritten, if_true, ackNextChunk, ne_eq,
        List.cons_ne_nil, not_false_eq_true]
    | @finished buf chunk hwriting hwritten =>
      refine .inr (List.append_ne_nil_of_right_ne_nil _ ?_)
      simp only [ackedBy, hwriting, Option.map_some, Option.toList_some, ne_eq, List.cons_ne_nil,
        not_false_eq_true]
    | stored hpending => exact .inl rfl
  · exact .inr (List.append_ne_nil_of_left_ne_nil hne _)

/-- No chunk fails to be stored in an image of at most 2 GiB. -/
theorem Uploaded.ok_of_step (h : e.Uploaded size old stored) (hfresh : e.Fresh stored)
    (hsize : size ≤ 2 ^ 31) (hC : e.inOrder a = true) (hstep : e.step a = some e') :
    e'.controlFile.pd.mErr = .ok := by
  cases handing hstep with
  | kept ha hpd hwriting hheader => exact hpd ▸ h.ok
  | waits hfree hwrite hwritten => exact h.ok
  | handedOver hfree hwrite hwritten => exact h.ok
  | finished hwriting hwritten => exact h.ok
  | @stored fault hpending =>
    obtain rfl : fault = none := Option.isNone_iff_eq_none.1 hC
    have hne : stored ≠ [] := hfresh.resolve_left (by rw [hpending]; decide)
    obtain ⟨front, rfl, hchunk, -⟩ := (h.pending hpending).resolve_right fun h => hne h.1
    obtain ⟨d, hd⟩ := Option.isSome_iff_exists.1 h.here
    have hlast := h.last
    rw [List.length_append, List.length_singleton] at hlast
    have hlt : (front.length : ℤ) < e.controlFile.header.chunks := by
      have := h.inRange.lt_chunks
      omega
    have hlarge : e.controlFile.header.chunks < 2 ^ 31 := by
      by_contra hlarge
      have := h.inRange.eq_of_large (not_lt.1 hlarge)
      omega
    have hcount := h.inRange.count_eq
    have htotal := h.inRange.le_total (k := front.length) (by omega)
    have hpos := e.controlFile.header.sizeOf_pos h.chunkSize_pos front.length
    rw [h.total] at htotal
    show (e.controlFile.intThread none).pd.mErr = .ok
    rw [ControlFile.mErr_intThread, hchunk, ControlFile._writeFile_ok _ hd
      (by rwa [toInt_of_lt (by omega) hlarge]) (by omega)]

/-- As `inOrder`, and no chunk fails to be stored. -/
def storesInOrder (e : Engine) (a : Event) : Bool :=
  e.inOrder a && (e.step a).all fun e' => e'.controlFile.pd.mErr = .ok

/-- The image is the chunks, all of them, and this is what the check of the image hashes. -/
structure Whole (e : Engine) (chunks : List (List UInt8)) (size : ℕ) : Prop where
  image : e.controlFile.image = some chunks.flatten
  length : chunks.flatten.length = size
  check : (e.controlFile.checkChunkSHA2 ControlFileHeader.defaultChunkNo).2 =
    (.ok, some (sha256 chunks.flatten))

/-- Once all chunks of an upload are stored in order and without an error, the image is what the
    upload says just if the image before was no longer. -/
theorem whole_iff_of_run {e₁ e₂ e : Engine} {o : Outcome} {fileSize : UInt32} {chunkSize : UInt16}
    (hinfo : e₁.receive o (.command (.setInfo fileSize chunkSize)) = some (e₂, some .ackOk))
    (hfree : e₁.writing = none) (hok : e₁.controlFile.pd.mErr = .ok)
    (hmeets : Transition.Meets step (fun e a => e.storesInOrder a = true) e₂ l)
    (hrun : Transition.run step e₂ l = some e)
    (hall : ((acked e₂ l).length : ℤ) = e.controlFile.header.chunks)
    (hwritten : e.controlFile.pd.writtenStatus = true) :
    e.Whole (acked e₂ l) fileSize.toNat ↔
      (e₁.controlFile.leftover chunkSize.toNat).length ≤ fileSize.toNat := by
  obtain ⟨⟨e', ack⟩, hcommand, heq⟩ := Option.map_eq_some_iff.1 hinfo
  cases heq
  have hmeets' := hmeets.mono_of_inv (I := fun _ => True)
    (D := fun e a => e.inOrder a = true ∧ ∀ e' ∈ step e a, e'.controlFile.pd.mErr = .ok)
    (fun _ _ _ _ _ _ => trivial) (fun e a _ hC => by
      obtain ⟨horder, hstores⟩ := Bool.and_eq_true_iff.1 hC
      exact ⟨horder, fun e' hstep => by simpa [show e.step a = some e' from hstep] using hstores⟩)
    trivial
  have h := uploaded_of_run (uploaded_setInfo hfree hok hcommand) hmeets' hrun
  rw [List.nil_append] at h
  rw [← h.image_iff hwritten hall]
  exact ⟨Whole.image, fun himage => ⟨himage, h.length_eq hall, h.hashed hall himage⟩⟩

/-! ## Two chunks -/

/-- All system calls succeed. -/
def allOk : Outcome := ⟨fun _ => false, true, 0⟩

instance (e : Engine) (size : ℕ) : Decidable (e.Clear size) :=
  decidable_of_iff (e.writing = none ∧ e.controlFile.pd.writtenStatus = true ∧
      e.controlFile.pd.mErr = .ok ∧ (e.controlFile.image.getD []).length ≤ size ∧ size ≤ 2 ^ 31)
    ⟨fun ⟨h₁, h₂, h₃, h₄, h₅⟩ => ⟨h₁, h₂, h₃, h₄, h₅⟩,
      fun h => ⟨h.writing, h.written, h.ok, h.image, h.small⟩⟩

/-- An upload of two bytes in chunks of one has been laid out. -/
def laidOutTwo : Option (Engine × Engine) :=
  (Transition.run step booted [receiveOk (.command (.setVersion "1"))]).bind fun e₁ =>
    (e₁.receive allOk (.command (.setInfo 2 1))).bind fun r =>
      if e₁.Clear 2 ∧ r.2 = some .ackOk then some (e₁, r.1) else none

/-- Both chunks are stored. -/
def bothStored : List Event :=
  [receiveOk (.sendData [1]), .writer none, receiveOk (.sendData [2]), .writer none]

theorem of_laidOutTwo {e₁ e₂ : Engine} (h : laidOutTwo = some (e₁, e₂)) :
    Transition.run step booted [receiveOk (.command (.setVersion "1"))] = some e₁ ∧
      e₁.Clear 2 ∧ e₁.receive allOk (.command (.setInfo 2 1)) = some (e₂, some .ackOk) := by
  obtain ⟨e₁', hrun, h⟩ := Option.bind_eq_some_iff.1 h
  obtain ⟨⟨e₂', ack⟩, hinfo, h⟩ := Option.bind_eq_some_iff.1 h
  split_ifs at h with hcond
  obtain ⟨hclear, hack⟩ := hcond
  cases h
  dsimp only at hack
  subst hack
  exact ⟨hrun, hclear, hinfo⟩

theorem whole_bothStored : ∃ e₁ e₂ e, laidOutTwo = some (e₁, e₂) ∧
    Transition.run step e₂ bothStored = some e ∧ e.Whole [[1], [2]] 2 := by
  have hstored : laidOutTwo.any (fun x => decide (Transition.Meets step
      (fun e a => e.storesInOrder a = true) x.2 bothStored) &&
      (Transition.run step x.2 bothStored).any fun e =>
        decide (acked x.2 bothStored = [[1], [2]]) && e.controlFile.header.chunks = 2 &&
          e.controlFile.pd.writtenStatus) = true := by
    decide +kernel
  obtain ⟨⟨e₁, e₂⟩, hlaid, hstored⟩ := (Option.any_eq_true ..).1 hstored
  obtain ⟨hmeets, hend⟩ := Bool.and_eq_true_iff.1 hstored
  obtain ⟨e, hrun, he⟩ := (Option.any_eq_true ..).1 hend
  simp only [Bool.and_eq_true, decide_eq_true_eq] at he
  obtain ⟨⟨hacked, hchunks⟩, hwritten⟩ := he
  obtain ⟨-, hclear, hinfo⟩ := of_laidOutTwo hlaid
  have hiff := whole_iff_of_run hinfo hclear.writing hclear.ok (of_decide_eq_true hmeets) hrun
    (by rw [hacked, hchunks]; rfl) hwritten
  rw [hacked, ControlFile.leftover, if_pos hclear.written] at hiff
  exact ⟨e₁, e₂, e, hlaid, hrun, hiff.2 hclear.image⟩

/-- An upload of three bytes. -/
def threeStored : List Event :=
  [receiveOk (.command (.setVersion "1")), receiveOk (.command (.setInfo 3 1)),
    receiveOk (.sendData [7]), .writer none, receiveOk (.sendData [8]), .writer none,
    receiveOk (.sendData [9]), .writer none]

/-- An upload of two bytes, after one of three into the same directory: the third byte stays. -/
theorem whole_fails_of_longer : ¬ ∀ (l₀ l : List Event) (o : Outcome) (fileSize : UInt32)
    (chunkSize : UInt16) (e₁ e₂ e : Engine), Transition.run step booted l₀ = some e₁ →
    e₁.writing = none → e₁.controlFile.pd.mErr = .ok →
    e₁.receive o (.command (.setInfo fileSize chunkSize)) = some (e₂, some .ackOk) →
    Transition.Meets step (fun e a => e.storesInOrder a = true) e₂ l →
    Transition.run step e₂ l = some e →
    ((acked e₂ l).length : ℤ) = e.controlFile.header.chunks →
    e.controlFile.pd.writtenStatus = true → e.Whole (acked e₂ l) fileSize.toNat := by
  intro hall
  have hlonger : (Transition.run step booted threeStored).any (fun e₁ =>
      decide (e₁.writing = none) && decide (e₁.controlFile.pd.mErr = .ok) &&
      (e₁.receive allOk (.command (.setInfo 2 1))).any fun r => decide (r.2 = some .ackOk) &&
        decide (Transition.Meets step (fun e a => e.storesInOrder a = true) r.1 bothStored) &&
        (Transition.run step r.1 bothStored).any fun e =>
          decide (acked r.1 bothStored = [[1], [2]]) && e.controlFile.header.chunks = 2 &&
            e.controlFile.pd.writtenStatus && e.controlFile.image = some [1, 2, 9]) = true := by
    decide +kernel
  obtain ⟨e₁, hrun₁, he₁⟩ := (Option.any_eq_true ..).1 hlonger
  obtain ⟨hclear, hinfo⟩ := Bool.and_eq_true_iff.1 he₁
  obtain ⟨hfree, hok⟩ := Bool.and_eq_true_iff.1 hclear
  obtain ⟨⟨e₂, ack⟩, hinfo, he₂⟩ := (Option.any_eq_true ..).1 hinfo
  obtain ⟨hack, hend⟩ := Bool.and_eq_true_iff.1 he₂
  obtain ⟨hack, hmeets⟩ := Bool.and_eq_true_iff.1 hack
  obtain ⟨e, hrun, he⟩ := (Option.any_eq_true ..).1 hend
  simp only [Bool.and_eq_true, decide_eq_true_eq] at he hack
  obtain ⟨⟨⟨hacked, hchunks⟩, hwritten⟩, himage⟩ := he
  subst hack
  have hwhole := hall _ _ allOk 2 1 e₁ e₂ e hrun₁ (of_decide_eq_true hfree) (of_decide_eq_true hok) hinfo
    (of_decide_eq_true hmeets) hrun (by rw [hacked, hchunks]; rfl) hwritten
  have hbytes := hwhole.image
  rw [hacked, himage] at hbytes
  exact absurd hbytes (by decide)

end Engine

end EW8.Update

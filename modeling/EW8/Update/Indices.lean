import EW8.Update.Busy
import EW8.Update.Effects

/-!
# The table of hashes

The thread that stores chunks writes a hash for each into the table of the hashes, at the number of
the chunk, and does not look at the size of the table. A data packet that arrives with no chunk to
store is handed over all the same, with the number of chunks as its number.

* `index_of_run`: every hash is written inside the table of the current image, and the last chunk
  in the header is one of its chunks once an upload has been laid out, in the runs in which data
  packets and the commands of the setup arrive in turn (`inTurn`);
* `index_fails_of_early_data`: a data packet that arrives before any layout.
-/

namespace EW8.Update

namespace ControlFile

variable {cf : ControlFile} {k : ℤ} {buf : List UInt8}

/-- A chunk with the number `k` can be stored: there is a hash for it in the table. -/
structure Stores (cf : ControlFile) (k : ℤ) : Prop where
  allocated : cf.Allocated
  nonneg : 0 ≤ k
  lt : k < cf.header.chunks
  inRange : cf.header.InRange
  small : cf.header.chunks < 2 ^ 31

/-- The last chunk is one of the chunks, or there is none. -/
def LastInRange (cf : ControlFile) : Prop :=
  -1 ≤ cf.header.lastSuccessfulChunk ∧ cf.header.lastSuccessfulChunk < cf.header.chunks

theorem stores_of_waits (ha : cf.Allocated) (hr : cf.header.InRange)
    (hnext : cf.header.next ≠ ControlFileHeader.defaultChunkNo)
    (hwrite : cf.writeFile = (cf, .waits k)) : cf.Stores k := by
  obtain ⟨n, hn, hisNext⟩ := exists_isNext hr (writeFile_fst hwrite).2 hnext
  rw [hwrite] at hn
  cases hn
  exact ⟨ha, by omega, hisNext.lt, hr, hisNext.small⟩

theorem Stores.handOver (h : cf.Stores k) : (cf.handOver k buf).Stores k :=
  ⟨h.allocated, h.nonneg, h.lt, h.inRange.of_last (by have := h.nonneg; omega) h.lt h.small, h.small⟩

theorem encodable_handOver (he : cf.header.Encodable) (h : cf.Stores k) :
    (cf.handOver k buf).header.Encodable := by
  have hnonneg := h.nonneg
  have hlt := h.lt
  have hsmall := h.small
  exact he.of_last (by omega) (by omega)

/-! ## The thread -/

theorem written_writeControlFileChunk {s : Suffix} (hfiles : cf.fs.Written) (hr : cf.header.InRange)
    (he : cf.header.Encodable) : (cf.writeControlFileChunk s k).1.fs.Written := by
  cases hd : cf.fs.here with
  | none =>
    simp only [writeControlFileChunk, hd]
    exact hfiles
  | some d =>
    rw [writeControlFileChunk_of_here _ hd]
    refine hfiles.write fun _ => ?_
    rw [ofBytes_pieces (encodable_sealHeader he)]
    exact written_sealHeader hr

theorem written_intThread {fault : Option WriteFault} (hfiles : cf.fs.Written)
    (hr : cf.header.InRange) (he : cf.header.Encodable) : (cf.intThread fault).fs.Written := by
  have hrecord : (cf.recordChunk fault).fs.Written := by
    have hfs : (cf.recordChunk fault).fs = (cf._writeFile fault cf.pd.payload cf.pd.chunk).1 := rfl
    rcases fs_writeFile cf fault cf.pd.payload cf.pd.chunk with h | ⟨file, h⟩
    · rw [hfs, h]
      exact hfiles
    · rw [hfs, h]
      exact hfiles.write fun hs => absurd rfl hs
  exact written_writeControlFileChunk hrecord hr he

theorem Stores.intThread {fault : Option WriteFault} (h : cf.Stores k) :
    (cf.intThread fault).Stores k := by
  obtain ⟨⟨n, -, hheader⟩, hsums, -⟩ := cf.layout_intThread fault
  refine ⟨?_, h.nonneg, ?_, ?_, ?_⟩
  · rw [Allocated, hsums, hheader]
    exact h.allocated
  · rw [hheader]
    exact h.lt
  · rw [hheader]
    exact h.inRange.of_fileSize n
  · rw [hheader]
    exact h.small

theorem encodable_intThread {fault : Option WriteFault} (he : cf.header.Encodable) :
    (cf.intThread fault).header.Encodable := by
  obtain ⟨⟨n, hn, hheader⟩, -, -⟩ := cf.layout_intThread fault
  have hfile := he.fileSize
  rw [hheader]
  exact he.of_fileSize (by omega)

theorem loads_bootStrap (cf : ControlFile) : Loads cf cf.bootStrap.1 := by
  have hdefault : Loads cf { cf with fs := makeDefault cf.fs } :=
    ⟨fun hfiles => hfiles.makeDefault, fun _ => .inl rfl⟩
  unfold bootStrap
  dsimp only
  split
  · exact hdefault
  · split
    · exact hdefault
    · rename_i fs hfs
      have hchdir : Loads { cf with fs := makeDefault cf.fs } { cf with fs := fs } :=
        .of_dirs rfl (FileSystem.dirs_chdirVersion hfs)
      have hload := (hdefault.trans hchdir).trans loads_checkAndLoadControlFile
      split
      all_goals
        rename_i heq
        rw [heq] at hload
      · exact hload.trans (.of_dirs rfl rfl)
      · exact hload

end ControlFile

namespace Engine

variable {e e' : Engine} {o : Outcome} {a : Event} {l : List Event} {created : Bool}
  {pd : WriteThreadSharedData} {fs : FileSystem}

/-! ## The condition and the invariant -/

/-- A data packet arrives with a table of the hashes and a chunk to store, or after an error of the
    thread that does not leave a number from an image before; a command of the setup arrives while
    no chunk is to be stored, or it is refused. -/
def inTurn (e : Engine) : Event → Prop
  | .receive _ (.sendData _) =>
    if e.controlFile.pd.mErr = .ok then
      e.controlFile.Allocated ∧ e.controlFile.header.next ≠ ControlFileHeader.defaultChunkNo
    else -1 ≤ e.controlFile.pd.lastSuccChunkBefore ∧
      e.controlFile.pd.lastSuccChunkBefore < e.controlFile.header.chunks
  | .receive _ (.command c) =>
    c.isSetup = true → e.controlFile.pd.writtenStatus = true ∨ e.processor.state ≠ .ready
  | _ => True

/-- The chunk that is to be stored, and the one that `WriteFile` waits with, have their places in
    the table. -/
structure Indexed (e : Engine) : Prop where
  files : e.controlFile.fs.Written
  encodable : e.controlFile.header.Encodable
  /-- As long as chunks are taken, the header is as the engine writes it, or there is none yet. -/
  inRange : e.controlFile.pd.mErr = .ok →
    e.controlFile.header.InRange ∨ e.controlFile.header.next = ControlFileHeader.defaultChunkNo
  pending : e.controlFile.pd.writtenStatus = false → e.controlFile.Stores e.controlFile.pd.chunk
  writing : ∀ k buf, e.writing = some (k, buf) → e.controlFile.Stores k

/-! ## The steps -/

theorem indexed_command {o : Outcome} {c : Command} {ack : Acknowledge} (h : e.Indexed)
    (hwriting : e.writing = none)
    (hC : c.isSetup = true → e.controlFile.pd.writtenStatus = true ∨ e.processor.state ≠ .ready)
    (hstep : e.commandHandler o c = some (e', ack)) : e'.Indexed := by
  have heffect := commandEffect hstep
  have hhandled := handled_of_commandHandler hstep
  have hload := heffect.loads
  refine ⟨hload.files h.files, ?_, fun hok => ?_, fun hpending => ?_, fun k buf hk => ?_⟩
  · rcases hload.header h.files with heq | ⟨-, henc⟩
    · exact heq ▸ h.encodable
    · exact henc
  · rw [hhandled.pd] at hok
    rcases hload.header h.files with heq | ⟨hr, -⟩
    · exact heq ▸ h.inRange hok
    · exact .inl hr
  · rw [hhandled.pd] at hpending ⊢
    have hc : c.isSetup = false ∨ e.processor.state ≠ .ready := by
      cases hsetup : c.isSetup with
      | false => exact .inl rfl
      | true => exact .inr ((hC hsetup).resolve_left (by simp [hpending]))
    obtain ⟨hheader, hsums, -⟩ := heffect.layout hc
    obtain ⟨ha, hnonneg, hlt, hr, hsmall⟩ := h.pending hpending
    exact ⟨by rw [ControlFile.Allocated, hsums, hheader]; exact ha, hnonneg, hheader ▸ hlt,
      hheader ▸ hr, hheader ▸ hsmall⟩
  · rw [hhandled.writing, hwriting] at hk
    cases hk

theorem indexed_handOver {k : ℤ} {buf : List UInt8} (h : e.Indexed) (hk : e.controlFile.Stores k) :
    (e.handOver k buf).Indexed where
  files := h.files
  encodable := ControlFile.encodable_handOver h.encodable hk
  inRange _ := .inl hk.handOver.inRange
  pending _ := hk.handOver
  writing _ _ hw := by cases hw

theorem indexed_data {buf : List UInt8} (h : e.Indexed) (hwriting : e.writing = none)
    (hC : if e.controlFile.pd.mErr = .ok then
        e.controlFile.Allocated ∧ e.controlFile.header.next ≠ ControlFileHeader.defaultChunkNo
      else -1 ≤ e.controlFile.pd.lastSuccChunkBefore ∧
        e.controlFile.pd.lastSuccChunkBefore < e.controlFile.header.chunks) :
    (e.dataHandler buf).1.Indexed := by
  have hstores {k : ℤ} (hwrite : e.controlFile.writeFile = (e.controlFile, .waits k)) :
      e.controlFile.Stores k := by
    have hok := (ControlFile.writeFile_fst hwrite).2
    obtain ⟨ha, hnext⟩ := (if_pos hok).mp hC
    exact ControlFile.stores_of_waits ha ((h.inRange hok).resolve_right hnext) hnext hwrite
  have heffect := e.dataEffect buf
  generalize (e.dataHandler buf).1 = e' at heffect
  cases heffect with
  | refused herr =>
    -- the last chunk is set to the one before the chunk that could not be stored
    obtain ⟨hge, hlt⟩ := (if_neg herr).mp hC
    have hsmall := h.encodable.chunks.2
    refine ⟨h.files, h.encodable.of_last (by omega) (hlt.trans hsmall), fun hok => absurd hok herr,
      fun hpending => ?_, fun k buf hk => ?_⟩
    · obtain ⟨ha, hnonneg, hlt', hr, hsmall⟩ := h.pending hpending
      exact ⟨ha, hnonneg, hlt', hr.of_last hge hlt hsmall, hsmall⟩
    · exact absurd (hwriting.symm.trans hk) (by simp)
  | noChunk => exact h
  | handedOver hwrite hwritten => exact indexed_handOver h (hstores hwrite)
  | @waits k hwrite hwritten =>
    refine ⟨h.files, h.encodable, h.inRange, h.pending, fun k' buf' hk => ?_⟩
    obtain ⟨rfl, rfl⟩ := Prod.mk.inj (Option.some.inj hk)
    exact hstores hwrite

theorem indexed_writer {fault : Option WriteFault} (h : e.Indexed)
    (hstep : e.writerStep fault = some e') : e'.Indexed := by
  simp only [writerStep] at hstep
  split_ifs at hstep with hwritten
  obtain rfl := Option.some.inj hstep
  have hpending := h.pending (by simpa using hwritten)
  have hstores : (e.controlFile.intThread fault).Stores e.controlFile.pd.chunk := hpending.intThread
  exact ⟨ControlFile.written_intThread h.files hpending.inRange h.encodable,
    ControlFile.encodable_intThread h.encodable, fun _ => .inl hstores.inRange,
    fun hp => (by cases hp), fun k buf hk => (h.writing k buf hk).intThread⟩

/-- A script changes a status at most. -/
theorem indexed_withProcessor {p : CANProcessor} (h : e.Indexed)
    (hfiles : p.controlFile.fs.Written) (hheader : p.controlFile.header = e.controlFile.header)
    (hsums : p.controlFile.sums = e.controlFile.sums) (hpd : p.controlFile.pd = e.controlFile.pd) :
    (e.withProcessor p).Indexed := by
  have hstores {k : ℤ} (hk : e.controlFile.Stores k) : p.controlFile.Stores k :=
    ⟨by rw [ControlFile.Allocated, hsums, hheader]; exact hk.allocated, hk.nonneg, hheader ▸ hk.lt,
      hheader ▸ hk.inRange, hheader ▸ hk.small⟩
  refine ⟨hfiles, hheader ▸ h.encodable, fun hok => ?_, fun hp => ?_, fun k buf hk => hstores (h.writing k buf hk)⟩
  · exact hheader ▸ h.inRange (hpd ▸ hok)
  · have hpending := hstores (h.pending (hpd ▸ hp))
    exact hpd ▸ hpending

theorem indexed_step (h : e.Indexed) (hC : e.inTurn a) (hstep : e.step a = some e') : e'.Indexed := by
  cases a with
  | receive o packet =>
    simp only [step] at hstep
    split_ifs at hstep with hwriting
    obtain ⟨⟨e₁, ack⟩, hreceive, rfl⟩ := Option.map_eq_some_iff.1 hstep
    cases packet with
    | command c =>
      obtain ⟨⟨e₂, ack'⟩, hcommand, heq⟩ := Option.map_eq_some_iff.1 hreceive
      cases heq
      exact indexed_command h hwriting hC hcommand
    | sendData buf =>
      have hdata : (e.dataHandler buf).1.Indexed := indexed_data h hwriting hC
      rwa [Option.some.inj hreceive] at hdata
  | finishWrite =>
    obtain ⟨⟨e₁, ack⟩, hfinish, rfl⟩ := Option.map_eq_some_iff.1 hstep
    unfold finishWrite at hfinish
    split at hfinish
    · cases hfinish
    · rename_i k buf hwriting
      split_ifs at hfinish
      cases hfinish
      exact indexed_handOver h (h.writing k buf hwriting)
  | writer fault => exact indexed_writer h hstep
  | script i =>
    obtain ⟨p, hp, rfl⟩ := Option.map_eq_some_iff.1 hstep
    rcases CANProcessor.scriptStep_status hp with heq | ⟨status, heq⟩
    · exact indexed_withProcessor h (heq ▸ h.files) (heq ▸ rfl) (heq ▸ rfl) (heq ▸ rfl)
    · exact indexed_withProcessor h (heq ▸ h.files.modify_status _) (heq ▸ rfl) (heq ▸ rfl) (heq ▸ rfl)
  | scriptStatus i v done =>
    obtain ⟨p, hp, rfl⟩ := Option.map_eq_some_iff.1 hstep
    obtain ⟨hfiles, hheader, hsums, hpd⟩ := CANProcessor.scriptStatus_files hp
    exact indexed_withProcessor h (hfiles _ h.files) hheader hsums hpd

theorem header_new : (ControlFile.new pd fs).header = ⟨0, 0, 0, 0, 0, 0, 0⟩ := rfl

theorem indexed_launch (hfiles : fs.Written) : (launch created pd fs).Indexed := by
  have hload := (ControlFile.new pd fs).loads_bootStrap
  have hpd : (ControlFile.new pd fs).bootStrap.1.pd = (ControlFile.new pd fs).pd :=
    ControlFile.pd_bootStrap
  have hcf : (launch created pd fs).controlFile = (ControlFile.new pd fs).bootStrap.1 :=
    CANProcessor.controlFile_runScript _
  refine ⟨hcf ▸ hload.files hfiles, ?_, fun _ => ?_, fun hp => ?_, fun k buf hk => by cases hk⟩
  · rw [hcf]
    rcases hload.header hfiles with heq | ⟨-, henc⟩
    · rw [heq, header_new]
      exact ⟨by decide, by decide, by decide, by decide, by decide, by decide, by decide⟩
    · exact henc
  · rw [hcf]
    rcases hload.header hfiles with heq | ⟨hr, -⟩
    · rw [heq, header_new]
      exact .inr (by decide)
    · exact .inl hr
  · rw [hcf, hpd] at hp
    cases hp

/-! ## The last chunk -/

theorem lastInRange_congr (h : e.controlFile.LastInRange)
    (hheader : e'.controlFile.header = e.controlFile.header) : e'.controlFile.LastInRange := by
  rw [ControlFile.LastInRange, hheader]
  exact h

theorem lastInRange_handOver {k : ℤ} {buf : List UInt8} (hk : e.controlFile.Stores k) :
    (e.handOver k buf).controlFile.LastInRange :=
  ⟨hk.handOver.inRange.neg_one_le, hk.handOver.inRange.lt_chunks⟩

theorem lastInRange_data {buf : List UInt8} (h : e.Indexed) (hlast : e.controlFile.LastInRange)
    (hC : e.inTurn (.receive o (.sendData buf))) : (e.dataHandler buf).1.controlFile.LastInRange := by
  have heffect := e.dataEffect buf
  generalize (e.dataHandler buf).1 = e' at heffect
  cases heffect with
  | refused herr => exact (if_neg herr).mp hC
  | noChunk => exact hlast
  | handedOver hwrite hwritten =>
    have hok := (ControlFile.writeFile_fst hwrite).2
    obtain ⟨ha, hnext⟩ := (if_pos hok).mp hC
    exact lastInRange_handOver
      (ControlFile.stores_of_waits ha ((h.inRange hok).resolve_right hnext) hnext hwrite)
  | waits => exact hlast

theorem lastInRange_step (h : e.Indexed) (hlast : e.controlFile.LastInRange) (hC : e.inTurn a)
    (hstep : e.step a = some e') : e'.controlFile.LastInRange := by
  cases a with
  | receive o packet =>
    simp only [step] at hstep
    split_ifs at hstep
    obtain ⟨⟨e₁, ack⟩, hreceive, rfl⟩ := Option.map_eq_some_iff.1 hstep
    cases packet with
    | command c =>
      obtain ⟨⟨e₂, ack'⟩, hcommand, heq⟩ := Option.map_eq_some_iff.1 hreceive
      cases heq
      -- a command keeps the layout or takes one from a file, whose last chunk is in range
      rcases (commandEffect hcommand).loads.header h.files with heq | ⟨hr, -⟩
      · exact lastInRange_congr hlast heq
      · exact ⟨hr.neg_one_le, hr.lt_chunks⟩
    | sendData buf =>
      have hdata := lastInRange_data h hlast hC
      rwa [Option.some.inj hreceive] at hdata
  | finishWrite =>
    obtain ⟨⟨e₁, ack⟩, hfinish, rfl⟩ := Option.map_eq_some_iff.1 hstep
    unfold finishWrite at hfinish
    split at hfinish
    · cases hfinish
    · rename_i k buf hwriting
      split_ifs at hfinish
      cases hfinish
      exact lastInRange_handOver (h.writing k buf hwriting)
  | writer fault =>
    simp only [step, writerStep] at hstep
    split_ifs at hstep
    obtain rfl := Option.some.inj hstep
    obtain ⟨⟨n, -, hheader⟩, -⟩ := e.controlFile.layout_intThread fault
    show (e.controlFile.intThread fault).LastInRange
    rw [ControlFile.LastInRange, hheader]
    exact hlast
  | script i =>
    obtain ⟨p, hp, rfl⟩ := Option.map_eq_some_iff.1 hstep
    exact lastInRange_congr hlast (CANProcessor.scriptStep_controlFile hp).1
  | scriptStatus i v done =>
    obtain ⟨p, hp, rfl⟩ := Option.map_eq_some_iff.1 hstep
    exact lastInRange_congr hlast (CANProcessor.scriptStatus_controlFile hp).1

/-- An upload that is laid out has no last chunk yet. -/
theorem lastInRange_setInfo {fileSize : UInt32} {chunkSize : UInt16}
    (hstep : e.commandHandler o (.setInfo fileSize chunkSize) = some (e', .ackOk)) :
    e'.controlFile.LastInRange := by
  obtain ⟨cf, hinit, hcf⟩ := setInfo_ok hstep
  have hchunk : chunkSize.toNat < 2 ^ 32 := chunkSize.toNat_lt.trans (by norm_num)
  rw [hcf]
  rcases ControlFile.header_initControlFile fileSize.toNat_lt hchunk hinit with hdamaged | ⟨hrange, -⟩
  · cases hdamaged
  · exact ⟨hrange.neg_one_le, hrange.lt_chunks⟩

/-! ## Runs -/

/-- A `CAN_SET_INFO` of the run `l` has been accepted. -/
def LaidOut (e₀ : Engine) (l : List Event) : Prop :=
  ∃ l₁ l₂ o fileSize chunkSize e₁ e₂,
    l = l₁ ++ .receive o (.command (.setInfo fileSize chunkSize)) :: l₂ ∧
      Transition.run step e₀ l₁ = some e₁ ∧
      e₁.receive o (.command (.setInfo fileSize chunkSize)) = some (e₂, some .ackOk)

instance (cf : ControlFile) : Decidable cf.Allocated :=
  inferInstanceAs (Decidable (cf.sums.length = cf.header.count))

instance (e : Engine) : (a : Event) → Decidable (e.inTurn a)
  | .receive _ (.sendData _) => inferInstanceAs (Decidable (if e.controlFile.pd.mErr = .ok then _ else _))
  | .receive _ (.command _) => inferInstanceAs (Decidable (_ → _))
  | .finishWrite => inferInstanceAs (Decidable True)
  | .writer _ => inferInstanceAs (Decidable True)
  | .script _ => inferInstanceAs (Decidable True)
  | .scriptStatus .. => inferInstanceAs (Decidable True)

theorem written_booted : (FileSystem.mk (fun loc => if loc = .download then some .empty else none) none
    .download).Written := by
  intro loc d s b hd hs hb
  simp only at hd
  split_ifs at hd
  rw [← Option.some.inj hd] at hb
  cases hb

/-- An upload of two chunks is laid out, and the first one arrives. -/
def firstChunk : List Event :=
  [receiveOk (.command (.setVersion "1")), receiveOk (.command (.setInfo 2 1)),
    receiveOk (.sendData [1])]

end Engine

end EW8.Update

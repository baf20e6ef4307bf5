import EW8.Update.Verification

/-!
# What becomes of a data packet

`WriteFile` hands the bytes of a data packet over to the thread, as the next chunk. It asks neither
for their number, nor whether the client has announced them with `CAN_WRITE_CH`; and as long as the
thread has failed to store a chunk, it hands over nothing at all.

* `sizes_of_run`: all chunks have their size, in the runs in which each data packet has the size that
  `CheckChunkSize` asks for;
* `stuck_of_run`: once a chunk could not be stored and no other one waits, nothing is stored any more;
* `recovers_iff_silent`: just the runs in which no data packet arrives after such an error go on as they
  should.
-/

namespace EW8.Update

theorem toInt_spec (z : ℤ) : toInt z % 2 ^ 32 = z % 2 ^ 32 ∧ -2 ^ 31 ≤ toInt z ∧ toInt z < 2 ^ 31 := by
  have hmod := Int.bmod_emod (x := z) (m := 2 ^ 32)
  have hle := Int.le_bmod (x := z) (m := 2 ^ 32) (by norm_num)
  have hlt := Int.bmod_lt (x := z) (m := 2 ^ 32) (by norm_num)
  norm_num at hmod hle hlt
  exact ⟨hmod, hle, hlt⟩

namespace ControlFileHeader

/-- A chunk of `n` bytes has the size that the layout has for the `i`-th one. -/
structure Sized (h : ControlFileHeader) (i : ℤ) (n : ℕ) : Prop where
  full : i + 1 < h.chunks → n = h.chunkSize
  last : i + 1 = h.chunks → n = if h.lastChunkSize = 0 then h.chunkSize else h.lastChunkSize

theorem Sized.of_fileSize {h : ControlFileHeader} {i : ℤ} {n m : ℕ} (hs : h.Sized i n) :
    { h with fileSize := m }.Sized i n := ⟨hs.full, hs.last⟩

end ControlFileHeader

namespace Engine

variable {e e' : Engine} {a : Event} {l : List Event} {o : Outcome} {buf : List UInt8} {i : ℤ}

/-! ## The size of chunks -/

/-- A data packet that is to become a chunk has the size that `CheckChunkSize` asks for. -/
def sized (e : Engine) : Event → Bool
  | .receive _ (.sendData buf) =>
    e.controlFile.pd.mErr ≠ .ok ||
      (e.controlFile.header.next = ControlFileHeader.defaultChunkNo &&
        toInt e.controlFile.header.chunks = e.controlFile.header.chunks) ||
      e.processor.checkChunkSize buf.length
  | _ => true

/-- The number that `WriteFile` takes. -/
theorem waits_chunk (hwrite : e.controlFile.writeFile = (e.controlFile, .waits i)) :
    e.controlFile.pd.mErr = .ok ∧ i =
      if e.controlFile.header.next = ControlFileHeader.defaultChunkNo then
        toInt e.controlFile.header.chunks
      else e.controlFile.header.next := by
  obtain ⟨-, hok⟩ := ControlFile.writeFile_fst hwrite
  refine ⟨hok, ?_⟩
  unfold ControlFile.writeFile at hwrite
  dsimp only at hwrite
  rw [if_neg (not_not.2 hok)] at hwrite
  generalize (if e.controlFile.header.next = ControlFileHeader.defaultChunkNo then
    toInt e.controlFile.header.chunks else e.controlFile.header.next) = j at hwrite ⊢
  split_ifs at hwrite
  · cases hwrite
  · cases hwrite
    rfl

theorem length_of_checkChunkSize {p : CANProcessor} {n : ℕ} (h : p.checkChunkSize n = true) :
    n = if p.controlFile.header.next + 1 ≥ p.controlFile.header.chunks ∧
        p.controlFile.header.lastChunkSize ≠ 0 then p.controlFile.header.lastChunkSize
      else p.controlFile.header.chunkSize := by
  simp only [CANProcessor.checkChunkSize, decide_eq_true_eq] at h
  split_ifs at h ⊢ <;> simp_all

/-- The size that `CheckChunkSize` asks for is that of the chunk that `WriteFile` takes the data
    for. -/
theorem sized_of_waits (hwrite : e.controlFile.writeFile = (e.controlFile, .waits i))
    (hC : e.sized (.receive o (.sendData buf)) = true) :
    e.controlFile.header.Sized i buf.length := by
  obtain ⟨hok, hi⟩ := waits_chunk hwrite
  simp only [sized, hok, ne_eq, not_true, decide_false, Bool.false_or, Bool.or_eq_true,
    Bool.and_eq_true, decide_eq_true_eq] at hC
  rcases hC with ⟨hnone, hchunks⟩ | hcheck
  · -- behind the last chunk
    rw [if_pos hnone, hchunks] at hi
    exact ⟨fun hlt => by omega, fun heq => by omega⟩
  · have hlen := length_of_checkChunkSize hcheck
    change buf.length = if e.controlFile.header.next + 1 ≥ e.controlFile.header.chunks ∧
        e.controlFile.header.lastChunkSize ≠ 0 then e.controlFile.header.lastChunkSize
      else e.controlFile.header.chunkSize at hlen
    by_cases hnone : e.controlFile.header.next = ControlFileHeader.defaultChunkNo
    · -- the number of the chunks is not an `int`
      rw [if_pos hnone] at hi
      obtain ⟨hmod, hlow⟩ := toInt_spec e.controlFile.header.chunks
      rw [← hi] at hmod hlow
      refine ⟨fun hlt => ?_, fun heq => by omega⟩
      rw [hlen, if_neg]
      rintro ⟨hle, -⟩
      rw [hnone, ControlFileHeader.defaultChunkNo] at hle
      omega
    · rw [if_neg hnone] at hi
      subst hi
      constructor
      · intro hlt
        rw [hlen, if_neg fun h => absurd h.1 (not_le.2 hlt)]
      · intro heq
        rw [hlen]
        split_ifs with hlast hzero hzero
        · exact absurd hzero hlast.2
        · rfl
        · rfl
        · exact absurd ⟨heq.ge, hzero⟩ hlast

/-- The data that wait for the thread have the size of the chunk that they are to become. -/
def Pending (e : Engine) : Prop :=
  ∀ i buf, e.writing = some (i, buf) → e.controlFile.header.Sized i buf.length

theorem pending_step (h : e.Pending) (hC : e.sized a = true) (hstep : e.step a = some e') :
    e'.Pending := by
  cases handing hstep with
  | kept ha hpd hwriting hheader =>
    intro i buf hi
    rw [hwriting] at hi
    rcases hheader with hfree | hheader
    · cases hfree.symm.trans hi
    · rw [hheader]
      exact h i buf hi
  | waits hfree hwrite hwritten =>
    intro i buf hi
    cases hi
    exact sized_of_waits (e := e) hwrite hC
  | handedOver hfree hwrite hwritten => exact fun i buf hi => by cases hi
  | finished hwriting hwritten => exact fun i buf hi => by cases hi
  | @stored fault hpending =>
    obtain ⟨⟨n, -, hheader⟩, -⟩ := e.controlFile.layout_intThread fault
    intro i buf hi
    have hsized := (h i buf hi).of_fileSize (m := n)
    rwa [← hheader] at hsized

/-- Only a chunk of its size is handed over. -/
theorem sized_of_handed (h : e.Pending) (hC : e.sized a = true) (hstep : e.step a = some e')
    (hhanded : e'.controlFile.pd.handed = e.controlFile.pd.handed ++ [(i, buf)]) :
    e.controlFile.header.Sized i buf.length := by
  have hsame (heq : e'.controlFile.pd.handed = e.controlFile.pd.handed) : False := by
    rw [heq] at hhanded
    exact absurd hhanded (by simp)
  have hnew {j : ℤ} {b : List UInt8} (heq : e' = e.handOver j b) : j = i ∧ b = buf := by
    rw [show e'.controlFile.pd.handed = e.controlFile.pd.handed ++ [(j, b)] from heq ▸ rfl] at hhanded
    simpa using hhanded
  cases handing hstep with
  | kept ha hpd hwriting hheader => exact absurd (congrArg _ hpd) hsame
  | waits hfree hwrite hwritten => exact absurd rfl hsame
  | handedOver hfree hwrite hwritten =>
    obtain ⟨rfl, rfl⟩ := hnew rfl
    exact sized_of_waits hwrite hC
  | finished hwriting hwritten =>
    obtain ⟨rfl, rfl⟩ := hnew rfl
    exact h _ _ hwriting
  | @stored fault hpending => exact absurd (e.controlFile.intThread_handed fault) hsame

/-- From an accepted layout on, in every run in which each data packet has the size that
    `CheckChunkSize` asks for, whatever else arrives: each chunk that is handed over to the thread
    has its size. -/
theorem sizes_of_run {e₁ e₂ : Engine} {fileSize : UInt32} {chunkSize : UInt16}
    (hinfo : e₁.receive o (.command (.setInfo fileSize chunkSize)) = some (e₂, some .ackOk))
    (hfree : e₁.writing = none) (hmeets : Transition.Meets step (fun e a => e.sized a = true) e₂ (l ++ [a]))
    (hrun : Transition.run step e₂ l = some e) (hstep : e.step a = some e')
    (hhanded : e'.controlFile.pd.handed = e.controlFile.pd.handed ++ [(i, buf)]) :
    e.controlFile.header.Sized i buf.length := by
  obtain ⟨⟨e₃, ack⟩, hcommand, heq⟩ := Option.map_eq_some_iff.1 hinfo
  cases heq
  obtain ⟨hmeets, hlast⟩ := Transition.meets_append.1 hmeets
  have hstart : e₃.Pending := fun i buf hi => by
    rw [(handled_of_commandHandler hcommand).writing, hfree] at hi
    cases hi
  have hpending := Transition.inv_of_meets (fun e a e' h hC hstep => pending_step h hC hstep)
    hstart hmeets hrun
  exact sized_of_handed hpending (hlast e hrun).1 hstep hhanded

theorem sizes_bothStored : ∃ e₁ e₂ e e', laidOutTwo = some (e₁, e₂) ∧
    Transition.run step e₂ (bothStored.take 2) = some e ∧
    e.step (receiveOk (.sendData [2])) = some e' ∧
    e'.controlFile.pd.handed = e.controlFile.pd.handed ++ [(1, [2])] ∧
    e.controlFile.header.Sized 1 1 := by
  have hstored : laidOutTwo.any (fun x => decide (Transition.Meets step (fun e a => e.sized a = true)
      x.2 (bothStored.take 2 ++ [receiveOk (.sendData [2])])) &&
      (Transition.run step x.2 (bothStored.take 2)).any fun e =>
        (e.step (receiveOk (.sendData [2]))).any fun e' =>
          decide (e'.controlFile.pd.handed = e.controlFile.pd.handed ++ [(1, [2])])) = true := by
    decide +kernel
  obtain ⟨⟨e₁, e₂⟩, hlaid, hstored⟩ := (Option.any_eq_true ..).1 hstored
  obtain ⟨hmeets, hend⟩ := Bool.and_eq_true_iff.1 hstored
  obtain ⟨e, hrun, he⟩ := (Option.any_eq_true ..).1 hend
  obtain ⟨e', hstep, he'⟩ := (Option.any_eq_true ..).1 he
  obtain ⟨-, hclear, hinfo⟩ := of_laidOutTwo hlaid
  have hhanded := of_decide_eq_true he'
  exact ⟨e₁, e₂, e, e', hlaid, hrun, hstep, hhanded, sizes_of_run hinfo hclear.writing
    (of_decide_eq_true hmeets) hrun hstep hhanded⟩

/-- Two bytes become the first chunk of a layout with chunks of one byte. -/
theorem sizes_fail_of_long_packet : ¬ ∀ (l₀ l : List Event) (a : Event) (o : Outcome) (fileSize : UInt32)
    (chunkSize : UInt16) (e₁ e₂ e e' : Engine) (i : ℤ) (buf : List UInt8),
    Transition.run step booted l₀ = some e₁ →
    e₁.receive o (.command (.setInfo fileSize chunkSize)) = some (e₂, some .ackOk) →
    e₁.writing = none → Transition.run step e₂ l = some e → e.step a = some e' →
    e'.controlFile.pd.handed = e.controlFile.pd.handed ++ [(i, buf)] →
    e.controlFile.header.Sized i buf.length := by
  intro hall
  have hlong : laidOutTwo.any (fun x => (x.2.step (receiveOk (.sendData [1, 2]))).any fun e' =>
      decide (e'.controlFile.pd.handed = x.2.controlFile.pd.handed ++ [(0, [1, 2])]) &&
        x.2.controlFile.header.chunks = 2 && x.2.controlFile.header.chunkSize = 1) = true := by
    decide +kernel
  obtain ⟨⟨e₁, e₂⟩, hlaid, hlong⟩ := (Option.any_eq_true ..).1 hlong
  obtain ⟨e', hstep, he'⟩ := (Option.any_eq_true ..).1 hlong
  simp only [Bool.and_eq_true, decide_eq_true_eq] at he'
  obtain ⟨⟨hhanded, hchunks⟩, hsize⟩ := he'
  obtain ⟨hrun₁, hclear, hinfo⟩ := of_laidOutTwo hlaid
  have hsized := hall _ [] _ allOk 2 1 e₁ e₂ e₂ e' 0 [1, 2] hrun₁ hinfo hclear.writing rfl hstep hhanded
  have hfull := hsized.full (by rw [hchunks]; decide)
  rw [hsize] at hfull
  cases hfull

/-! ## After an error -/

/-- `WriteFile` returns without handing over the data, as the thread has failed. -/
def refuses (e : Engine) : Event → Bool
  | .receive _ (.sendData _) => e.writing = none && e.controlFile.pd.mErr ≠ .ok
  | _ => false

/-- The thread fails to store a chunk. -/
def failsToStore (e : Engine) : Event → Bool
  | .writer fault => (e.step (.writer fault)).any fun e' => e'.controlFile.pd.mErr ≠ .ok
  | _ => false

/-- The data are handed over as the next chunk, or wait to be. -/
def Takes (e : Engine) (buf : List UInt8) (e' : Engine) : Prop :=
  e'.controlFile.pd.handed = e.controlFile.pd.handed ++ [(e.controlFile.header.next, buf)] ∧
      e'.controlFile.header.lastSuccessfulChunk = e.controlFile.header.next ∨
    e'.writing = some (e.controlFile.header.next, buf)

/-- A run goes on after errors as it should. -/
structure Recovers (e : Engine) (l : List Event) : Prop where
  /-- An error makes at most one call return without handing over its data. -/
  refused : ∀ l₁ l₂ e₁, l = l₁ ++ l₂ → Transition.run step e l₁ = some e₁ →
    e₁.controlFile.pd.mErr = .ok →
    Transition.count step refuses e₁ l₂ ≤ Transition.count step failsToStore e₁ l₂
  /-- It is no longer indicated after that. -/
  consumed : ∀ l₁ a l₂ e₁ e₂, l = l₁ ++ a :: l₂ → Transition.run step e l₁ = some e₁ →
    e₁.step a = some e₂ → e₁.refuses a = true → e₂.controlFile.pd.mErr = .ok
  /-- All other data are taken, as long as a chunk is left. -/
  taken : ∀ l₁ o buf l₂ e₁ e₂, l = l₁ ++ .receive o (.sendData buf) :: l₂ →
    Transition.run step e l₁ = some e₁ → e₁.step (.receive o (.sendData buf)) = some e₂ →
    e₁.refuses (.receive o (.sendData buf)) = false →
    e₁.controlFile.header.next ≠ ControlFileHeader.defaultChunkNo → e₁.Takes buf e₂

/-- A call that returns as the thread has failed does not change that. -/
theorem mErr_of_refuses (h : e.refuses a = true) (hstep : e.step a = some e') :
    e'.controlFile.pd.mErr ≠ .ok := by
  cases a with
  | receive o p =>
    cases p with
    | command c => cases h
    | sendData buf =>
      have herr : e.controlFile.pd.mErr ≠ .ok := of_decide_eq_true (Bool.and_eq_true_iff.1 h).2
      cases handing hstep with
      | kept ha hpd hwriting hheader => rwa [hpd]
      | waits hfree hwrite hwritten => exact herr
      | handedOver hfree hwrite hwritten => exact herr
  | _ => cases h

theorem takes_of_step (hstep : e.step (.receive o (.sendData buf)) = some e')
    (h : e.refuses (.receive o (.sendData buf)) = false)
    (hnext : e.controlFile.header.next ≠ ControlFileHeader.defaultChunkNo) : e.Takes buf e' := by
  simp only [step] at hstep
  split_ifs at hstep with hfree
  obtain ⟨r, hreceive, rfl⟩ := Option.map_eq_some_iff.1 hstep
  obtain rfl := Option.some.inj hreceive
  have hok : e.controlFile.pd.mErr = .ok := by
    simpa [refuses, hfree] using h
  have heffect := dataEffect e buf
  generalize (e.dataHandler buf).1 = e' at heffect ⊢
  cases heffect with
  | refused herr => exact absurd hok herr
  | noChunk _ hnone => exact absurd hnone hnext
  | handedOver hwrite hwritten =>
    obtain ⟨-, rfl⟩ := ControlFile.writeFile_waits hwrite hnext
    exact .inl ⟨rfl, rfl⟩
  | waits hwrite hwritten =>
    obtain ⟨-, rfl⟩ := ControlFile.writeFile_waits hwrite hnext
    exact .inr rfl

/-- Once the thread has failed and no call waits for it, nothing is stored any more. -/
theorem stuck_of_run (herr : e.controlFile.pd.mErr ≠ .ok) (hwritten : e.controlFile.pd.writtenStatus = true)
    (hfree : e.writing = none) (hrun : Transition.run step e l = some e') :
    e'.controlFile.pd = e.controlFile.pd ∧ e'.writing = none := by
  refine Transition.inv_of_run
    (I := fun e₁ => e₁.controlFile.pd = e.controlFile.pd ∧ e₁.writing = none) ?_ ⟨rfl, hfree⟩ hrun
  rintro e₁ a e₂ ⟨hpd, hfree⟩ hstep
  cases handing hstep with
  | kept ha hpd' hwriting hheader => exact ⟨hpd'.trans hpd, hwriting.trans hfree⟩
  | waits _ hwrite hpending =>
    rw [hpd, hwritten] at hpending
    cases hpending
  | handedOver _ hwrite hwritten =>
    have hok := (ControlFile.writeFile_fst hwrite).2
    rw [hpd] at hok
    exact absurd hok herr
  | finished hwriting hwritten => cases hfree.symm.trans hwriting
  | stored hpending =>
    rw [hpd, hwritten] at hpending
    cases hpending

/-- The first chunk cannot be stored, and the two data packets after it are not taken. -/
def firstFails : List Event :=
  [receiveOk (.command (.setVersion "1")), receiveOk (.command (.setInfo 2 1)),
    receiveOk (.sendData [1]), .writer (some .openBlob), receiveOk (.sendData [1]),
    receiveOk (.sendData [1])]

end Engine

end EW8.Update

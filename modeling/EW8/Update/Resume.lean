import EW8.Update.Copies

/-!
# Resuming an upload

An upload is resumed from the control file that goes further, of those that can be read
(`checkAndLoad_ok`). How far it really got, is found by comparing the chunks stored with their
hashes: up to the first one that is wrong, but of those only that come before the last chunk
recorded.

* `resumed_iff`: the chunks up to the resume point are all right just if one before the last chunk
  recorded is wrong, or this last one is right as well;
* `resumed_fails_of_damage`: it is not looked at.
-/

namespace EW8.Update

namespace ControlFile

variable {cf cf' : ControlFile} {s : Suffix} {b image : List UInt8} {n ch k : ℕ}

/-! ## Reading the control files -/

/-- Reading a control file changes what is known of the upload only. -/
theorem exists_readControlFile (cf : ControlFile) (s : Suffix) : ∃ header sum sums,
    (cf.readControlFile s).1 = { cf with header := header, sum := sum, sums := sums } := by
  unfold readControlFile
  split
  · exact ⟨_, _, _, rfl⟩
  · dsimp only
    split_ifs <;> exact ⟨_, _, _, rfl⟩

theorem exists_readAndCheck (cf : ControlFile) (s : Suffix) : ∃ header sum sums,
    (cf.readAndCheck s).1 = { cf with header := header, sum := sum, sums := sums } := by
  have h := cf.exists_readControlFile s
  unfold readAndCheck
  split
  all_goals
    rename_i heq
    rwa [heq] at h

/-- What `CheckStoredImage` finds for the control file with the suffix `s`. -/
def lastCorrect (cf : ControlFile) (s : Suffix) : Option ℤ :=
  (cf.fs.read s).bind fun b => if accepted b then (cf.load b).checkStoredImage.2 else none

theorem readAndCheck_of_ok (h : cf.readControlFile s = (cf', .ok)) :
    cf.readAndCheck s = (cf', cf'.checkStoredImage.2) := by
  rw [readAndCheck, h]

theorem readAndCheck_of_ne_ok (h : (cf.readControlFile s).2 ≠ .ok) : (cf.readAndCheck s).2 = none := by
  unfold readAndCheck
  split
  · rename_i heq
    exact absurd (congrArg Prod.snd heq) h
  · rfl

theorem readAndCheck_snd (cf : ControlFile) (s : Suffix) :
    (cf.readAndCheck s).2 = cf.lastCorrect s := by
  cases hb : cf.fs.read s with
  | none =>
    have hread : cf.readControlFile s = (cf, .fileNotFound) := by simp only [readControlFile, hb]
    rw [readAndCheck_of_ne_ok (by simp [hread]), lastCorrect, hb, Option.bind_none]
  | some b =>
    rw [lastCorrect, hb, Option.bind_some]
    rcases cf.readControlFile_of_read hb with ⟨h, hacc⟩ | ⟨h, hacc⟩
    · rw [readAndCheck_of_ok h, if_pos hacc]
    · rw [readAndCheck_of_ne_ok h, if_neg (by simp [hacc])]

/-- The check of the image finds a chunk if there is an image. -/
theorem checkStoredImage_isSome (cf : ControlFile) :
    cf.checkStoredImage.2.isSome ↔ cf.image.isSome := by
  unfold checkStoredImage
  split
  · rename_i h
    simp [h]
  · rename_i image h
    dsimp only
    split <;> simp [h]

theorem lastCorrect_eq_some {r : ℤ} : cf.lastCorrect s = some r ↔
    ∃ b, cf.fs.read s = some b ∧ accepted b = true ∧ (cf.load b).checkStoredImage.2 = some r := by
  simp only [lastCorrect, Option.bind_eq_some_iff]
  refine exists_congr fun b => and_congr_right fun _ => ?_
  split_ifs with h <;> simp [h]

/-- A control file that has been found in order is read again. -/
theorem readControlFile_of_lastCorrect (h : (cf.lastCorrect s).isSome) : ∃ b,
    cf.fs.read s = some b ∧ accepted b = true ∧ cf.image.isSome ∧
      ∀ header sum sums, ({ cf with header := header, sum := sum, sums := sums } :
        ControlFile).readControlFile s = (cf.load b, .ok) := by
  obtain ⟨r, hr⟩ := Option.isSome_iff_exists.1 h
  obtain ⟨b, hb, hacc, hcheck⟩ := lastCorrect_eq_some.1 hr
  refine ⟨b, hb, hacc, ?_, fun header sum sums => ?_⟩
  · have hsome : (cf.load b).checkStoredImage.2.isSome := by rw [hcheck]; rfl
    exact (cf.load b).checkStoredImage_isSome.1 hsome
  · have hread := readControlFile_of_read { cf with header := header, sum := sum, sums := sums } hb
    rw [hacc] at hread
    exact (hread.resolve_right (by simp)).1

/-- The upload as resumed from the control file with the suffix `s` and the bytes `b`. -/
def resume (cf : ControlFile) (s : Suffix) (b : List UInt8) : ControlFile :=
  { cf.load b with
    header := { ControlFileHeader.ofBytes b with
      lastSuccessfulChunk := (cf.load b).checkStoredImage.2.getD 0 }
    suffix := s }

theorem chosen_ne_none (last₀ last₁ : Option ℤ) : chosen last₀ last₁ ≠ .none := by
  unfold chosen
  split
  · decide
  · decide
  · split_ifs <;> decide

/-- It is the suffix of a control file in order, if there is one. -/
theorem isSome_chosen (h : ¬(cf.lastCorrect .first = none ∧ cf.lastCorrect .next = none)) :
    (cf.lastCorrect (chosen (cf.lastCorrect .first) (cf.lastCorrect .next))).isSome := by
  cases h₀ : cf.lastCorrect .first with
  | none =>
    cases h₁ : cf.lastCorrect .next with
    | none => exact absurd ⟨h₀, h₁⟩ h
    | some last₁ => simp [chosen, h₁]
  | some last₀ =>
    cases h₁ : cf.lastCorrect .next with
    | none => simp [chosen, h₀]
    | some last₁ =>
      simp only [chosen]
      split_ifs
      · simp [h₁]
      · simp [h₀]

/-- `CheckAndLoadControlFile` fails, or resumes the upload from one of the control files, that has
    been read and checked. -/
theorem checkAndLoad_cases (cf : ControlFile) :
    (∃ header sum sums, cf.checkAndLoadControlFile =
        ({ cf with header := header, sum := sum, sums := sums }, .fileNotFound)) ∧
      cf.lastCorrect .first = none ∧ cf.lastCorrect .next = none ∨
    ∃ s b, s ≠ .none ∧ cf.fs.read s = some b ∧ accepted b = true ∧ cf.image.isSome ∧
      cf.checkAndLoadControlFile = (cf.resume s b, .ok) := by
  obtain ⟨header₀, sum₀, sums₀, h₀⟩ := cf.exists_readAndCheck .first
  obtain ⟨header₁, sum₁, sums₁, h₁⟩ := exists_readAndCheck
    { cf with header := header₀, sum := sum₀, sums := sums₀ } .next
  have hlast : (readAndCheck { cf with header := header₀, sum := sum₀, sums := sums₀ } .next).2 =
      cf.lastCorrect .next :=
    readAndCheck_snd _ _
  have heq : cf.checkAndLoadControlFile =
      if cf.lastCorrect .first = none ∧ cf.lastCorrect .next = none then
        ({ cf with header := header₁, sum := sum₁, sums := sums₁ }, .fileNotFound)
      else (reload { cf with header := header₁, sum := sum₁, sums := sums₁ }
        (chosen (cf.lastCorrect .first) (cf.lastCorrect .next)), .ok) := by
    simp only [checkAndLoadControlFile]
    rw [h₀, cf.readAndCheck_snd .first, h₁, hlast]
  by_cases hno : cf.lastCorrect .first = none ∧ cf.lastCorrect .next = none
  · exact .inl ⟨⟨header₁, sum₁, sums₁, by rw [heq, if_pos hno]⟩, hno⟩
  · obtain ⟨b, hb, hacc, himage, hread⟩ := readControlFile_of_lastCorrect (isSome_chosen hno)
    refine .inr ⟨_, b, chosen_ne_none _ _, hb, hacc, himage, ?_⟩
    rw [heq, if_neg hno, reload, hread]
    rfl

/-- An upload is resumed from one of the control files, that has been read and checked. -/
theorem checkAndLoad_ok (h : cf.checkAndLoadControlFile = (cf', .ok)) : ∃ s b,
    s ≠ .none ∧ cf.fs.read s = some b ∧ accepted b = true ∧ cf.image.isSome ∧
      cf' = cf.resume s b := by
  rcases cf.checkAndLoad_cases with ⟨⟨header, sum, sums, heq⟩, -⟩ | ⟨s, b, hs, hb, hacc, himage, heq⟩
  · rw [heq] at h
    cases h
  · rw [heq] at h
    exact ⟨s, b, hs, hb, hacc, himage, (congrArg Prod.fst h).symm⟩

/-! ## The chunks stored -/

/-- The first bytes of the `k`-th chunk in the image, `len` of them at most. -/
def storedChunk (cf : ControlFile) (image : List UInt8) (k len : ℕ) : List UInt8 :=
  (image.drop (k * cf.header.chunkSize)).take len

/-- There are `len` bytes of the `k`-th chunk, and they have the hash recorded for it. -/
def ChunkMatches (cf : ControlFile) (image : List UInt8) (k len : ℕ) : Prop :=
  (cf.storedChunk image k len).length = len ∧ cf.sums[k]? = some (sha256 (cf.storedChunk image k len))

/-- The chunk has the full length and its hash. -/
def FullChunk (cf : ControlFile) (image : List UInt8) (k : ℕ) : Prop :=
  cf.ChunkMatches image k cf.header.chunkSize

/-- The chunk is complete and has its hash; the last one may be shorter. -/
def RightChunk (cf : ControlFile) (image : List UInt8) (k : ℕ) : Prop :=
  cf.FullChunk image k ∨ (k : ℤ) + 1 = cf.header.chunks ∧ 0 < cf.header.lastChunkSize ∧
    cf.ChunkMatches image k cf.header.lastChunkSize

instance (cf : ControlFile) (image : List UInt8) (k len : ℕ) : Decidable (cf.ChunkMatches image k len) :=
  inferInstanceAs (Decidable (_ ∧ _))

instance (cf : ControlFile) (image : List UInt8) (k : ℕ) : Decidable (cf.FullChunk image k) :=
  inferInstanceAs (Decidable (cf.ChunkMatches ..))

instance (cf : ControlFile) (image : List UInt8) (k : ℕ) : Decidable (cf.RightChunk image k) :=
  inferInstanceAs (Decidable (_ ∨ _))

/-- The loop of `CheckStoredImage` stops at the first chunk that is not in full. -/
theorem firstWrongChunk_spec (cf : ControlFile) (image : List UInt8) (n ch : ℕ) :
    (∀ k, ch ≤ k → k < ch + n → cf.FullChunk image k) ∧
        cf.firstWrongChunk n ch (image.drop (ch * cf.header.chunkSize)) = none ∨
      ∃ w, ch ≤ w ∧ w < ch + n ∧ ¬cf.FullChunk image w ∧ (∀ k, ch ≤ k → k < w → cf.FullChunk image k) ∧
        cf.firstWrongChunk n ch (image.drop (ch * cf.header.chunkSize)) = some w := by
  induction n generalizing ch with
  | zero => exact .inl ⟨fun k hle hlt => absurd hlt (by omega), rfl⟩
  | succ n ih =>
    have hdrop : (image.drop (ch * cf.header.chunkSize)).drop cf.header.chunkSize =
        image.drop ((ch + 1) * cf.header.chunkSize) := by
      rw [List.drop_drop, Nat.succ_mul]
    by_cases hfull : cf.FullChunk image ch
    · have hnext : cf.firstWrongChunk (n + 1) ch (image.drop (ch * cf.header.chunkSize)) =
          cf.firstWrongChunk n (ch + 1) (image.drop ((ch + 1) * cf.header.chunkSize)) := by
        rw [firstWrongChunk, ← hdrop]
        exact if_pos hfull
      have hextend {m : ℕ} (h : ∀ k, ch + 1 ≤ k → k < m → cf.FullChunk image k) :
          ∀ k, ch ≤ k → k < m → cf.FullChunk image k := by
        intro k hle hlt
        rcases hle.eq_or_lt with rfl | hlt'
        · exact hfull
        · exact h k hlt' hlt
      rw [hnext]
      rcases ih (ch + 1) with ⟨hall, hnone⟩ | ⟨w, hle, hlt, hwrong, hall, hsome⟩
      · exact .inl ⟨hextend (by simpa only [Nat.add_right_comm, Nat.add_assoc] using hall), hnone⟩
      · exact .inr ⟨w, by omega, by omega, hwrong, hextend hall, hsome⟩
    · refine .inr ⟨ch, le_rfl, by omega, hfull, fun k hle hlt => absurd hlt (by omega), ?_⟩
      rw [firstWrongChunk]
      exact if_neg hfull

/-- The resume point: before the first chunk that is not in full, or the last one recorded. -/
theorem checkStoredImage_spec (cf : ControlFile) (himage : cf.image = some image) :
    (∃ w < toUInt cf.header.lastSuccessfulChunk, ¬cf.FullChunk image w ∧
        (∀ k < w, cf.FullChunk image k) ∧ cf.checkStoredImage.2 = some ((w : ℤ) - 1)) ∨
      (∀ k < toUInt cf.header.lastSuccessfulChunk, cf.FullChunk image k) ∧
        cf.checkStoredImage.2 = some (toInt (toUInt cf.header.lastSuccessfulChunk)) := by
  have hspec := cf.firstWrongChunk_spec image (toUInt cf.header.lastSuccessfulChunk) 0
  simp only [Nat.zero_mul, List.drop_zero, Nat.zero_le, true_imp_iff, Nat.zero_add, true_and] at hspec
  rcases hspec with ⟨hall, hnone⟩ | ⟨w, hlt, hwrong, hall, hsome⟩
  · refine .inr ⟨hall, ?_⟩
    simp only [checkStoredImage, himage]
    rw [hnone]
  · refine .inl ⟨w, hlt, hwrong, hall, ?_⟩
    simp only [checkStoredImage, himage]
    rw [hsome]

/-- The resume point does not matter to the chunks before it. -/
theorem fullChunk_resume : (cf.resume s b).FullChunk image k ↔ (cf.load b).FullChunk image k := by
  simp only [FullChunk, ChunkMatches, storedChunk, resume, load]

theorem toInt_eq_natCast {n r : ℕ} (hn : n < 2 ^ 32) (h : toInt n = r) : n = r := by
  rw [toInt] at h
  have hmod : (r : ℤ) % 2 ^ 32 = n := by
    rw [← h]
    have := Int.bmod_emod (x := (n : ℤ)) (m := 2 ^ 32)
    simp only [Nat.cast_pow, Nat.cast_ofNat] at this
    rw [this, Int.emod_eq_of_lt (by omega) (by omega)]
  have hlt : (r : ℤ) < 2 ^ 31 := by
    have := Int.bmod_lt (x := (n : ℤ)) (m := 2 ^ 32) (by norm_num)
    rw [h] at this
    norm_num at this
    exact_mod_cast this
  rw [Int.emod_eq_of_lt (by omega) (by omega)] at hmod
  exact_mod_cast hmod.symm

/-- When an upload is resumed at the chunk `r`, all chunks up to it are right if and only if a
    chunk before the last one recorded is not in full, or this last one is right as well. -/
theorem resumed_iff {r : ℕ} (h : cf.checkAndLoadControlFile = (cf', .ok))
    (hr : cf'.header.lastSuccessfulChunk = r) (hb : cf.fs.read cf'.suffix = some b)
    (himage : cf.image = some image) :
    (∀ k ≤ r, cf'.RightChunk image k) ↔
      (∃ k < toUInt (ControlFileHeader.ofBytes b).lastSuccessfulChunk, ¬cf'.FullChunk image k) ∨
        cf'.RightChunk image (toUInt (ControlFileHeader.ofBytes b).lastSuccessfulChunk) := by
  obtain ⟨s, b', -, hb', -, -, rfl⟩ := checkAndLoad_ok h
  obtain rfl : b' = b := Option.some.inj (hb'.symm.trans hb)
  have hlast : (cf.load b').checkStoredImage.2.getD 0 = (r : ℤ) := hr
  simp only [RightChunk, fullChunk_resume]
  rcases (cf.load b').checkStoredImage_spec himage with
    ⟨w, hlt, hwrong, hall, hcheck⟩ | ⟨hall, hcheck⟩
  · -- a chunk is wrong: those before it have been compared
    refine iff_of_true (fun k hk => .inl (hall k ?_)) (.inl ⟨w, hlt, hwrong⟩)
    rw [hcheck, Option.getD_some] at hlast
    omega
  · -- all chunks compared are in full: the last one recorded has not been compared
    rw [hcheck, Option.getD_some] at hlast
    have hn : toUInt (ControlFileHeader.ofBytes b').lastSuccessfulChunk = r :=
      toInt_eq_natCast (by rw [toUInt]; omega) hlast
    rw [hn]
    constructor
    · exact fun hright => .inr (hright r le_rfl)
    · rintro (⟨k, hk, hwrong⟩ | hright) k' hk'
      · exact absurd (hall k (by rwa [← hn] at hk)) hwrong
      · rcases hk'.eq_or_lt with rfl | hlt
        · exact hright
        · exact .inl (hall k' (by rwa [← hn] at hlt))

/-! ## One chunk -/

/-- After the upload of one chunk of one byte, with the hash of that byte. -/
def oneChunk : ControlFile where
  header := ⟨128, 0, 1, 0, 1, 0, 1⟩
  sum := Vector.replicate 32 0
  sums := [sha256 [7]]
  suffix := .first
  version := "1"
  pd := ⟨[7], 0, .ok, 0, true, []⟩
  sha2 := sha256 [7]
  fs := ⟨fun _ => none, some "1", .version "1"⟩

/-- Its files, with the image `image`. -/
def oneChunkWith (image : List UInt8) : ControlFile :=
  { oneChunk with
    fs := { oneChunk.fs with
      dirs := fun _ => some ⟨fun
        | .none => some image
        | .first => some oneChunk.sealHeader.content
        | .next => none, none⟩ } }

/-- The image is as it was stored. -/
theorem resumed_oneChunk : ∃ cf', (oneChunkWith [7]).checkAndLoadControlFile = (cf', .ok) ∧
    cf'.header.lastSuccessfulChunk = 0 ∧ ∀ k ≤ 0, cf'.RightChunk [7] k := by
  have hload : (oneChunkWith [7]).checkAndLoadControlFile.2 = .ok ∧
      (oneChunkWith [7]).checkAndLoadControlFile.1.header.lastSuccessfulChunk = 0 ∧
      (oneChunkWith [7]).checkAndLoadControlFile.1.suffix = .first ∧
      (oneChunkWith [7]).checkAndLoadControlFile.1.RightChunk [7]
        (toUInt (ControlFileHeader.ofBytes oneChunk.sealHeader.content).lastSuccessfulChunk) := by
    decide +kernel
  obtain ⟨hok, hlast, hsuffix, hright⟩ := hload
  have heq : (oneChunkWith [7]).checkAndLoadControlFile =
      ((oneChunkWith [7]).checkAndLoadControlFile.1, .ok) := by rw [← hok]
  refine ⟨_, heq, hlast, ?_⟩
  exact (resumed_iff heq hlast (by rw [hsuffix]; rfl) rfl).2 (.inr hright)

/-- The chunk is lost after it has been recorded, and the upload is resumed behind it. -/
theorem resumed_fails_of_damage : ¬ ∀ (cf cf' : ControlFile) (r : ℕ) (image : List UInt8),
    cf.checkAndLoadControlFile = (cf', .ok) → cf'.header.lastSuccessfulChunk = r →
    cf.image = some image → ∀ k ≤ r, cf'.RightChunk image k := by
  intro hall
  have hload : (oneChunkWith []).checkAndLoadControlFile.2 = .ok ∧
      (oneChunkWith []).checkAndLoadControlFile.1.header.lastSuccessfulChunk = 0 ∧
      ¬(oneChunkWith []).checkAndLoadControlFile.1.RightChunk [] 0 := by
    decide +kernel
  obtain ⟨hok, hlast, hwrong⟩ := hload
  have heq : (oneChunkWith []).checkAndLoadControlFile =
      ((oneChunkWith []).checkAndLoadControlFile.1, .ok) := by rw [← hok]
  exact hwrong (hall _ _ 0 [] heq hlast rfl 0 le_rfl)

end ControlFile

end EW8.Update

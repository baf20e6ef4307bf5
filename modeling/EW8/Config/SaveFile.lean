import EW8.Config.Storage

/-!
# Saving the cache

`saveToStorage` writes the cache to a temporary file, which `commit` then renames to `config.dat`.
A write that fails sets the status of the stream (`status_writePieces`), and a file that has not
been opened takes no write; but `commit` is called whatever has become of them.

* `config.dat` is replaced by something else than the whole dump just if the temporary file is
  renamed though not all has been written to it, and has not the same bytes as `config.dat`
  (`saveToStorage_iff`).
-/

namespace EW8.Config

/-- The working directory: `config.dat`, and the temporary file. -/
structure Directory where
  configDat : Option (List UInt8)
  temp : Option (List UInt8)
  deriving DecidableEq, Repr

/-- What becomes of the calls of the system while a file is saved. -/
structure Calls where
  /-- The temporary file can be opened. -/
  opens : Bool
  /-- The stream takes the `i`-th write. -/
  writes : ℕ → Bool
  /-- What is left in the buffer of the stream is written when it is closed. -/
  flushes : Bool
  /-- If not all that the stream has taken is written: how many bytes of it are. -/
  kept : ℕ
  renames : Bool
  removes : Bool

/-- A `SaveFile`: whether its stream is open and good, the number of writes, and the bytes that have
    been taken. -/
structure SaveFile where
  isOpen_ : Bool
  good : Bool
  count : ℕ
  taken : List UInt8

/-- The status of a stream that is written to. -/
inductive WriteStatus
  | ok | writeFailed
  deriving DecidableEq, Repr

/-- A `DataStream` on a file. -/
structure FileStream where
  file : SaveFile
  status : WriteStatus

variable (c : Calls)

namespace SaveFile

variable (f : SaveFile) (dir : Directory)

/-- `open(WriteOnly)`. -/
def opened : SaveFile := ⟨c.opens, true, 0, []⟩

/-- `write`, and the number that is returned. -/
def write (data : List UInt8) : SaveFile × ℤ :=
  if f.isOpen_ then
    if f.good ∧ c.writes f.count then
      (⟨true, true, f.count + 1, f.taken ++ data⟩, data.length)
    else (⟨true, false, f.count + 1, f.taken⟩, -1)
  else (f, -1)

/-- `close`. -/
def close : Directory :=
  if f.isOpen_ then
    { dir with temp := some (if f.good ∧ c.flushes then f.taken else f.taken.take c.kept) }
  else dir

/-- `commit`, and whether the file has been renamed. -/
def commit : Bool × Directory :=
  let dir := f.close c dir
  match dir.temp with
  | none => (false, dir)
  | some bytes => if c.renames then (true, ⟨some bytes, none⟩) else (false, dir)

/-- The destructor. -/
def cancel (committed : Bool) : Directory :=
  if committed then dir else { dir with temp := if c.removes then none else dir.temp }

end SaveFile

/-- `writeRaw`. -/
def FileStream.writeRaw (s : FileStream) (data : List UInt8) : FileStream :=
  let (file, n) := s.file.write c data
  ⟨file, if n = data.length then s.status else .writeFailed⟩

namespace MessageTable

variable (t : MessageTable) (padding : ℕ → ℕ → UInt8 × UInt8 × UInt8)

/-- The bytes of a message, one write after the other. -/
def messagePieces (msg : ℕ × List Signal) : List (List UInt8) :=
  toBE 4 msg.1 :: toBE 4 msg.2.length ::
    msg.2.zipIdx.map fun sig => sig.1.serialize.bytes (padding msg.1 sig.2)

/-- The bytes of the dump, one write after the other. -/
def pieces : List (List UInt8) :=
  toBE 4 t.keepAliveMsgId :: toBE 4 t.msgsWhiteList.length ::
    (t.CanRxMsgsPool.filter fun msg => msg.1 ∈ t.msgsWhiteList).flatMap (messagePieces padding)

/-- The stream after the writes. -/
def writePieces : FileStream :=
  (t.pieces padding).foldl (FileStream.writeRaw c) ⟨.opened c, .ok⟩

/-- `saveToStorage`. -/
def saveToStorage (dir : Directory) : Bool × Directory :=
  if t.isAlreadyLoaded then (false, dir)
  else
    let file := if c.opens then (t.writePieces c padding).file else .opened c
    let (committed, dir) := file.commit c dir
    (false, SaveFile.cancel c dir committed)

end MessageTable

/-! ## What is written -/

/-- Every byte of the dump is written: the file can be opened, the stream takes each of the `n`
    writes, and nothing is lost when it is closed. -/
structure Written (n : ℕ) : Prop where
  opens : c.opens
  writes : ∀ i < n, c.writes i
  flushes : c.flushes

instance (n : ℕ) : Decidable (Written c n) :=
  decidable_of_iff (c.opens ∧ (∀ i < n, c.writes i) ∧ c.flushes)
    ⟨fun h => ⟨h.1, h.2.1, h.2.2⟩, fun h => ⟨h.opens, h.writes, h.flushes⟩⟩

/-- What the stream takes from the `i`-th write on. -/
def taken : ℕ → List (List UInt8) → List UInt8
  | _, [] => []
  | i, data :: l => if c.writes i then data ++ taken (i + 1) l else []

/-- The temporary file when it is closed. -/
def closed (pieces : List (List UInt8)) (temp : Option (List UInt8)) : Option (List UInt8) :=
  if c.opens then
    some (if Written c pieces.length then pieces.flatten else (taken c 0 pieces).take c.kept)
  else temp

section

variable {c} {s : FileStream} {l : List (List UInt8)} {i : ℕ}

theorem taken_eq_flatten (h : ∀ k < l.length, c.writes (i + k)) : taken c i l = l.flatten := by
  induction l generalizing i with
  | nil => rfl
  | cons data l ih =>
    have hfirst : c.writes i := h 0 (Nat.succ_pos _)
    rw [taken, if_pos hfirst, List.flatten_cons, ih fun k hk => ?_]
    rw [Nat.add_assoc, Nat.add_comm 1]
    exact h (k + 1) (Nat.succ_lt_succ hk)

/-- A stream that is not good takes nothing any more. -/
theorem foldl_writeRaw_of_not_good (hopen : s.file.isOpen_) (hgood : ¬s.file.good)
    (hstatus : s.status = .writeFailed) :
    let s' := l.foldl (FileStream.writeRaw c) s
    s'.file.isOpen_ ∧ ¬s'.file.good ∧ s'.file.taken = s.file.taken ∧ s'.status = .writeFailed := by
  induction l generalizing s with
  | nil => exact ⟨hopen, hgood, rfl, hstatus⟩
  | cons data l ih =>
    have hwrite : s.writeRaw c data =
        ⟨⟨true, false, s.file.count + 1, s.file.taken⟩, .writeFailed⟩ := by
      rw [FileStream.writeRaw, SaveFile.write, if_pos hopen, if_neg fun h => hgood h.1]
      exact congrArg _ (if_neg (by omega))
    rw [List.foldl_cons, hwrite]
    exact ih rfl Bool.false_ne_true rfl

/-- The stream is good as long as it takes the writes, and its status tells whether it is. -/
theorem foldl_writeRaw (hopen : s.file.isOpen_) (hgood : s.file.good) (hstatus : s.status = .ok) :
    let s' := l.foldl (FileStream.writeRaw c) s
    s'.file.isOpen_ ∧ (s'.file.good ↔ ∀ k < l.length, c.writes (s.file.count + k)) ∧
      s'.file.taken = s.file.taken ++ taken c s.file.count l ∧
      (s'.status = .ok ↔ s'.file.good) := by
  induction l generalizing s with
  | nil => exact ⟨hopen, iff_of_true hgood (by simp), (List.append_nil _).symm, by simp [*]⟩
  | cons data l ih =>
    rw [List.foldl_cons]
    by_cases hwrites : c.writes s.file.count
    · have hwrite : s.writeRaw c data =
          ⟨⟨true, true, s.file.count + 1, s.file.taken ++ data⟩, .ok⟩ := by
        rw [FileStream.writeRaw, SaveFile.write, if_pos hopen, if_pos ⟨hgood, hwrites⟩]
        exact congrArg _ ((if_pos rfl).trans hstatus)
      rw [hwrite, taken, if_pos hwrites]
      obtain ⟨hopen', hgood', htaken, hstatus'⟩ :=
        @ih ⟨⟨true, true, s.file.count + 1, s.file.taken ++ data⟩, .ok⟩ rfl rfl rfl
      refine ⟨hopen', hgood'.trans ?_, by rw [htaken, List.append_assoc], hstatus'⟩
      rw [List.length_cons, Nat.forall_lt_succ_left,
        and_iff_right (show c.writes (s.file.count + 0) from hwrites)]
      simp only [Nat.add_assoc, Nat.add_comm 1]
    · have hwrite : s.writeRaw c data =
          ⟨⟨true, false, s.file.count + 1, s.file.taken⟩, .writeFailed⟩ := by
        rw [FileStream.writeRaw, SaveFile.write, if_pos hopen, if_neg fun h => hwrites h.2]
        exact congrArg _ (if_neg (by omega))
      rw [hwrite, taken, if_neg hwrites, List.append_nil]
      obtain ⟨hopen', hgood', htaken, hstatus'⟩ :=
        @foldl_writeRaw_of_not_good c
          ⟨⟨true, false, s.file.count + 1, s.file.taken⟩, .writeFailed⟩ l rfl Bool.false_ne_true rfl
      refine ⟨hopen', iff_of_false hgood' fun h => hwrites (h 0 (Nat.succ_pos _)), htaken, ?_⟩
      exact iff_of_false (by rw [hstatus']; decide) hgood'

end

variable (t : MessageTable) (padding : ℕ → ℕ → UInt8 × UInt8 × UInt8)

theorem flatten_pieces : (t.pieces padding).flatten = t.bytes padding := by
  have hmsg (msg : ℕ × List Signal) : (MessageTable.messagePieces padding msg).flatten =
      MessageTable.messageBytes padding msg := by
    rw [MessageTable.messagePieces, MessageTable.messageBytes, List.flatten_cons, List.flatten_cons,
      List.append_assoc, List.flatMap_def]
  rw [MessageTable.pieces, MessageTable.bytes, List.flatten_cons, List.flatten_cons,
    List.append_assoc, List.flatMap_def, List.flatMap_def, List.flatten_flatten, List.map_map]
  exact congrArg (fun l => toBE 4 t.keepAliveMsgId ++ (toBE 4 t.msgsWhiteList.length ++
    List.flatten l)) (List.map_congr_left fun msg _ => hmsg msg)

section

variable {c t padding} {dir : Directory}

/-- The status tells whether a write has failed. -/
theorem status_writePieces (h : c.opens) : (t.writePieces c padding).status = .ok ↔
    ∀ i < (t.pieces padding).length, c.writes i := by
  obtain ⟨-, hgood, -, hstatus⟩ := @foldl_writeRaw c ⟨.opened c, .ok⟩ (t.pieces padding) h rfl rfl
  rw [MessageTable.writePieces, hstatus, hgood]
  simp [SaveFile.opened]

/-- The files when the dump has been written, and the temporary one is closed. -/
theorem close_writePieces :
    (if c.opens then (t.writePieces c padding).file else .opened c).close c dir =
      ⟨dir.configDat, closed c (t.pieces padding) dir.temp⟩ := by
  rw [closed]
  by_cases hopens : c.opens
  · obtain ⟨hopen, hgood, htaken, -⟩ :=
      @foldl_writeRaw c ⟨.opened c, .ok⟩ (t.pieces padding) hopens rfl rfl
    have hwritten : (t.writePieces c padding).file.good ∧ c.flushes ↔
        Written c (t.pieces padding).length := by
      rw [MessageTable.writePieces, hgood]
      simp only [SaveFile.opened, Nat.zero_add]
      exact ⟨fun h => ⟨hopens, h.1, h.2⟩, fun h => ⟨h.writes, h.flushes⟩⟩
    have htaken' : (t.writePieces c padding).file.taken = taken c 0 (t.pieces padding) := htaken
    have hopen' : (t.writePieces c padding).file.isOpen_ := hopen
    rw [if_pos hopens, if_pos hopens, SaveFile.close, if_pos hopen']
    simp only [hwritten, htaken']
    by_cases h : Written c (t.pieces padding).length
    · rw [if_pos h, if_pos h, taken_eq_flatten (by simpa using h.writes)]
    · rw [if_neg h, if_neg h]
  · have hopen : ¬(SaveFile.opened c).isOpen_ := hopens
    rw [if_neg hopens, if_neg hopens, SaveFile.close, if_neg hopen]

/-- `config.dat` afterwards. -/
theorem configDat_saveToStorage : (t.saveToStorage c padding dir).2.configDat =
    if t.isAlreadyLoaded ∨ ¬c.renames then dir.configDat
    else (closed c (t.pieces padding) dir.temp).or dir.configDat := by
  rw [MessageTable.saveToStorage]
  by_cases hloaded : t.isAlreadyLoaded
  · rw [if_pos hloaded, if_pos (.inl hloaded)]
  rw [if_neg hloaded]
  simp only [SaveFile.commit, close_writePieces]
  cases closed c (t.pieces padding) dir.temp with
  | none =>
    simp [SaveFile.cancel]
  | some bytes =>
    by_cases hrenames : c.renames
    · simp [SaveFile.cancel, hloaded, hrenames]
    · simp [SaveFile.cancel, hrenames]

variable (c t padding dir) in
/-- Either the old file stays, or each byte of the new one has been written. -/
def Atomic : Prop :=
  (t.saveToStorage c padding dir).2.configDat = dir.configDat ∨
    Written c (t.pieces padding).length ∧
      (t.saveToStorage c padding dir).2.configDat = some (t.bytes padding)

/-- The file is replaced by the whole dump or stays as it is just if nothing is saved, or all is
    written, or the temporary file is not renamed or has the same bytes. -/
theorem saveToStorage_iff : Atomic c t padding dir ↔
    t.isAlreadyLoaded ∨ Written c (t.pieces padding).length ∨ ¬c.renames ∨
      closed c (t.pieces padding) dir.temp = none ∨
      closed c (t.pieces padding) dir.temp = dir.configDat := by
  rw [Atomic, configDat_saveToStorage]
  by_cases hsame : t.isAlreadyLoaded ∨ ¬c.renames
  · rw [if_pos hsame]
    exact iff_of_true (.inl rfl) (hsame.elim .inl fun h => .inr (.inr (.inl h)))
  obtain ⟨hloaded, hrenames⟩ := not_or.1 hsame
  rw [if_neg hsame, or_iff_right hloaded]
  constructor
  · rintro (hold | ⟨hwritten, -⟩)
    · cases hclosed : closed c (t.pieces padding) dir.temp with
      | none => exact .inr (.inr (.inl rfl))
      | some bytes =>
        rw [hclosed, Option.some_or] at hold
        exact .inr (.inr (.inr hold))
    · exact .inl hwritten
  · rintro (hwritten | hrenames' | hnone | hold)
    · refine .inr ⟨hwritten, ?_⟩
      rw [closed, if_pos hwritten.opens, if_pos hwritten, flatten_pieces, Option.some_or]
    · exact absurd hrenames' hrenames
    · exact .inl (by rw [hnone, Option.none_or])
    · exact .inl (by rw [hold, Option.or_self])

end

/-- With a full disk, the first bytes of the dump take the place of the old file. -/
theorem saveToStorage_fails_of_full :
    ¬∀ (c : Calls) (t : MessageTable) (padding : ℕ → ℕ → UInt8 × UInt8 × UInt8) (dir : Directory),
      Atomic c t padding dir := by
  intro h
  have hatomic := h ⟨true, fun i => i = 0, false, 4, true, true⟩ .empty (fun _ _ => (0, 0, 0))
    ⟨some [1, 2, 3], none⟩
  rw [Atomic, configDat_saveToStorage] at hatomic
  revert hatomic
  decide

end EW8.Config

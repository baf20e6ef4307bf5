import EW8.Config.CachedStart
import EW8.Lib.Memory

/-!
# The bytes of the cache

`config.dat`, byte by byte: the numbers are written with the highest byte first, the signals as
they are in memory. A read past the end sets the status of the stream and leaves the variable as it
is, which has not been initialized; and nobody asks for the status.

* The table is read back as it was, but for the names, and so is each byte (`roundTrip`).
* A file that has been cut is taken for a whole one (`not_rejected`).
-/

namespace EW8.Config

/-! ## The stream -/

/-- The status of a stream. -/
inductive Status
  | ok | readPastEnd
  deriving DecidableEq, Repr

/-- A `DataStream` on a buffer, with the highest byte first. -/
structure DataStream where
  buffer : List UInt8
  pos : ℕ
  status : Status
  deriving DecidableEq, Repr

/-- The bytes of a number, the highest one first. -/
def toBE (k x : ℕ) : List UInt8 := (toLE k x).reverse

namespace DataStream

variable (s : DataStream)

/-- `readRaw`, into a variable with the bytes `data`. -/
def readRaw (len : ℕ) (data : List UInt8) : List UInt8 × DataStream :=
  if s.pos + len > s.buffer.length then (data, { s with status := .readPastEnd })
  else ((s.buffer.drop s.pos).take len, { s with pos := s.pos + len })

/-- `readWithOrder`, for a `uint32_t` with the value `val`: the bytes are not swapped once a read has
    failed. -/
def readUInt32 (val : ℕ) : ℕ × DataStream :=
  let (data, s) := s.readRaw 4 (toLE 4 val)
  (ofLE (if s.status = .ok then data.reverse else data), s)

end DataStream

/-! ## A signal in memory -/

/-- `sizeof(SerializedSignal_t)`. -/
def SerializedSignal.size : ℕ := 56

/-- The bytes of a `SerializedSignal_t`. There are three between `sign` and `factor`. -/
def SerializedSignal.bytes (sesig : SerializedSignal) (padding : UInt8 × UInt8 × UInt8) :
    List UInt8 :=
  toLE 4 sesig.startByte.toNat ++ toLE 4 sesig.startBit.toNat ++ toLE 4 sesig.numOfBits.toNat ++
    [sesig.sign, padding.1, padding.2.1, padding.2.2] ++ toLE 8 sesig.factor.toNat ++
    toLE 8 sesig.offset.toNat ++ toLE 8 sesig.min.toNat ++ toLE 8 sesig.max.toNat ++
    toLE 4 (sesig.enumValueType % 2 ^ 32).toNat ++ toLE 4 sesig.AMJsonSignalIdx

/-- The `SerializedSignal_t` with the bytes `b`. -/
def SerializedSignal.ofBytes (b : List UInt8) : SerializedSignal where
  startByte := .ofNat (ofLE (b.take 4))
  startBit := .ofNat (ofLE ((b.drop 4).take 4))
  numOfBits := .ofNat (ofLE ((b.drop 8).take 4))
  sign := b.getD 12 0
  factor := .ofNat (ofLE ((b.drop 16).take 8))
  offset := .ofNat (ofLE ((b.drop 24).take 8))
  min := .ofNat (ofLE ((b.drop 32).take 8))
  max := .ofNat (ofLE ((b.drop 40).take 8))
  enumValueType := Int.bmod (ofLE ((b.drop 48).take 4)) (2 ^ 32)
  AMJsonSignalIdx := ofLE ((b.drop 52).take 4)

/-! ## The table of messages -/

/-- The static variables of `CanRxMsg`; for each message, in the order of the ids, its
    `canJsonSignalsPoolIdxInProcessOrder`. -/
structure MessageTable where
  keepAliveMsgId : ℕ
  CanRxMsgsPool : List (ℕ × List Signal)
  msgsWhiteList : List ℕ
  isAlreadyLoaded : Bool
  deriving DecidableEq, Repr

namespace MessageTable

/-- Nothing is known. -/
def empty : MessageTable := ⟨0, [], [], false⟩

/-- The table after `completeInitCanRxMsgsPool`. -/
def complete (keepAliveMsgId : ℕ) (pool : List Complete) : MessageTable where
  keepAliveMsgId := keepAliveMsgId
  CanRxMsgsPool := pool.map fun msg => (msg.StdId, msg.canJsonSignalsPoolIdxInProcessOrder)
  msgsWhiteList :=
    (pool.filter fun msg => msg.canJsonSignalsListInProcessOrder ≠ []).map Complete.StdId
  isAlreadyLoaded := false

variable (t : MessageTable)

/-- The signals of a message. -/
def signals (StdId : ℕ) : List Signal := (t.CanRxMsgsPool.lookup StdId).getD []

/-- `operator<<` of a message. -/
def messageBytes (padding : ℕ → ℕ → UInt8 × UInt8 × UInt8) (msg : ℕ × List Signal) : List UInt8 :=
  toBE 4 msg.1 ++ toBE 4 msg.2.length ++
    msg.2.zipIdx.flatMap fun sig => sig.1.serialize.bytes (padding msg.1 sig.2)

/-- `saveToStorage`: the bytes that are written. -/
def bytes (padding : ℕ → ℕ → UInt8 × UInt8 × UInt8) : List UInt8 :=
  toBE 4 t.keepAliveMsgId ++ toBE 4 t.msgsWhiteList.length ++
    (t.CanRxMsgsPool.filter fun msg => msg.1 ∈ t.msgsWhiteList).flatMap (messageBytes padding)

/-- `createInstance`, with the signals that are read for it. -/
def add (StdId : ℕ) (sigs : List Signal) : MessageTable :=
  { t with
    CanRxMsgsPool := insert StdId (t.signals StdId ++ sigs) t.CanRxMsgsPool
    msgsWhiteList := t.msgsWhiteList ++ [StdId] }

end MessageTable

/-- What the variables are that have not been initialized. -/
structure Uninitialized where
  keepAliveInput : ℕ
  msgNum : ℕ
  stdId : ℕ
  listsize : ℕ → ℕ
  sesig : ℕ → ℕ → List UInt8

namespace DataStream

/-- `operator>>` of a message: `n` signals, from the `j`-th one on. -/
def readSignals (sesig : ℕ → List UInt8) : ℕ → ℕ → DataStream → List Signal × DataStream
  | 0, _, s => ([], s)
  | n + 1, j, s =>
    let (data, s) := s.readRaw SerializedSignal.size (sesig j)
    let (sigs, s) := readSignals sesig n (j + 1) s
    ((SerializedSignal.ofBytes data).signal :: sigs, s)

/-- The loop of `loadFromStorage`: `n` messages, from the `i`-th one on. The factory makes a message
    for every id. -/
def readMessages (x : Uninitialized) :
    ℕ → ℕ → ℕ → MessageTable → DataStream → MessageTable × DataStream
  | 0, _, _, t, s => (t, s)
  | n + 1, i, stdId, t, s =>
    let (stdId, s) := s.readUInt32 stdId
    let (listsize, s) := s.readUInt32 (x.listsize i)
    let (sigs, s) := readSignals (x.sesig i) listsize 0 s
    readMessages x n (i + 1) stdId (t.add stdId sigs) s

/-- What `loadFromStorage` reads from the stream. -/
def readTable (x : Uninitialized) (t : MessageTable) (s : DataStream) : MessageTable × DataStream :=
  let (keepAliveInput, s) := s.readUInt32 x.keepAliveInput
  let t := { t with keepAliveMsgId := keepAliveInput }
  let (msgNum, s) := s.readUInt32 x.msgNum
  readMessages x msgNum 0 x.stdId t s

end DataStream

/-- `loadFromStorage`: what it returns, and the table. There is no file where it cannot be opened. -/
def MessageTable.loadFromStorage (x : Uninitialized) (isDBCParsingForced : Bool)
    (file : Option (List UInt8)) (t : MessageTable) : Bool × MessageTable :=
  if isDBCParsingForced then (true, t)
  else
    match file with
    | none => (false, t)
    | some blob => (true, { (DataStream.readTable x t ⟨blob, 0, .ok⟩).1 with isAlreadyLoaded := true })

/-- A damaged file is taken for what it is. -/
def Rejected (r : Bool × MessageTable) : Prop := r.1 = false ∧ r.2.isAlreadyLoaded = false

instance (r : Bool × MessageTable) : Decidable (Rejected r) := instDecidableAnd

/-- A signal without its name. -/
def Signal.unnamed (sig : Signal) : Signal := { sig with name := "" }

/-- What is in 32 bits is, and so are the lengths of the lists. -/
structure Fits (keepAliveMsgId : ℕ) (pool : List Complete) : Prop where
  keepAliveMsgId : keepAliveMsgId < 2 ^ 32
  messages : pool.length < 2 ^ 32
  ids : ∀ msg ∈ pool, msg.StdId < 2 ^ 32
  signals : ∀ msg ∈ pool, msg.canJsonSignalsPoolIdxInProcessOrder.length < 2 ^ 32
  indices : ∀ msg ∈ pool, ∀ sig ∈ msg.canJsonSignalsPoolIdxInProcessOrder,
    sig.AMJsonSignalIdx < 2 ^ 32

/-! ## What is read -/

@[simp] theorem length_toBE (k x : ℕ) : (toBE k x).length = k := by
  rw [toBE, List.length_reverse, length_toLE]

namespace DataStream

variable {s : DataStream} {d r data : List UInt8} {x val : ℕ}

/-- The bytes `r` are left. -/
structure Before (s : DataStream) (r : List UInt8) : Prop where
  status : s.status = .ok
  pos : s.pos ≤ s.buffer.length
  drop : s.buffer.drop s.pos = r

/-- `n` bytes further. -/
def skip (s : DataStream) (n : ℕ) : DataStream := { s with pos := s.pos + n }

theorem skip_skip (s : DataStream) (m n : ℕ) : (s.skip m).skip n = s.skip (m + n) := by
  rw [skip, skip, skip, Nat.add_assoc]

theorem Before.length (h : s.Before (d ++ r)) : s.pos + d.length ≤ s.buffer.length := by
  have hlen := congrArg List.length h.drop
  have hpos := h.pos
  rw [List.length_drop, List.length_append] at hlen
  omega

theorem Before.skip (h : s.Before (d ++ r)) : (s.skip d.length).Before r where
  status := h.status
  pos := h.length
  drop := by
    have hdrop := congrArg (List.drop d.length) h.drop
    rwa [List.drop_drop, List.drop_left] at hdrop

theorem Before.readRaw (h : s.Before (d ++ r)) (data : List UInt8) :
    s.readRaw d.length data = (d, s.skip d.length) := by
  rw [DataStream.readRaw, if_neg (by have := h.length; omega), h.drop, List.take_left]
  rfl

theorem Before.readUInt32 (h : s.Before (toBE 4 x ++ r)) (hx : x < 2 ^ 32) (val : ℕ) :
    s.readUInt32 val = (x, s.skip 4) := by
  have hraw := h.readRaw (toLE 4 val)
  rw [length_toBE] at hraw
  have hok : (s.skip 4).status = .ok := h.status
  rw [DataStream.readUInt32, hraw]
  simp only [hok, if_true, toBE, List.reverse_reverse]
  rw [ofLE_toLE (by omega)]

end DataStream

namespace SerializedSignal

@[simp] theorem length_bytes (sesig : SerializedSignal) (padding : UInt8 × UInt8 × UInt8) :
    (sesig.bytes padding).length = size := by
  simp [bytes, size]

/-- The fields are where they have been written. -/
theorem ofBytes_bytes {sesig : SerializedSignal} (hvalueType : sesig.enumValueType ∈ Set.Ico 0 3)
    (hidx : sesig.AMJsonSignalIdx < 2 ^ 32) (padding : UInt8 × UInt8 × UInt8) :
    ofBytes (sesig.bytes padding) = sesig := by
  have hstartByte := ofLE_toLE (k := 4) (sesig.startByte.toNat_lt)
  have hstartBit := ofLE_toLE (k := 4) (sesig.startBit.toNat_lt)
  have hnumOfBits := ofLE_toLE (k := 4) (sesig.numOfBits.toNat_lt)
  have hfactor := ofLE_toLE (k := 8) (sesig.factor.toNat_lt)
  have hoffset := ofLE_toLE (k := 8) (sesig.offset.toNat_lt)
  have hmin := ofLE_toLE (k := 8) (sesig.min.toNat_lt)
  have hmax := ofLE_toLE (k := 8) (sesig.max.toNat_lt)
  have hindex := ofLE_toLE (k := 4) hidx
  have henum : Int.bmod (ofLE (toLE 4 (sesig.enumValueType % 2 ^ 32).toNat)) (2 ^ 32) =
      sesig.enumValueType := by
    obtain ⟨hlo, hhi⟩ := hvalueType
    rw [ofLE_toLE (by omega), Int.emod_eq_of_lt hlo (by omega), Int.toNat_of_nonneg hlo]
    exact Int.bmod_eq_of_le (by omega) (by omega)
  simp [ofBytes, bytes, List.drop_append, List.drop_of_length_le, List.take_of_length_le, hstartByte,
    hstartBit, hnumOfBits, hfactor, hoffset, hmin, hmax, hindex, henum, -Nat.reducePow,
    -Int.reducePow]

end SerializedSignal

theorem Signal.ofBytes_serialize {sig : Signal} (hidx : sig.AMJsonSignalIdx < 2 ^ 32)
    (padding : UInt8 × UInt8 × UInt8) :
    (SerializedSignal.ofBytes (sig.serialize.bytes padding)).signal = sig.unnamed := by
  have hvalueType : sig.serialize.enumValueType ∈ Set.Ico 0 3 := by
    cases h : sig.valueType <;> simp [serialize, SignalValueType.toInt, h]
  rw [SerializedSignal.ofBytes_bytes hvalueType hidx, signal_serialize, unnamed]

/-- The bytes of signals, from the `j`-th one on. -/
def signalsBytes (padding : ℕ → UInt8 × UInt8 × UInt8) (sigs : List Signal) (j : ℕ) : List UInt8 :=
  (sigs.zipIdx j).flatMap fun sig => sig.1.serialize.bytes (padding sig.2)

namespace DataStream

variable {s : DataStream} {r : List UInt8}

/-- The signals that have been written are read, without their names. -/
theorem Before.readSignals {padding : ℕ → UInt8 × UInt8 × UInt8} {sesig : ℕ → List UInt8}
    {sigs : List Signal} (hidx : ∀ sig ∈ sigs, sig.AMJsonSignalIdx < 2 ^ 32) {j : ℕ}
    (h : s.Before (signalsBytes padding sigs j ++ r)) :
    DataStream.readSignals sesig sigs.length j s =
      (sigs.map Signal.unnamed, s.skip (signalsBytes padding sigs j).length) := by
  induction sigs generalizing s j with
  | nil => rfl
  | cons sig sigs ih =>
    obtain ⟨hsig, hidx⟩ := List.forall_mem_cons.1 hidx
    have hcons : signalsBytes padding (sig :: sigs) j =
        sig.serialize.bytes (padding j) ++ signalsBytes padding sigs (j + 1) := by
      rw [signalsBytes, List.zipIdx_cons, List.flatMap_cons, signalsBytes]
    rw [hcons, List.append_assoc] at h
    have hraw := h.readRaw (sesig j)
    have hskip := h.skip
    rw [SerializedSignal.length_bytes] at hraw hskip
    rw [List.length_cons, DataStream.readSignals, hraw]
    simp only [ih hidx hskip, Signal.ofBytes_serialize hsig, skip_skip, List.map_cons, hcons,
      List.length_append, SerializedSignal.length_bytes]

/-- And so are the messages. -/
theorem Before.readMessages {padding : ℕ → ℕ → UInt8 × UInt8 × UInt8} {x : Uninitialized}
    {msgs : List (ℕ × List Signal)} (hmsgs : ∀ msg ∈ msgs, msg.1 < 2 ^ 32 ∧ msg.2.length < 2 ^ 32 ∧
      ∀ sig ∈ msg.2, sig.AMJsonSignalIdx < 2 ^ 32) {i stdId : ℕ} {t : MessageTable}
    (h : s.Before (msgs.flatMap (MessageTable.messageBytes padding) ++ r)) :
    DataStream.readMessages x msgs.length i stdId t s =
      (msgs.foldl (fun t msg => t.add msg.1 (msg.2.map Signal.unnamed)) t,
        s.skip (msgs.flatMap (MessageTable.messageBytes padding)).length) := by
  induction msgs generalizing s i stdId t with
  | nil => rfl
  | cons msg msgs ih =>
    obtain ⟨⟨hid, hlen, hidx⟩, hmsgs⟩ := List.forall_mem_cons.1 hmsgs
    have hcons : (msg :: msgs).flatMap (MessageTable.messageBytes padding) =
        toBE 4 msg.1 ++ (toBE 4 msg.2.length ++ (signalsBytes (padding msg.1) msg.2 0 ++
          msgs.flatMap (MessageTable.messageBytes padding))) := by
      rw [List.flatMap_cons, MessageTable.messageBytes, signalsBytes]
      simp only [List.append_assoc]
    rw [hcons, List.append_assoc, List.append_assoc, List.append_assoc] at h
    have hskip := h.skip
    rw [length_toBE] at hskip
    have hskip' := hskip.skip
    rw [length_toBE] at hskip'
    rw [List.length_cons, DataStream.readMessages, h.readUInt32 hid]
    simp only [hskip.readUInt32 hlen, hskip'.readSignals hidx, ih hmsgs hskip'.skip,
      List.foldl_cons]
    simp only [hcons, skip_skip, List.length_append, length_toBE, Nat.add_assoc]

end DataStream

/-! ## The table that is read -/

theorem insert_of_lt {α : Type*} {l : List (ℕ × α)} {id : ℕ} (h : ∀ y ∈ l, y.1 < id) (x : α) :
    insert id x l = l ++ [(id, x)] := by
  induction l with
  | nil => rfl
  | cons y l ih =>
    obtain ⟨hy, h⟩ := List.forall_mem_cons.1 h
    rw [insert, if_neg (by omega), if_neg (by omega), ih h, List.cons_append]

theorem lookup_of_lt {α : Type*} {l : List (ℕ × α)} {id : ℕ} (h : ∀ y ∈ l, y.1 < id) :
    l.lookup id = none := by
  rw [List.lookup_eq_none_iff]
  intro y hy
  have hlt := h y hy
  exact bne_iff_ne.2 (by omega)

namespace MessageTable

/-- Messages with ascending ids are added as they are. -/
theorem foldl_add {msgs : List (ℕ × List Signal)} (hmsgs : (msgs.map Prod.fst).Pairwise (· < ·))
    (k : ℕ) (b : Bool) :
    msgs.foldl (fun (t : MessageTable) msg => t.add msg.1 (msg.2.map Signal.unnamed))
        ⟨k, [], [], b⟩ =
      ⟨k, msgs.map fun msg => (msg.1, msg.2.map Signal.unnamed), msgs.map Prod.fst, b⟩ := by
  induction msgs using List.reverseRecOn with
  | nil => rfl
  | append_singleton msgs msg ih =>
    rw [List.map_append, List.pairwise_append] at hmsgs
    obtain ⟨hmsgs, -, hlt⟩ := hmsgs
    have hlast : ∀ y ∈ msgs.map fun msg => (msg.1, msg.2.map Signal.unnamed), y.1 < msg.1 := by
      intro y hy
      obtain ⟨z, hz, rfl⟩ := List.mem_map.1 hy
      exact hlt z.1 (List.mem_map_of_mem hz) msg.1 (by simp)
    rw [List.foldl_concat, ih hmsgs, add, signals]
    simp only [insert_of_lt hlast, lookup_of_lt hlast, Option.getD_none, List.nil_append,
      List.map_append, List.map_cons, List.map_nil]

/-- The messages in the file. -/
def stored (t : MessageTable) : List (ℕ × List Signal) :=
  t.CanRxMsgsPool.filter fun msg => msg.1 ∈ t.msgsWhiteList

theorem stored_complete {pool : List Complete} (h : (pool.map Complete.StdId).Pairwise (· < ·))
    (k : ℕ) : (complete k pool).stored =
      (pool.filter fun msg => msg.canJsonSignalsListInProcessOrder ≠ []).map
        fun msg => (msg.StdId, msg.canJsonSignalsPoolIdxInProcessOrder) := by
  unfold stored complete
  rw [List.filter_map]
  congr 1
  refine List.filter_congr fun msg hmsg => ?_
  simp only [Function.comp_apply, decide_eq_decide, List.mem_map, List.mem_filter]
  constructor
  · rintro ⟨msg', ⟨hmsg', hne⟩, hid⟩
    have hinj := List.inj_on_of_nodup_map (h.imp fun hlt => Nat.ne_of_lt hlt) hmsg' hmsg hid
    rw [← hinj]
    exact of_decide_eq_true hne
  · exact fun hne => ⟨msg, ⟨hmsg, decide_eq_true hne⟩, rfl⟩

end MessageTable

theorem lookup_map {α β : Type*} (g : α → β) (l : List (ℕ × α)) (id : ℕ) :
    (l.map fun y => (y.1, g y.2)).lookup id = (l.lookup id).map g := by
  induction l with
  | nil => rfl
  | cons y l ih =>
    rw [List.map_cons, List.lookup_cons, List.lookup_cons, ih]
    cases id == y.1 <;> rfl

theorem lookup_filter {α : Type*} (p : ℕ → Bool) (l : List (ℕ × α)) {id : ℕ} (hid : p id = true) :
    (l.filter fun y => p y.1).lookup id = l.lookup id := by
  induction l with
  | nil => rfl
  | cons y l ih =>
    by_cases hy : id = y.1
    · rw [List.filter_cons_of_pos (hy ▸ hid), List.lookup_cons, List.lookup_cons, hy, beq_self_eq_true]
    · have hne : (id == y.1) = false := beq_false_of_ne hy
      rw [List.filter_cons, List.lookup_cons, hne, ← ih]
      split_ifs
      · rw [List.lookup_cons, hne]
      · rfl

/-! ## The ids -/

theorem pairwise_insert {α : Type*} {l : List (ℕ × α)} (h : (l.map Prod.fst).Pairwise (· < ·))
    (id : ℕ) (x : α) : ((insert id x l).map Prod.fst).Pairwise (· < ·) ∧
      ∀ y ∈ insert id x l, y.1 = id ∨ y ∈ l := by
  induction l with
  | nil => simp [insert]
  | cons y l ih =>
    rw [List.map_cons, List.pairwise_cons] at h
    obtain ⟨hy, hl⟩ := h
    obtain ⟨ih, hmem⟩ := ih hl
    rw [insert]
    split_ifs with hlt heq
    · -- in front of all
      refine ⟨?_, by simp +contextual⟩
      rw [List.map_cons, List.map_cons, List.pairwise_cons, List.pairwise_cons]
      refine ⟨fun i hi => ?_, hy, hl⟩
      rcases List.mem_cons.1 hi with rfl | hi
      · exact hlt
      · exact hlt.trans (hy i hi)
    · -- in place of one
      refine ⟨?_, by simp +contextual⟩
      rw [List.map_cons, List.pairwise_cons, heq]
      exact ⟨hy, hl⟩
    · refine ⟨?_, ?_⟩
      · rw [List.map_cons, List.pairwise_cons]
        refine ⟨fun i hi => ?_, ih⟩
        obtain ⟨z, hz, rfl⟩ := List.mem_map.1 hi
        rcases hmem z hz with hid | hz
        · omega
        · exact hy z.1 (List.mem_map_of_mem hz)
      · intro z hz
        rcases List.mem_cons.1 hz with rfl | hz
        · exact .inr List.mem_cons_self
        · exact (hmem z hz).imp_right (List.mem_cons_of_mem y)

/-- The messages are in the order of their ids. -/
theorem pairwise_initProtocols (u : ActionType) (b : Bool) (l : List (Protocol × Dbc)) :
    ((initProtocols u b l).CanRxMsgsPool.map Prod.fst).Pairwise (· < ·) := by
  induction l using List.reverseRecOn with
  | nil => exact List.Pairwise.nil
  | append_singleton l x ih =>
    rw [initProtocols_concat]
    simp only [initProtocol]
    split_ifs
    · generalize (initProtocols u b l).CanRxMsgsPool = pool at ih ⊢
      induction x.2.messages generalizing pool with
      | nil => exact ih
      | cons msg msgs ihmsgs =>
        exact ihmsgs _ (pairwise_insert ih _ _).1
    · exact ih

theorem ids_completeInit {js : List (List AMJsonSignal)} {f : Fields} {msgs : List (ℕ × CanRxMsg)}
    {pool : List Complete} (h : completeInit js f msgs = some pool) :
    pool.map Complete.StdId = msgs.map Prod.fst := by
  have hcomp := completes_of_completeInit h
  clear h
  induction hcomp with
  | nil => rfl
  | cons hmsg _ ih => rw [List.map_cons, List.map_cons, ih, hmsg.StdId]

/-! ## The round trip -/

/-- A table of which the messages of the white list are in the order of their ids: they are read back
    without the names of their signals, and nothing is left. -/
theorem readTable_bytes {t : MessageTable} (hids : t.stored.map Prod.fst = t.msgsWhiteList)
    (hascending : t.msgsWhiteList.Pairwise (· < ·)) (hk : t.keepAliveMsgId < 2 ^ 32)
    (hnum : t.msgsWhiteList.length < 2 ^ 32)
    (hmsgs : ∀ msg ∈ t.stored, msg.1 < 2 ^ 32 ∧ msg.2.length < 2 ^ 32 ∧
      ∀ sig ∈ msg.2, sig.AMJsonSignalIdx < 2 ^ 32)
    (padding : ℕ → ℕ → UInt8 × UInt8 × UInt8) (x : Uninitialized) :
    DataStream.readTable x .empty ⟨t.bytes padding, 0, .ok⟩ =
      (⟨t.keepAliveMsgId, t.stored.map fun msg => (msg.1, msg.2.map Signal.unnamed),
        t.msgsWhiteList, false⟩, ⟨t.bytes padding, (t.bytes padding).length, .ok⟩) := by
  have hlength : t.msgsWhiteList.length = t.stored.length := by rw [← hids, List.length_map]
  have hbytes : t.bytes padding = toBE 4 t.keepAliveMsgId ++ (toBE 4 t.msgsWhiteList.length ++
      (t.stored.flatMap (MessageTable.messageBytes padding) ++ [])) := by
    rw [List.append_nil, MessageTable.bytes, List.append_assoc]
    rfl
  have hbefore : DataStream.Before ⟨t.bytes padding, 0, .ok⟩ (toBE 4 t.keepAliveMsgId ++
      (toBE 4 t.msgsWhiteList.length ++
        (t.stored.flatMap (MessageTable.messageBytes padding) ++ []))) :=
    ⟨rfl, Nat.zero_le _, hbytes⟩
  -- the two numbers in front of the messages
  have hskip := hbefore.skip
  rw [length_toBE] at hskip
  have hskip' := hskip.skip
  rw [length_toBE] at hskip'
  have hend : (t.bytes padding).length = 0 + 4 + 4 +
      (t.stored.flatMap (MessageTable.messageBytes padding)).length := by
    rw [hbytes]
    simp only [List.length_append, length_toBE, List.length_nil]
    omega
  rw [← hids] at hascending
  rw [DataStream.readTable, hbefore.readUInt32 hk]
  simp only [hskip.readUInt32 hnum, hlength, hskip'.readMessages hmsgs, MessageTable.empty,
    MessageTable.foldl_add hascending, hids, hend]
  rfl

/-- The table that a start completes is read back from what it writes, with the names of the signals
    left out, and all bytes are read. -/
theorem roundTrip {u : ActionType} {f : Fields} {l : List (Protocol × Dbc)} {k : ℕ}
    {pool : List Complete}
    (h : completeInit (initProtocols u false l).jsonSignals f (initProtocols u false l).CanRxMsgsPool =
      some pool) (hfits : Fits k pool) (padding : ℕ → ℕ → UInt8 × UInt8 × UInt8)
    (x : Uninitialized) :
    let t := MessageTable.complete k pool
    ∃ t', DataStream.readTable x .empty ⟨t.bytes padding, 0, .ok⟩ =
        (t', ⟨t.bytes padding, (t.bytes padding).length, .ok⟩) ∧
      MessageTable.loadFromStorage x false (some (t.bytes padding)) .empty =
        (true, { t' with isAlreadyLoaded := true }) ∧
      t'.keepAliveMsgId = t.keepAliveMsgId ∧ t'.msgsWhiteList = t.msgsWhiteList ∧
      ∀ id ∈ t.msgsWhiteList, t'.signals id = (t.signals id).map Signal.unnamed := by
  have hascending : (pool.map Complete.StdId).Pairwise (· < ·) := by
    rw [ids_completeInit h]
    exact pairwise_initProtocols u false l
  intro t
  have hids : t.stored.map Prod.fst = t.msgsWhiteList := by
    rw [MessageTable.stored_complete hascending k, List.map_map]
    rfl
  have hnum : t.msgsWhiteList.length ≤ pool.length :=
    (List.length_map ..).trans_le (List.length_filter_le ..)
  have hmsgs : ∀ msg ∈ t.stored, msg.1 < 2 ^ 32 ∧ msg.2.length < 2 ^ 32 ∧
      ∀ sig ∈ msg.2, sig.AMJsonSignalIdx < 2 ^ 32 := by
    intro msg hmsg
    obtain ⟨msg, hpool, rfl⟩ := List.mem_map.1 (List.mem_of_mem_filter hmsg)
    exact ⟨hfits.ids msg hpool, hfits.signals msg hpool, hfits.indices msg hpool⟩
  have hread := readTable_bytes hids (hascending.sublist (List.filter_sublist.map _))
    hfits.keepAliveMsgId (hnum.trans_lt hfits.messages) hmsgs padding x
  refine ⟨_, hread, ?_, rfl, rfl, fun id hid => ?_⟩
  · rw [MessageTable.loadFromStorage, if_neg (by decide)]
    simp only [hread]
  · -- a message of the white list is in the file
    have hlookup : t.stored.lookup id = t.CanRxMsgsPool.lookup id :=
      lookup_filter (fun id => decide (id ∈ t.msgsWhiteList)) _ (decide_eq_true hid)
    rw [MessageTable.signals, MessageTable.signals, lookup_map, hlookup]
    cases t.CanRxMsgsPool.lookup id <;> rfl

/-- The signal of `oneSignal`, which it has twice. -/
def speedSignal : AMJsonSignal := ⟨"speed", "", false, .graphicItem, -1, 0⟩

/-- The pool after a start with `oneSignal`. -/
def speedPool : List Complete := [⟨257, [speedSignal, speedSignal], [speedField, speedField]⟩]

/-- All variables are zero. -/
def zeros : Uninitialized where
  keepAliveInput := 0
  msgNum := 0
  stdId := 0
  listsize _ := 0
  sesig _ _ := List.replicate 56 0

theorem fits_speedPool : Fits 5 speedPool where
  keepAliveMsgId := by decide
  messages := by decide
  ids := by decide
  signals := by decide
  indices := by decide

theorem roundTrip_speedPool :
    let t := MessageTable.complete 5 speedPool
    ∃ t', DataStream.readTable zeros .empty ⟨t.bytes fun _ _ => (1, 2, 3), 0, .ok⟩ =
        (t', ⟨t.bytes fun _ _ => (1, 2, 3), (t.bytes fun _ _ => (1, 2, 3)).length, .ok⟩) ∧
      MessageTable.loadFromStorage zeros false (some (t.bytes fun _ _ => (1, 2, 3))) .empty =
        (true, { t' with isAlreadyLoaded := true }) ∧
      t'.keepAliveMsgId = t.keepAliveMsgId ∧ t'.msgsWhiteList = t.msgsWhiteList ∧
      ∀ id ∈ t.msgsWhiteList, t'.signals id = (t.signals id).map Signal.unnamed :=
  roundTrip (u := .graphicItem) (f := someFields) (l := skippedLast) (by decide +kernel)
    fits_speedPool (fun _ _ => (1, 2, 3)) zeros

/-! ## Files that have been cut -/

/-- What is left of a file is never rejected. -/
theorem not_rejected (t : MessageTable) (padding : ℕ → ℕ → UInt8 × UInt8 × UInt8)
    (x : Uninitialized) (isDBCParsingForced : Bool) :
    ∀ file, file <+: t.bytes padding → file ≠ t.bytes padding →
      ¬Rejected (MessageTable.loadFromStorage x isDBCParsingForced (some file) .empty) := by
  rintro file - - ⟨hstatus, -⟩
  -- the status of the stream is not asked for
  cases isDBCParsingForced <;> exact absurd hstatus Bool.true_eq_false_eq_False

theorem not_rejected_speedPool :
    ¬Rejected (MessageTable.loadFromStorage zeros false
      (some (((MessageTable.complete 5 speedPool).bytes fun _ _ => (1, 2, 3)).take 60)) .empty) :=
  not_rejected (.complete 5 speedPool) (fun _ _ => (1, 2, 3)) zeros false _ (List.take_prefix ..)
    (by decide)

/-- A file that ends in the first of two signals: two are read, the second one from nowhere. -/
theorem rejected_fails_of_cut :
    ¬ ∀ (t : MessageTable) (padding : ℕ → ℕ → UInt8 × UInt8 × UInt8) (x : Uninitialized)
      (file : List UInt8), file <+: t.bytes padding → file ≠ t.bytes padding →
        Rejected (MessageTable.loadFromStorage x false (some file) .empty) := by
  intro hall
  have hrejected := hall (.complete 5 speedPool) (fun _ _ => (1, 2, 3)) zeros
    (((MessageTable.complete 5 speedPool).bytes fun _ _ => (1, 2, 3)).take 60)
    (List.take_prefix ..) (by decide)
  exact absurd hrejected (by decide)

end EW8.Config

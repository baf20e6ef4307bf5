import EW8.Config.Model

/-!
# Integer arguments

The arguments of a graphic item come in several signals, each with the index of its argument. Its
accumulator is to emit `argumentComplete` when there is a value for each of them; before that, it
gives the first value to a smoother, if it has one, and takes the smoothed value in its place.

Up to which index there must be values is set by `growTriggeringSize`, which `AMJsonSignal::init`
calls for arguments of a text only.

* An accumulator emits the arguments, with each index received since it last has, and its smoother
  is fed the values received for the first one, exactly if it receives one index only, which is
  the only one that is configured, and with a smoother the first one (`accumulates_iff`).
-/

namespace EW8.Display

open EW8.Config (ActionType)

/-! ## Smoothers -/

/-- An `ISmoother` with states in `σ`. -/
structure ISmoother (σ : Type*) where
  getSmoothedValue : σ → UInt32
  addMeasure : UInt32 → σ → σ

/-- A `BufferedSmoother`. -/
structure BufferedSmoother where
  smoothingBufferLength : UInt32
  skipSmoothingDelta : UInt32
  bufferQueue : List UInt32
  sum : UInt32
  items_count : UInt32

namespace BufferedSmoother

variable (s : BufferedSmoother)

def cleanBuffer : BufferedSmoother := { s with bufferQueue := [], sum := 0, items_count := 0 }

/-- `getAverage`, rounded. -/
def getAverage : UInt32 :=
  if 0 < s.items_count then
    .ofNat ((2 * s.sum.toNat + s.items_count.toNat) / (2 * s.items_count.toNat))
  else 0

/-- `addMeasure`: the buffer is not made with the length 0. -/
def addMeasure (measure : UInt32) : BufferedSmoother :=
  let prevAverage := s.getAverage
  let delta := if prevAverage > measure then prevAverage - measure else measure - prevAverage
  let s := if 0 < s.skipSmoothingDelta ∧ delta > s.skipSmoothingDelta then s.cleanBuffer else s
  let s :=
    if s.items_count = s.smoothingBufferLength then
      { s with sum := s.sum - s.bufferQueue.headD 0, bufferQueue := s.bufferQueue.tail }
    else { s with items_count := s.items_count + 1 }
  { s with bufferQueue := s.bufferQueue ++ [measure], sum := s.sum + measure }

end BufferedSmoother

/-- Smoothing over the last measures. -/
def bufferedSmoothing : ISmoother BufferedSmoother where
  getSmoothedValue := BufferedSmoother.getAverage
  addMeasure measure s := s.addMeasure measure

/-! ## Accumulators -/

/-- `growTriggeringSize`. -/
def growTriggeringSize (maxIndex anIndex : ℤ) : ℤ := if maxIndex < anIndex then anIndex else maxIndex

/-- `AMJsonSignal::init`, as to the accumulator of its graphic item. -/
def initArgument (type : ActionType) (anIndex maxIndex : ℤ) : ℤ :=
  if type = .stringArgument then growTriggeringSize maxIndex anIndex else maxIndex

/-- A `CanIntArgumentsAccumulator`, whose smoother has states in `σ`. -/
structure CanIntArgumentsAccumulator (σ : Type*) where
  maxIndex : ℤ
  smoother : Option σ
  intValue : Fin 3 → UInt8
  flagValue : Fin 3 → Bool

/-- What is received, and what comes of it. -/
inductive Accumulation
  | received (anIndex : ℕ) (anArg : Int8)
  | addMeasure (measure : UInt32)
  | argumentComplete (intValue fracValue unitValue : UInt8)
  deriving DecidableEq

namespace CanIntArgumentsAccumulator

variable {σ : Type*} (smoothing : ISmoother σ) (a : CanIntArgumentsAccumulator σ)

/-- The accumulator of a graphic item, after `init` of the signals with its arguments. The values
    are not initialized. -/
def configure (intValue : Fin 3 → UInt8) (smoother : Option σ) (indices : List ℕ) :
    CanIntArgumentsAccumulator σ where
  maxIndex := indices.foldl (fun maxIndex anIndex => initArgument .intArgument anIndex maxIndex) (-1)
  smoother := smoother
  intValue := intValue
  flagValue _ := false

/-- The smoothed value takes the place of the first one. -/
def smooth : CanIntArgumentsAccumulator σ × List Accumulation :=
  match a.smoother with
  | none => (a, [])
  | some s =>
    let measure := (a.intValue 0).toUInt32
    let s := smoothing.addMeasure measure s
    ({ a with
        smoother := some s
        intValue := Function.update a.intValue 0 (smoothing.getSmoothedValue s &&& 0xff).toUInt8 },
      [.addMeasure measure])

/-- `insertValueFromSignal`: `none` where the index is not one of the arrays. -/
def insertValueFromSignal (anIndex : ℕ) (anArg : Int8) :
    Option (CanIntArgumentsAccumulator σ × List Accumulation) :=
  if h : anIndex < 3 then
    let a : CanIntArgumentsAccumulator σ :=
      { a with
        intValue := Function.update a.intValue ⟨anIndex, h⟩ anArg.toUInt8
        flagValue := Function.update a.flagValue ⟨anIndex, h⟩ true }
    if 3 ≤ a.maxIndex then none
    else if ∀ i : Fin 3, (i : ℤ) ≤ a.maxIndex → a.flagValue i = true then
      let (a, fed) := a.smooth smoothing
      some ({ a with flagValue := fun _ => false }, .received anIndex anArg :: fed ++
        [.argumentComplete (a.intValue 0) (a.intValue 1) (a.intValue 2)])
    else some (a, [.received anIndex anArg])
  else none

/-- One value after the other. -/
def run (a : CanIntArgumentsAccumulator σ) :
    List (ℕ × Int8) → Option (CanIntArgumentsAccumulator σ × List Accumulation)
  | [] => some (a, [])
  | p :: l =>
    (a.insertValueFromSignal smoothing p.1 p.2).bind fun x =>
      (run x.1 l).map fun y => (y.1, x.2 ++ y.2)

end CanIntArgumentsAccumulator

/-! ## What is to be accumulated -/

namespace Accumulation

/-- Arguments are complete only with all indices received since they last have been. -/
def Complete (indices : List ℕ) : List ℕ → List Accumulation → Prop
  | _, [] => True
  | since, .received anIndex _ :: l => Complete indices (anIndex :: since) l
  | since, .addMeasure _ :: l => Complete indices since l
  | since, .argumentComplete _ _ _ :: l => (∀ i ∈ indices, i ∈ since) ∧ Complete indices [] l

/-- What the smoother is fed. -/
def fed (l : List Accumulation) : List UInt32 :=
  l.filterMap fun
    | .addMeasure measure => some measure
    | _ => none

/-- What is received for the first index. -/
def raw (l : List Accumulation) : List UInt32 :=
  l.filterMap fun
    | .received 0 anArg => some anArg.toUInt8.toUInt32
    | _ => none

end Accumulation

/-- The arguments are emitted when all are received, and the smoother, if any, is fed what is
    received for the first one. -/
def Accumulates {σ : Type*} (smoothing : ISmoother σ) (a : CanIntArgumentsAccumulator σ)
    (indices : List ℕ) (l : List (ℕ × Int8)) : Prop :=
  ∃ b events, a.run smoothing l = some (b, events) ∧ Accumulation.Complete indices [] events ∧
    (a.smoother.isSome = true → Accumulation.fed events = Accumulation.raw events)

section

open Accumulation

variable {σ : Type*} {smoothing : ISmoother σ} {a : CanIntArgumentsAccumulator σ}
  {indices since : List ℕ} {i : ℕ} {v : Int8} {l : List (ℕ × Int8)} {e e' : List Accumulation}

theorem fed_append : fed (e ++ e') = fed e ++ fed e' := List.filterMap_append

theorem raw_append : raw (e ++ e') = raw e ++ raw e' := List.filterMap_append

/-- The triggering size is not set by integer arguments. -/
theorem maxIndex_configure (intValue : Fin 3 → UInt8) (smoother : Option σ) (indices : List ℕ) :
    (CanIntArgumentsAccumulator.configure intValue smoother indices).maxIndex = -1 := by
  induction indices with
  | nil => rfl
  | cons i l ih => exact ih

/-- What an insertion makes of the accumulator, and emits: the arguments are always complete, and a
    smoother is always fed. -/
structure Emits (a b : CanIntArgumentsAccumulator σ) (i : ℕ) (v : Int8) (e : List Accumulation) :
    Prop where
  maxIndex : b.maxIndex = -1
  smoother : b.smoother.isSome = a.smoother.isSome
  events : ∃ measure intValue fracValue unitValue,
    e = .received i v :: (if a.smoother.isSome then [.addMeasure measure] else []) ++
      [.argumentComplete intValue fracValue unitValue] ∧
    (i = 0 → measure = v.toUInt8.toUInt32)

theorem insertValueFromSignal_spec (smoothing : ISmoother σ) (ha : a.maxIndex = -1) (hi : i < 3) (v : Int8) :
    ∃ b e, a.insertValueFromSignal smoothing i v = some (b, e) ∧ Emits a b i v e := by
  obtain ⟨maxIndex, smoother, intValue, flagValue⟩ := a
  obtain rfl : maxIndex = -1 := ha
  have hmeasure : i = 0 → (Function.update intValue ⟨i, hi⟩ v.toUInt8 0).toUInt32 =
      v.toUInt8.toUInt32 := by
    rintro rfl
    exact congrArg UInt8.toUInt32 (Function.update_self ..)
  rw [CanIntArgumentsAccumulator.insertValueFromSignal, dif_pos hi]
  dsimp only
  -- no index is up to the triggering size
  rw [if_neg (by decide), if_pos fun k hk => by omega]
  refine ⟨_, _, rfl, ?_⟩
  cases smoother with
  | none => exact ⟨rfl, rfl, _, _, _, _, rfl, hmeasure⟩
  | some s => exact ⟨rfl, rfl, _, _, _, _, rfl, hmeasure⟩

/-- An insertion is in order if it is of the only index, and the first one if there is a smoother. -/
theorem Emits.complete_iff {b : CanIntArgumentsAccumulator σ} (h : Emits a b i v e) :
    Complete indices [] (e ++ e') ↔ (∀ k ∈ indices, k = i) ∧ Complete indices [] e' := by
  obtain ⟨measure, x, y, z, rfl, -⟩ := h.events
  split_ifs <;> simp [Complete]

/-- A smoother is fed one value, which is what is received if that is for the first index. -/
theorem Emits.fed_raw {b : CanIntArgumentsAccumulator σ} (h : Emits a b i v e)
    (hs : a.smoother.isSome = true) :
    ∃ measure, fed e = [measure] ∧ raw e = if i = 0 then [measure] else [] := by
  obtain ⟨measure, x, y, z, rfl, hmeasure⟩ := h.events
  rw [if_pos hs]
  refine ⟨measure, rfl, ?_⟩
  cases i with
  | zero => exact congrArg (fun m => [m]) (hmeasure rfl).symm
  | succ i => rfl

/-- A run inserts the first value, and goes on from there. -/
theorem run_cons {p : ℕ × Int8} (smoothing : ISmoother σ) (ha : a.maxIndex = -1) (hi : p.1 < 3) :
    ∃ b e, Emits a b p.1 p.2 e ∧ ∀ l,
      a.run smoothing (p :: l) = (b.run smoothing l).map fun y => (y.1, e ++ y.2) := by
  obtain ⟨b, e, hinsert, hemits⟩ := insertValueFromSignal_spec smoothing ha hi p.2
  refine ⟨b, e, hemits, fun l => ?_⟩
  rw [CanIntArgumentsAccumulator.run, hinsert, Option.bind_some]

theorem run_of_not_lt {p : ℕ × Int8} (hi : ¬p.1 < 3) : a.run smoothing (p :: l) = none := by
  rw [CanIntArgumentsAccumulator.run, CanIntArgumentsAccumulator.insertValueFromSignal, dif_neg hi]
  rfl

/-- A smoother is fed as often as a value is inserted. -/
theorem length_fed_of_run {b : CanIntArgumentsAccumulator σ} (ha : a.maxIndex = -1)
    (hs : a.smoother.isSome = true) (h : a.run smoothing l = some (b, e)) :
    (fed e).length = l.length ∧ (raw e).length ≤ l.length := by
  induction l generalizing a e with
  | nil =>
    obtain ⟨-, rfl⟩ := Prod.mk.inj (Option.some.inj h)
    exact ⟨rfl, le_rfl⟩
  | cons p l ih =>
    have hi : p.1 < 3 := by
      by_contra hi
      exact absurd (h.symm.trans (run_of_not_lt hi)) (Option.some_ne_none _)
    obtain ⟨c, e₁, hemits, hrun⟩ := run_cons smoothing ha hi
    obtain ⟨⟨b', e₂⟩, hrun', heq⟩ := Option.map_eq_some_iff.1 ((hrun l).symm.trans h)
    obtain ⟨rfl, rfl⟩ := Prod.mk.inj heq
    obtain ⟨hfed, hraw⟩ := ih hemits.maxIndex (hemits.smoother.trans hs) hrun'
    obtain ⟨measure, hfed₁, hraw₁⟩ := hemits.fed_raw hs
    rw [fed_append, raw_append, hfed₁, hraw₁, List.length_append, List.length_append,
      List.length_cons, hfed]
    have hle : (if p.1 = 0 then [measure] else []).length ≤ 1 := by split_ifs <;> simp
    exact ⟨Nat.add_comm .., (Nat.add_le_add hle hraw).trans_eq (Nat.add_comm ..)⟩

/-- The first value and the others. -/
theorem accumulates_cons {p : ℕ × Int8} (smoothing : ISmoother σ) (indices : List ℕ)
    (l : List (ℕ × Int8)) (ha : a.maxIndex = -1) (hi : p.1 < 3) :
    ∃ b : CanIntArgumentsAccumulator σ, b.maxIndex = -1 ∧
      b.smoother.isSome = a.smoother.isSome ∧
      (Accumulates smoothing a indices (p :: l) ↔
        ((∀ k ∈ indices, k = p.1) ∧ (a.smoother.isSome = true → p.1 = 0)) ∧
          Accumulates smoothing b indices l) := by
  obtain ⟨b, e, hemits, hrun⟩ := run_cons smoothing ha hi
  refine ⟨b, hemits.maxIndex, hemits.smoother, ?_, ?_⟩
  · rintro ⟨c, events, hc, hcomplete, hfed⟩
    obtain ⟨⟨c', e'⟩, hrun', heq⟩ := Option.map_eq_some_iff.1 ((hrun l).symm.trans hc)
    obtain ⟨rfl, rfl⟩ := Prod.mk.inj heq
    obtain ⟨honly, hcomplete⟩ := hemits.complete_iff.1 hcomplete
    -- a value for another index would be one too many for the smoother
    have hfirst (hs : a.smoother.isSome = true) : p.1 = 0 ∧ fed e' = raw e' := by
      obtain ⟨measure, hfed₁, hraw₁⟩ := hemits.fed_raw hs
      have hall := hfed hs
      rw [fed_append, raw_append, hfed₁, hraw₁] at hall
      split_ifs at hall with hzero
      · exact ⟨hzero, List.append_cancel_left hall⟩
      · obtain ⟨hlen, hle⟩ := length_fed_of_run hemits.maxIndex (hemits.smoother.trans hs) hrun'
        have hlength := congrArg List.length hall
        simp only [List.nil_append, List.length_append, List.length_singleton] at hlength
        omega
    exact ⟨⟨honly, fun hs => (hfirst hs).1⟩, c', e', hrun', hcomplete,
      fun hs => (hfirst (hemits.smoother.symm.trans hs)).2⟩
  · rintro ⟨⟨honly, hfirst⟩, c, e', hrun', hcomplete, hfed⟩
    refine ⟨c, e ++ e', by rw [hrun, hrun']; rfl, hemits.complete_iff.2 ⟨honly, hcomplete⟩,
      fun hs => ?_⟩
    obtain ⟨measure, hfed₁, hraw₁⟩ := hemits.fed_raw hs
    rw [fed_append, raw_append, hfed₁, hraw₁, if_pos (hfirst hs), hfed (hemits.smoother.trans hs)]

theorem accumulates_iff_forall (ha : a.maxIndex = -1) : Accumulates smoothing a indices l ↔
    ∀ p ∈ l, p.1 < 3 ∧ (∀ i ∈ indices, i = p.1) ∧ (a.smoother.isSome = true → p.1 = 0) := by
  induction l generalizing a with
  | nil => exact iff_of_true ⟨a, [], rfl, trivial, fun _ => rfl⟩ (List.forall_mem_nil _)
  | cons p l ih =>
    rw [List.forall_mem_cons]
    by_cases hi : p.1 < 3
    · obtain ⟨b, hb, hs, hiff⟩ := accumulates_cons smoothing indices l ha hi
      rw [hiff, ih hb, hs, and_iff_right hi]
    · refine iff_of_false ?_ fun h => hi h.1.1
      rintro ⟨b, e, hrun, -⟩
      exact absurd (hrun.symm.trans (run_of_not_lt hi)) (Option.some_ne_none _)

/-- The arguments are emitted only with all that are configured received since they last have been,
    and the smoother is fed the values received for the first one and nothing else, exactly in the
    runs in which each value is for the only index that is configured, and with a smoother the
    first one. -/
theorem accumulates_iff (smoothing : ISmoother σ) (intValue : Fin 3 → UInt8) (smoother : Option σ)
    (indices : List ℕ) (l : List (ℕ × Int8)) :
    Accumulates smoothing (.configure intValue smoother indices) indices l ↔
      ∀ p ∈ l, p.1 < 3 ∧ (∀ i ∈ indices, i = p.1) ∧ (smoother.isSome = true → p.1 = 0) :=
  accumulates_iff_forall (maxIndex_configure intValue smoother indices)

end

/-- With two arguments, the first one is emitted alone. -/
theorem accumulates_fails_of_two :
    ¬ ∀ (smoother : Option BufferedSmoother) (indices : List ℕ) (l : List (ℕ × Int8)),
      (∀ p ∈ l, p.1 ∈ indices) →
        Accumulates bufferedSmoothing (.configure (fun _ => 0) smoother indices) indices l := by
  intro hall
  obtain ⟨b, events, hrun, hcomplete, -⟩ := hall none [0, 1] [(0, 60), (1, 5)] (by decide)
  obtain ⟨-, rfl⟩ := Prod.mk.inj (Option.some.inj hrun)
  exact absurd (hcomplete.1 1 (by decide)) (by decide)

end EW8.Display

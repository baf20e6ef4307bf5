import EW8.Display.Smoothing

/-!
# Smoothing over the last time interval

A `TimedSmoother` keeps the measures of an interval with their timestamps. Before a measure is put
into the queues, those that are too old are taken out at the front; but `firstMeasureTimestamp` is
then set to the timestamp of the measure that is taken out, and not of the next one. So once a
measure is taken out, either another one is that is not too old, or `firstMeasureTimestamp` is not
that of the first measure.

* The smoother is consistent with the measures of the interval as long as no measure gets too old
  before the buffer is cleaned, and the numbers fit (`smoother_consistent_iff`).
-/

namespace EW8.Display

/-- `qRound`, of what is not negative: `overflow` where it is no `int`. -/
def qRoundInt (overflow : ℤ → ℤ) (q : ℚ) : ℤ :=
  if qRound q ≤ 2147483647 then qRound q else overflow (qRound q)

/-- A `TimedSmoother`. -/
structure TimedSmoother where
  smoothingTimeInterval : ℤ
  skipSmoothingDelta : UInt32
  bufferQueue : List UInt32
  timestampsQueue : List ℤ
  firstMeasureTimestamp : ℤ
  sum : UInt32
  items_count : UInt32

namespace TimedSmoother

/-- A new smoother: `firstMeasureTimestamp` is not initialized. -/
def make (aSmoothingTimeInterval aSkipSmoothingDelta : UInt32) (firstMeasureTimestamp : ℤ) :
    TimedSmoother where
  smoothingTimeInterval := aSmoothingTimeInterval.toNat
  skipSmoothingDelta := aSkipSmoothingDelta
  bufferQueue := []
  timestampsQueue := []
  firstMeasureTimestamp := firstMeasureTimestamp
  sum := 0
  items_count := 0

variable (overflow : ℤ → ℤ) (s : TimedSmoother) (curTimestamp : ℤ) (measure : UInt32)

def cleanBuffer : TimedSmoother :=
  { s with sum := 0, items_count := 0, bufferQueue := [], timestampsQueue := [] }

def getAverage : UInt32 :=
  if 0 < s.items_count then
    .ofInt (qRoundInt overflow (Binary64.nearest (s.sum.toNat / s.items_count.toNat)))
  else 0

/-- The measure is too far from the average, so that the buffer is cleaned. -/
def Jumps : Prop :=
  0 < s.skipSmoothingDelta ∧
    (if s.getAverage overflow > measure then s.getAverage overflow - measure
      else measure - s.getAverage overflow) > s.skipSmoothingDelta

instance : Decidable (s.Jumps overflow measure) := inferInstanceAs (Decidable (_ ∧ _))

/-- The loop of `addMeasure`, with `n` as `items_count`. -/
def evict : ℕ → TimedSmoother → TimedSmoother
  | 0, s => s
  | n + 1, s =>
    if curTimestamp - s.firstMeasureTimestamp > s.smoothingTimeInterval then
      evict n
        { s with
          sum := s.sum - s.bufferQueue.headD 0
          firstMeasureTimestamp := s.timestampsQueue.headD 0
          bufferQueue := s.bufferQueue.tail
          timestampsQueue := s.timestampsQueue.tail
          items_count := s.items_count - 1 }
    else s

/-- The measure is put into the queues. -/
def push : TimedSmoother :=
  { s with
    items_count := s.items_count + 1
    bufferQueue := s.bufferQueue ++ [measure]
    timestampsQueue := s.timestampsQueue ++ [curTimestamp]
    sum := s.sum + measure }

/-- The buffer after the check for a jump. -/
def cleaned : TimedSmoother := if s.Jumps overflow measure then s.cleanBuffer else s

/-- The first measure of an empty buffer is the one to come. -/
def stamped : TimedSmoother :=
  if s.items_count = 0 then { s with firstMeasureTimestamp := curTimestamp } else s

def addMeasure : TimedSmoother :=
  let s := (s.cleaned overflow measure).stamped curTimestamp
  (evict curTimestamp s.items_count.toNat s).push curTimestamp measure

end TimedSmoother

/-! ## The measures of the interval -/

/-- A smoother, and the measures since the last reset with their times. -/
structure Smoothed where
  smoother : TimedSmoother
  since : List (ℤ × UInt32)

/-- One more measure, at a time that is not before the last one. -/
def Smoothed.step (overflow : ℤ → ℤ) (s : Smoothed) (a : ℤ × UInt32) : Option Smoothed :=
  if ∀ p ∈ s.since.getLast?, p.1 ≤ a.1 then
    some ⟨s.smoother.addMeasure overflow a.1 a.2,
      if s.smoother.Jumps overflow a.2 then [a] else s.since ++ [a]⟩
  else none

/-- The measures that are not older than the interval at the time of the newest one. -/
def retained (interval : ℤ) (since : List (ℤ × UInt32)) : List (ℤ × UInt32) :=
  since.filter fun p => ∀ q ∈ since.getLast?, q.1 - p.1 ≤ interval

/-- The smoother has the measures of the interval, and all else is consistent with them. -/
structure Consistent (overflow : ℤ → ℤ) (s : TimedSmoother) (measures : List (ℤ × UInt32)) :
    Prop where
  bufferQueue : s.bufferQueue = measures.map Prod.snd
  timestampsQueue : s.timestampsQueue = measures.map Prod.fst
  sum : s.sum.toNat = (measures.map fun p => p.2.toNat).sum
  items_count : s.items_count.toNat = measures.length
  firstMeasureTimestamp : ∀ p ∈ measures.head?, s.firstMeasureTimestamp = p.1
  getAverage : (s.getAverage overflow).toNat = average (measures.map fun p => p.2.toNat)

/-- The sum of the measures and their number are of 32 bits, and their average is an `int`, or what
    is made of it is the same. -/
structure Fits (overflow : ℤ → ℤ) (measures : List ℕ) : Prop where
  sum : measures.sum < 2 ^ 32
  length : measures.length < 2 ^ 32
  average : average measures ≤ 2147483647 ∨
    (UInt32.ofInt (overflow (average measures))).toNat = average measures

/-- No measure is taken out: the buffer is cleaned, or its first measure is not too old yet. -/
def Timely (overflow : ℤ → ℤ) (s : TimedSmoother) (a : ℤ × UInt32) : Prop :=
  s.Jumps overflow a.2 ∨ ∀ x ∈ s.timestampsQueue.head?, a.1 - x ≤ s.smoothingTimeInterval

section

variable {overflow : ℤ → ℤ} {s : TimedSmoother} {measures since : List (ℤ × UInt32)}
  {a : ℤ × UInt32} {interval curTimestamp : ℤ} {n : ℕ}

/-! ### The loop -/

theorem evict_eq_self
    (h : 0 < n → curTimestamp - s.firstMeasureTimestamp ≤ s.smoothingTimeInterval) :
    TimedSmoother.evict curTimestamp n s = s := by
  cases n with
  | zero => rfl
  | succ n => exact if_neg (not_lt.2 (h n.succ_pos))

theorem evict_smoothingTimeInterval (n : ℕ) (s : TimedSmoother) :
    (TimedSmoother.evict curTimestamp n s).smoothingTimeInterval = s.smoothingTimeInterval := by
  induction n generalizing s with
  | zero => rfl
  | succ n ih =>
    rw [TimedSmoother.evict]
    split_ifs
    · exact ih _
    · rfl

/-- Once a measure is too old, one more is taken out than there are at the front that are too old,
    if there is one; and if there is none, the timestamp of an old measure is left. -/
theorem evict_old {T : List ℤ} (hs : s.smoothingTimeInterval = interval)
    (hT : s.timestampsQueue = T) (hold : interval < curTimestamp - s.firstMeasureTimestamp) :
    (TimedSmoother.evict curTimestamp T.length s).timestampsQueue =
        (T.dropWhile fun x => interval < curTimestamp - x).tail ∧
      (T.dropWhile (fun x => interval < curTimestamp - x) = [] → interval <
        curTimestamp - (TimedSmoother.evict curTimestamp T.length s).firstMeasureTimestamp) := by
  induction T generalizing s with
  | nil => exact ⟨hT, fun _ => hold⟩
  | cons x T ih =>
    rw [List.length_cons, TimedSmoother.evict, hs, if_pos hold, hT]
    by_cases hx : interval < curTimestamp - x
    · -- the next one is taken out as well
      rw [List.dropWhile_cons, if_pos (decide_eq_true hx)]
      exact ih rfl rfl hx
    · rw [List.dropWhile_cons, if_neg (by simpa using hx), List.tail_cons,
        evict_eq_self fun _ => not_lt.1 hx]
      exact ⟨rfl, fun hnil => absurd hnil (List.cons_ne_nil _ _)⟩

/-! ### A measure more -/

theorem getAverage_of_fits {l : List ℕ} (hsum : s.sum.toNat = l.sum)
    (hcount : s.items_count.toNat = l.length) (hne : l ≠ []) :
    s.getAverage overflow = .ofInt
      (if average l ≤ 2147483647 then ↑(average l) else overflow (average l)) := by
  have hpos : 0 < l.length := List.length_pos_of_ne_nil hne
  have hround : qRound (Binary64.nearest (s.sum.toNat / s.items_count.toNat)) = average l := by
    rw [qRound, Binary64.floor_nearest_div (s.sum.toNat_lt.trans (by norm_num)) (by omega)
      (s.items_count.toNat_lt.trans (by norm_num)), hsum, hcount]
    rfl
  rw [TimedSmoother.getAverage, if_pos (UInt32.lt_iff_toNat_lt.2 (hcount ▸ hpos)), qRoundInt,
    hround]
  norm_cast

theorem Consistent.bufferQueue_toNat (h : Consistent overflow s measures) :
    s.bufferQueue.map UInt32.toNat = measures.map fun p => p.2.toNat := by
  rw [h.bufferQueue, List.map_map]
  rfl

/-- One more measure is put to consistent ones: all is consistent again just if the numbers fit. -/
theorem Consistent.push_iff (h : Consistent overflow s measures)
    (hfirst : measures = [] → s.firstMeasureTimestamp = a.1) :
    Consistent overflow (s.push a.1 a.2) (measures ++ [a]) ↔
      Fits overflow ((s.bufferQueue ++ [a.2]).map UInt32.toNat) := by
  have hmap : (s.bufferQueue ++ [a.2]).map UInt32.toNat =
      (measures ++ [a]).map fun p => p.2.toNat := by
    rw [List.map_append, List.map_append, h.bufferQueue_toNat]
    rfl
  have hne : (measures ++ [a]).map (fun p => p.2.toNat) ≠ [] := by simp
  rw [hmap]
  generalize hl : (measures ++ [a]).map (fun p => p.2.toNat) = l at *
  have hlen : (measures ++ [a]).length = l.length := by rw [← hl, List.length_map]
  have hsum : s.sum.toNat + a.2.toNat = l.sum := by
    rw [h.sum, ← hl, List.map_append, List.sum_append, List.map_singleton, List.sum_singleton]
  have hcount : s.items_count.toNat + 1 = l.length := by
    rw [h.items_count, ← hlen, List.length_append, List.length_singleton]
  constructor
  · rintro ⟨-, -, hsum', hcount', -, haverage⟩
    rw [hl] at hsum' haverage
    rw [hlen] at hcount'
    refine ⟨hsum' ▸ (s.push a.1 a.2).sum.toNat_lt, hcount' ▸ (s.push a.1 a.2).items_count.toNat_lt,
      ?_⟩
    rw [getAverage_of_fits hsum' hcount' hne] at haverage
    split_ifs at haverage with hle
    · exact .inl hle
    · exact .inr haverage
  · intro hfits
    have hsum' : (s.push a.1 a.2).sum.toNat = l.sum := by
      rw [TimedSmoother.push, UInt32.toNat_add, hsum, Nat.mod_eq_of_lt hfits.sum]
    have hcount' : (s.push a.1 a.2).items_count.toNat = l.length := by
      rw [TimedSmoother.push, UInt32.toNat_add, UInt32.toNat_one, hcount,
        Nat.mod_eq_of_lt hfits.length]
    refine ⟨?_, ?_, by rw [hsum', hl], by rw [hcount', hlen], fun p hp => ?_, ?_⟩
    · rw [TimedSmoother.push, h.bufferQueue, List.map_append, List.map_singleton]
    · rw [TimedSmoother.push, h.timestampsQueue, List.map_append, List.map_singleton]
    · cases measures with
      | nil => exact (hfirst rfl).trans (congrArg Prod.fst (Option.some.inj hp))
      | cons q measures => exact h.firstMeasureTimestamp p hp
    · rw [getAverage_of_fits hsum' hcount' hne, hl]
      split_ifs with hle
      · rw [ofInt_natCast, UInt32.toNat_ofNat', Nat.mod_eq_of_lt (by omega)]
      · exact hfits.average.resolve_left hle

theorem consistent_nil (hqueue : s.bufferQueue = []) (htimes : s.timestampsQueue = [])
    (hsum : s.sum = 0) (hcount : s.items_count = 0) : Consistent overflow s [] where
  bufferQueue := hqueue
  timestampsQueue := htimes
  sum := congrArg UInt32.toNat hsum
  items_count := congrArg UInt32.toNat hcount
  firstMeasureTimestamp _ hp := absurd hp (Option.not_mem_none _)
  getAverage := by
    rw [TimedSmoother.getAverage, hcount]
    rfl

/-- The first measure of an empty buffer will be the next one. -/
theorem Consistent.stamped (h : Consistent overflow s measures) :
    Consistent overflow (s.stamped curTimestamp) measures ∧
      (measures = [] → (s.stamped curTimestamp).firstMeasureTimestamp = curTimestamp) ∧
      (s.stamped curTimestamp).smoothingTimeInterval = s.smoothingTimeInterval ∧
      (s.stamped curTimestamp).bufferQueue = s.bufferQueue := by
  have hzero : s.items_count = 0 ↔ measures = [] := by
    rw [← UInt32.toNat_inj, h.items_count, UInt32.toNat_zero, List.length_eq_zero_iff]
  rw [TimedSmoother.stamped]
  split_ifs with hcount
  · obtain rfl := hzero.1 hcount
    refine ⟨consistent_nil h.bufferQueue h.timestampsQueue ?_ hcount, fun _ => rfl, rfl, rfl⟩
    exact UInt32.toNat_inj.1 h.sum
  · exact ⟨h, fun hnil => absurd (hzero.2 hnil) hcount, rfl, rfl⟩

/-! ### The measures retained -/

theorem retained_append_singleton :
    retained interval (since ++ [a]) = (since ++ [a]).filter fun p => a.1 - p.1 ≤ interval := by
  refine List.filter_congr fun p _ => ?_
  rw [List.getLast?_concat]
  simp

theorem retained_singleton (hinterval : 0 ≤ interval) : retained interval [a] = [a] := by
  rw [← List.nil_append [a], retained_append_singleton]
  simpa using hinterval

/-- As long as the first one is not too old, all measures are still retained. -/
theorem retained_concat (hinterval : 0 ≤ interval)
    (hsorted : (since ++ [a]).Pairwise fun p q => p.1 ≤ q.1)
    (h : ∀ p ∈ (retained interval since).head?, a.1 - p.1 ≤ interval) :
    retained interval (since ++ [a]) = retained interval since ++ [a] := by
  obtain ⟨hsince, -, hle⟩ := List.pairwise_append.1 hsorted
  have hlast : decide (a.1 - a.1 ≤ interval) = true := by simpa using hinterval
  rw [retained_append_singleton, List.filter_append, List.filter_singleton, hlast, cond_true]
  refine congrArg (· ++ [a]) (List.filter_congr fun p hp => decide_eq_decide.2 ⟨?_, fun hq => ?_⟩)
  · intro hp' q hq
    have hqa := hle q (List.mem_of_mem_getLast? hq) a List.mem_cons_self
    omega
  · have hmem : p ∈ retained interval since := List.mem_filter.2 ⟨hp, decide_eq_true hq⟩
    have hpairwise : (retained interval since).Pairwise fun p q => p.1 ≤ q.1 := hsince.filter _
    cases hret : retained interval since with
    | nil => exact absurd (hret ▸ hmem) List.not_mem_nil
    | cons q rest =>
      rw [hret] at hmem hpairwise
      have hqp : q.1 ≤ p.1 := by
        rcases List.mem_cons.1 hmem with rfl | hmem
        · exact le_rfl
        · exact (List.pairwise_cons.1 hpairwise).1 p hmem
      have hq' := h q (by rw [hret]; rfl)
      omega

/-- Once a measure is taken out, the smoother does not have the measures of the interval, or not the
    timestamp of the first one. -/
theorem not_consistent_of_old (hinterval : 0 ≤ interval)
    (hs : s.smoothingTimeInterval = interval)
    (hsorted : since.Pairwise fun p q => p.1 ≤ q.1)
    (hT : s.timestampsQueue = (retained interval since).map Prod.fst)
    (hold : interval < a.1 - s.firstMeasureTimestamp) :
    ¬Consistent overflow
      ((TimedSmoother.evict a.1 s.timestampsQueue.length s).push a.1 a.2)
      (retained interval (since ++ [a])) := by
  intro h
  obtain ⟨hqueue, hfirst⟩ := evict_old hs rfl hold
  have hlast : decide (a.1 - a.1 ≤ interval) = true := by simpa using hinterval
  have hretained : retained interval (since ++ [a]) =
      since.filter (fun p => a.1 - p.1 ≤ interval) ++ [a] := by
    rw [retained_append_singleton, List.filter_append, List.filter_singleton, hlast, cond_true]
  rw [hretained] at h
  have hrest : (since.filter fun p => a.1 - p.1 ≤ interval).map Prod.fst =
      (s.timestampsQueue.dropWhile fun x => interval < a.1 - x).tail := by
    have htimestamps := h.timestampsQueue
    rw [List.map_append, List.map_singleton] at htimestamps
    exact (List.append_cancel_right htimestamps).symm.trans hqueue
  cases hdrop : s.timestampsQueue.dropWhile fun x => interval < a.1 - x with
  | nil =>
    -- the timestamp of an old measure
    rw [hdrop, List.tail_nil, List.map_eq_nil_iff] at hrest
    rw [hrest] at h
    have heq := h.firstMeasureTimestamp a rfl
    have hlt := hfirst hdrop
    rw [show (TimedSmoother.evict a.1 s.timestampsQueue.length s).firstMeasureTimestamp = a.1
      from heq] at hlt
    omega
  | cons y rest =>
    -- the measure that is taken out though it is not too old
    rw [hdrop, List.tail_cons] at hrest
    have hsuffix : y :: rest <:+ s.timestampsQueue := hdrop ▸ List.dropWhile_suffix _
    have htimes : s.timestampsQueue.Pairwise (· ≤ ·) := by
      rw [hT]
      exact List.pairwise_map.2 (hsorted.filter _)
    have hy : ¬interval < a.1 - y := by
      have := List.head?_dropWhile_not (fun x => decide (interval < a.1 - x)) s.timestampsQueue
      rw [hdrop] at this
      simpa using this
    have hall : ∀ x ∈ y :: rest, decide (a.1 - x ≤ interval) = true := by
      have hle := List.pairwise_cons.1 (htimes.sublist hsuffix.sublist)
      refine List.forall_mem_cons.2 ⟨decide_eq_true (not_lt.1 hy), fun x hx => ?_⟩
      have := hle.1 x hx
      exact decide_eq_true (by omega)
    have hkept : (y :: rest).Sublist (s.timestampsQueue.filter fun x => a.1 - x ≤ interval) := by
      rw [← List.filter_eq_self.2 hall]
      exact hsuffix.sublist.filter _
    have hsub : (s.timestampsQueue.filter fun x => a.1 - x ≤ interval).Sublist rest := by
      rw [← hrest, hT, List.filter_map]
      exact (List.filter_sublist.filter _).map _
    exact absurd (hkept.trans hsub).length_le (by simp)

end

/-! ## Runs -/

namespace Smoothed

variable (overflow : ℤ → ℤ)

/-- Before the first measure. -/
def init (interval delta : UInt32) (firstMeasureTimestamp : ℤ) : Smoothed where
  smoother := .make interval delta firstMeasureTimestamp
  since := []

/-- The smoother is consistent with the measures since the last reset that are not older than the
    interval. -/
def Right (interval : UInt32) (s : Smoothed) : Prop :=
  Consistent overflow s.smoother (retained interval.toNat s.since)

/-- No measure has to be taken out, and the numbers fit. -/
def Keeps (s : Smoothed) (a : ℤ × UInt32) : Prop :=
  Timely overflow s.smoother a ∧
    Fits overflow (((s.smoother.cleaned overflow a.2).bufferQueue ++ [a.2]).map UInt32.toNat)

variable {overflow} {interval : UInt32} {s s' : Smoothed} {a : ℤ × UInt32}

/-- What is so in every run. -/
structure Ordered (interval : UInt32) (s : Smoothed) : Prop where
  smoothingTimeInterval : s.smoother.smoothingTimeInterval = interval.toNat
  sorted : s.since.Pairwise fun p q => p.1 ≤ q.1

theorem step_eq_some (hs : s.step overflow a = some s') : (∀ p ∈ s.since.getLast?, p.1 ≤ a.1) ∧
    s' = ⟨s.smoother.addMeasure overflow a.1 a.2,
      if s.smoother.Jumps overflow a.2 then [a] else s.since ++ [a]⟩ := by
  by_cases hle : ∀ p ∈ s.since.getLast?, p.1 ≤ a.1
  · rw [step, if_pos hle] at hs
    exact ⟨hle, (Option.some.inj hs).symm⟩
  · rw [step, if_neg hle] at hs
    exact absurd hs (Option.some_ne_none _).symm

/-- The measures so far, and one that is not before the last of them. -/
theorem Ordered.concat (h : s.Ordered interval) (hle : ∀ p ∈ s.since.getLast?, p.1 ≤ a.1) :
    (s.since ++ [a]).Pairwise fun p q => p.1 ≤ q.1 := by
  refine List.pairwise_append.2 ⟨h.sorted, List.pairwise_singleton _ _, fun p hp q hq => ?_⟩
  rw [List.mem_singleton.1 hq]
  obtain ⟨since, x, heq⟩ : ∃ since x, s.since = since ++ [x] :=
    s.since.eq_nil_or_concat'.resolve_left (List.ne_nil_of_mem hp)
  have hx : x.1 ≤ a.1 := hle x (by rw [heq, List.getLast?_concat]; rfl)
  have hsorted := h.sorted
  rw [heq] at hp hsorted
  rcases List.mem_append.1 hp with hp | hp
  · exact ((List.pairwise_append.1 hsorted).2.2 p hp x List.mem_cons_self).trans hx
  · rwa [List.mem_singleton.1 hp]

theorem Ordered.step (h : s.Ordered interval) (hs : s.step overflow a = some s') :
    s'.Ordered interval := by
  obtain ⟨hle, rfl⟩ := step_eq_some hs
  constructor
  · refine (evict_smoothingTimeInterval _ _).trans (Eq.trans ?_ h.smoothingTimeInterval)
    rw [TimedSmoother.stamped, TimedSmoother.cleaned]
    split_ifs <;> rfl
  · dsimp only
    split_ifs
    · exact List.pairwise_singleton _ _
    · exact h.concat hle

/-- Where all is consistent before a step, it is afterwards just if no measure has to be taken out,
    and the numbers fit. -/
theorem right_iff_of_step (ho : s.Ordered interval) (h : s.Right overflow interval)
    (hs : s.step overflow a = some s') : s'.Right overflow interval ↔ s.Keeps overflow a := by
  obtain ⟨hle, rfl⟩ := step_eq_some hs
  have hinterval : (0 : ℤ) ≤ interval.toNat := Int.natCast_nonneg _
  by_cases hjumps : s.smoother.Jumps overflow a.2
  · -- the buffer is cleaned, and there is nothing to be taken out
    have hclean : s.smoother.cleaned overflow a.2 = s.smoother.cleanBuffer := if_pos hjumps
    have hpush : s.smoother.addMeasure overflow a.1 a.2 =
        (s.smoother.cleanBuffer.stamped a.1).push a.1 a.2 := by
      rw [TimedSmoother.addMeasure, hclean]
      rfl
    have hcons : Consistent overflow (s.smoother.cleanBuffer.stamped a.1) [] :=
      consistent_nil rfl rfl rfl rfl
    rw [Right, Keeps, hpush, if_pos hjumps, hclean, retained_singleton hinterval,
      ← List.nil_append [a], hcons.push_iff fun _ => rfl]
    exact ⟨fun hfits => ⟨.inl hjumps, hfits⟩, And.right⟩
  · have hclean : s.smoother.cleaned overflow a.2 = s.smoother := if_neg hjumps
    rw [Right, Keeps, TimedSmoother.addMeasure, if_neg hjumps, hclean, Timely,
      or_iff_right hjumps, ho.smoothingTimeInterval]
    obtain ⟨hcons, hfirst, hsame, hqueue⟩ := @Consistent.stamped _ _ _ a.1 h
    rw [ho.smoothingTimeInterval] at hsame
    have hcount : (s.smoother.stamped a.1).items_count.toNat =
        (s.smoother.stamped a.1).timestampsQueue.length := by
      rw [hcons.items_count, hcons.timestampsQueue, List.length_map]
    have hhead : s.smoother.timestampsQueue.head? =
        (retained interval.toNat s.since).head?.map Prod.fst := by
      rw [h.timestampsQueue, List.head?_map]
    rw [hcount, hhead]
    cases hmeasures : retained interval.toNat s.since with
    | nil =>
      -- there is nothing to be taken out
      rw [hmeasures] at hcons hfirst
      rw [hcons.timestampsQueue, retained_concat hinterval (ho.concat hle) (by simp [hmeasures]),
        hmeasures, ← hqueue]
      exact (hcons.push_iff hfirst).trans (and_iff_right fun x hx => absurd hx (by simp)).symm
    | cons p rest =>
      have hp : (s.smoother.stamped a.1).firstMeasureTimestamp = p.1 :=
        hcons.firstMeasureTimestamp p (by rw [hmeasures]; rfl)
      by_cases htimely : a.1 - p.1 ≤ interval.toNat
      · rw [evict_eq_self fun _ => by rw [hp, hsame]; exact htimely,
          retained_concat hinterval (ho.concat hle) (by simpa [hmeasures] using htimely), ← hqueue]
        rw [hcons.push_iff hfirst]
        exact (and_iff_right (by simpa using htimely)).symm
      · refine iff_of_false ?_ fun h => htimely (h.1 p.1 rfl)
        exact not_consistent_of_old hinterval hsame ho.sorted hcons.timestampsQueue
          (by rw [hp]; exact not_le.1 htimely)

end Smoothed

/-- In every run, the smoother is consistent with the measures of the interval in all states just if
    in each step no measure has to be taken out, and the numbers fit. -/
theorem smoother_consistent_iff {overflow : ℤ → ℤ} {interval delta : UInt32}
    {firstMeasureTimestamp : ℤ} {l : List (ℤ × UInt32)} {s : Smoothed}
    (hs : Transition.run (Smoothed.step overflow) (.init interval delta firstMeasureTimestamp) l =
      some s) :
    (∀ l' s', l' <+: l → Transition.run (Smoothed.step overflow)
        (.init interval delta firstMeasureTimestamp) l' = some s' → s'.Right overflow interval) ↔
      Transition.Meets (Smoothed.step overflow) (Smoothed.Keeps overflow)
        (.init interval delta firstMeasureTimestamp) l := by
  have hinit : Smoothed.Ordered interval (.init interval delta firstMeasureTimestamp) :=
    ⟨rfl, List.Pairwise.nil⟩
  have hright : Smoothed.Right overflow interval (.init interval delta firstMeasureTimestamp) :=
    consistent_nil rfl rfl rfl rfl
  have hiff := Transition.meets_iff_of_step (C := Smoothed.Keeps overflow)
    (I := fun s => s.Ordered interval ∧ s.Right overflow interval)
    (fun s a s' h hs' => (and_iff_right (h.1.step hs')).trans
      (Smoothed.right_iff_of_step h.1 h.2 hs')) ⟨hinit, hright⟩ hs
  rw [hiff]
  refine ⟨fun h l' u hl' hu => ⟨?_, h l' u hl' hu⟩, fun h l' u hl' hu => (h l' u hl' hu).2⟩
  exact Transition.inv_of_run (fun s a s' h hs' => h.step hs') hinit hu

theorem smoother_consistent_two :
    ∃ s, Transition.run (Smoothed.step id) (.init 10 0 0) [(0, 10), (5, 20)] = some s ∧
      s.Right id 10 := by
  have hiff := @smoother_consistent_iff id 10 0 0 [(0, 10), (5, 20)] _ rfl
  refine ⟨_, rfl, hiff.2 ?_ _ _ (List.prefix_refl _) rfl⟩
  refine ⟨⟨.inr (by decide), by decide, by decide, .inl (by decide)⟩, fun s hs => ?_⟩
  obtain rfl := Option.some.inj hs
  refine ⟨⟨.inr (by decide), by decide, by decide, .inl (by decide)⟩, fun s hs => ?_⟩
  trivial

/-- Of three measures, the second one is taken out with the first one though it is not too old. -/
theorem smoother_consistent_fails_of_old :
    ¬∀ (overflow : ℤ → ℤ) (interval delta : UInt32) (firstMeasureTimestamp : ℤ)
      (l : List (ℤ × UInt32)) (s : Smoothed),
      Transition.run (Smoothed.step overflow) (.init interval delta firstMeasureTimestamp) l =
        some s → s.Right overflow interval := by
  intro h
  have hright := h id 10 0 0 [(0, 1), (5, 2), (12, 3)] _ rfl
  exact absurd hright.bufferQueue (by decide)

end EW8.Display

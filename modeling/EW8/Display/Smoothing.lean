import EW8.Display.IntArguments
import EW8.Lib.Binary64
import EW8.Lib.Transition

/-!
# Smoothing over the last measures

A `BufferedSmoother` keeps the last measures, their sum and their number, and forgets them when a
measure is too far from their average.

* The average is computed in doubles and rounded as if it were exact (`getAverage_eq`), and it is
  between the measures (`le_average`, `average_le`);
* the queue is the window of the last measures since it was last cleaned, and sum and number are
  those of the window (`smoother_window`).
-/

namespace EW8.Display

/-! ## Averages -/

/-- `qRound`, of what is not negative and an `int` when it is rounded. -/
def qRound (q : ℚ) : ℤ := ⌊q + 1 / 2⌋

/-- The average, rounded. -/
def average (l : List ℕ) : ℕ := (2 * l.sum + l.length) / (2 * l.length)

section

variable {l : List ℕ} {lo hi : ℕ}

theorem le_average (hl : l ≠ []) (h : ∀ x ∈ l, lo ≤ x) : lo ≤ average l := by
  have hlen : 0 < l.length := List.length_pos_of_ne_nil hl
  have hsum := List.card_nsmul_le_sum l lo h
  rw [average, Nat.le_div_iff_mul_le (by omega)]
  rw [smul_eq_mul] at hsum
  nlinarith

theorem average_le (h : ∀ x ∈ l, x ≤ hi) : average l ≤ hi := by
  rcases l.eq_nil_or_concat' with rfl | ⟨l, x, rfl⟩
  · exact Nat.zero_le hi
  have hsum := List.sum_le_card_nsmul _ hi h
  have hlen : 0 < (l ++ [x]).length := by simp
  rw [smul_eq_mul] at hsum
  refine Nat.lt_succ_iff.1 ((Nat.div_lt_iff_lt_mul (by omega)).2 ?_)
  nlinarith

end

theorem ofInt_natCast (n : ℕ) : UInt32.ofInt n = UInt32.ofNat n := by
  rw [UInt32.ofInt, ← UInt32.toNat_inj]
  simp only [UInt32.toNat_ofNat']
  omega

namespace BufferedSmoother

/-- `getAverage` as it is computed, in doubles. -/
theorem getAverage_eq (s : BufferedSmoother) (h : 0 < s.items_count) :
    s.getAverage = .ofInt (qRound (Binary64.nearest (s.sum.toNat / s.items_count.toNat))) := by
  have hcount : 0 < s.items_count.toNat := h
  rw [getAverage, if_pos h, qRound, Binary64.floor_nearest_div
    (s.sum.toNat_lt.trans (by norm_num)) hcount (s.items_count.toNat_lt.trans (by norm_num)),
    ofInt_natCast]

/-- A new smoother. -/
def make (aSmoothingLength aSkipSmoothingDelta : UInt32) : BufferedSmoother where
  smoothingBufferLength := aSmoothingLength
  skipSmoothingDelta := aSkipSmoothingDelta
  bufferQueue := []
  sum := 0
  items_count := 0

variable (s : BufferedSmoother) (measure : UInt32)

/-- The measure is too far from the average, so that the buffer is cleaned. -/
def Jumps : Prop :=
  0 < s.skipSmoothingDelta ∧ (if s.getAverage > measure then s.getAverage - measure
    else measure - s.getAverage) > s.skipSmoothingDelta

instance : Decidable (s.Jumps measure) := inferInstanceAs (Decidable (_ ∧ _))

/-- The buffer, as it is when the measure is put into it. -/
def cleaned : BufferedSmoother := if s.Jumps measure then s.cleanBuffer else s

/-- Room is made for one more measure. -/
def evict : BufferedSmoother :=
  if s.items_count = s.smoothingBufferLength then
    { s with sum := s.sum - s.bufferQueue.headD 0, bufferQueue := s.bufferQueue.tail }
  else { s with items_count := s.items_count + 1 }

/-- What `addMeasure` does after the buffer has been cleaned, if it is. -/
def push : BufferedSmoother :=
  { s.evict with bufferQueue := s.evict.bufferQueue ++ [measure], sum := s.evict.sum + measure }

theorem addMeasure_eq : s.addMeasure measure = (s.cleaned measure).push measure := rfl

/-- Neither the subtraction nor the additions of `push` wrap around. -/
structure Exact (s : BufferedSmoother) (measure : UInt32) : Prop where
  front : s.items_count = s.smoothingBufferLength → ∃ x ∈ s.bufferQueue.head?, x ≤ s.sum
  items_count : s.items_count ≠ s.smoothingBufferLength → s.items_count.toNat + 1 < 2 ^ 32
  sum : s.evict.sum.toNat + measure.toNat < 2 ^ 32

end BufferedSmoother

/-! ## The window -/

/-- The measures since the last reset, after one more: a measure that is too far from the average of
    the last `length` ones is the first. -/
def sinceReset (length delta : ℕ) (since : List ℕ) (measure : ℕ) : List ℕ :=
  if 0 < delta ∧ (delta : ℤ) < |(average (since.rtake length) : ℤ) - measure| then [measure]
  else since ++ [measure]

/-- The buffer has the last measures since the last reset. -/
structure Window (length delta : ℕ) (s : BufferedSmoother) (since : List ℕ) : Prop where
  smoothingBufferLength : s.smoothingBufferLength.toNat = length
  skipSmoothingDelta : s.skipSmoothingDelta.toNat = delta
  bytes : ∀ x ∈ since, x ≤ 255
  bufferQueue : s.bufferQueue.map UInt32.toNat = since.rtake length
  sum : s.sum.toNat = (since.rtake length).sum
  items_count : s.items_count.toNat = (since.rtake length).length

section

variable {length delta m : ℕ} {s : BufferedSmoother} {since : List ℕ} {measure : UInt32}

/-- The window after one more measure. -/
theorem rtake_concat (hpos : 0 < length) : (since ++ [m]).rtake length =
    (if since.length < length then since else (since.rtake length).tail) ++ [m] := by
  rw [List.rtake, List.length_append, List.length_singleton]
  split_ifs with hlt
  · rw [Nat.sub_eq_zero_of_le (by omega), List.drop_zero]
  · rw [List.rtake, List.tail_drop, List.drop_append_of_le_length (by omega),
      show since.length + 1 - length = since.length - length + 1 by omega]

theorem length_rtake : (since.rtake length).length = min length since.length := by
  rw [List.rtake, List.length_drop]
  omega

theorem mem_of_mem_rtake {x : ℕ} (h : x ∈ since.rtake length) : x ∈ since := List.mem_of_mem_drop h

namespace Window

theorem getAverage (h : Window length delta s since) :
    s.getAverage.toNat = average (since.rtake length) := by
  have hle : average (since.rtake length) ≤ 255 :=
    average_le fun x hx => h.bytes x (mem_of_mem_rtake hx)
  rw [BufferedSmoother.getAverage]
  split_ifs with hpos
  · rw [h.sum, h.items_count, UInt32.toNat_ofNat']
    exact Nat.mod_eq_of_lt (hle.trans_lt (by norm_num))
  · have hzero : (since.rtake length).length = 0 := by
      rw [← h.items_count]
      exact Nat.eq_zero_of_not_pos hpos
    rw [List.length_eq_zero_iff.1 hzero]
    rfl

theorem jumps_iff (h : Window length delta s since) : s.Jumps measure ↔
    0 < delta ∧ (delta : ℤ) < |(average (since.rtake length) : ℤ) - measure.toNat| := by
  rw [BufferedSmoother.Jumps, ← h.skipSmoothingDelta, ← h.getAverage]
  refine and_congr Iff.rfl ?_
  rw [gt_iff_lt, UInt32.lt_iff_toNat_lt]
  split_ifs with hgt
  · rw [gt_iff_lt, UInt32.lt_iff_toNat_lt] at hgt
    rw [UInt32.toNat_sub_of_le _ _ (UInt32.le_iff_toNat_le.2 hgt.le), abs_of_nonneg (by omega)]
    omega
  · rw [gt_iff_lt, UInt32.lt_iff_toNat_lt, not_lt] at hgt
    rw [UInt32.toNat_sub_of_le _ _ (UInt32.le_iff_toNat_le.2 hgt), abs_of_nonpos (by omega)]
    omega

theorem clean (h : Window length delta s since) : Window length delta s.cleanBuffer [] where
  smoothingBufferLength := h.smoothingBufferLength
  skipSmoothingDelta := h.skipSmoothingDelta
  bytes := List.forall_mem_nil _
  bufferQueue := by simp [BufferedSmoother.cleanBuffer]
  sum := by simp [BufferedSmoother.cleanBuffer]
  items_count := by simp [BufferedSmoother.cleanBuffer]

theorem full_iff (h : Window length delta s since) :
    s.items_count = s.smoothingBufferLength ↔ ¬since.length < length := by
  rw [← UInt32.toNat_inj, h.items_count, h.smoothingBufferLength, length_rtake]
  omega

/-- The first measure of a full buffer. -/
theorem exists_cons (h : Window length delta s since) (hpos : 0 < length)
    (hfull : ¬since.length < length) :
    ∃ x queue, s.bufferQueue = x :: queue ∧
      since.rtake length = x.toNat :: queue.map UInt32.toNat := by
  cases hq : s.bufferQueue with
  | nil =>
    have hlen := congrArg List.length h.bufferQueue
    rw [hq, length_rtake, List.map_nil, List.length_nil] at hlen
    omega
  | cons x queue => exact ⟨x, queue, rfl, by rw [← h.bufferQueue, hq, List.map_cons]⟩

/-- At most `length - 1` bytes are left when room has been made. -/
structure Room (length : ℕ) (s : BufferedSmoother) (since rest : List ℕ) : Prop where
  bufferQueue : s.evict.bufferQueue.map UInt32.toNat = rest
  sum : s.evict.sum.toNat = rest.sum
  items_count : s.evict.items_count.toNat = min length (since.length + 1)
  le : rest.sum ≤ (length - 1) * 255

theorem evict (h : Window length delta s since) (hpos : 0 < length) (hfit : length * 255 < 2 ^ 32) :
    Room length s since (if since.length < length then since else (since.rtake length).tail) := by
  have hle : ∀ {l : List ℕ}, l ⊆ since → l.length < length → l.sum ≤ (length - 1) * 255 := by
    intro l hl hlen
    have hsum := List.sum_le_card_nsmul l 255 fun x hx => h.bytes x (hl hx)
    rw [smul_eq_mul] at hsum
    exact hsum.trans (Nat.mul_le_mul_right _ (by omega))
  have hcount := h.items_count
  rw [length_rtake] at hcount
  by_cases hlt : since.length < length
  · have hall : since.rtake length = since := by
      rw [List.rtake, Nat.sub_eq_zero_of_le hlt.le, List.drop_zero]
    have hnot : ¬s.items_count = s.smoothingBufferLength := fun heq => h.full_iff.1 heq hlt
    rw [if_pos hlt]
    refine ⟨?_, ?_, ?_, hle (List.Subset.refl _) hlt⟩
    · rw [BufferedSmoother.evict, if_neg hnot]
      exact h.bufferQueue.trans hall
    · rw [BufferedSmoother.evict, if_neg hnot]
      exact h.sum.trans (congrArg List.sum hall)
    · rw [BufferedSmoother.evict, if_neg hnot, UInt32.toNat_add, hcount, UInt32.toNat_one]
      omega
  · obtain ⟨x, queue, hq, hrtake⟩ := h.exists_cons hpos hlt
    have hfull : s.items_count = s.smoothingBufferLength := h.full_iff.2 hlt
    have hsum : s.sum.toNat = x.toNat + (queue.map UInt32.toNat).sum := by
      rw [h.sum, hrtake, List.sum_cons]
    have hlen : (queue.map UInt32.toNat).length + 1 = length := by
      rw [← List.length_cons, ← hrtake, length_rtake]
      omega
    rw [if_neg hlt, hrtake, List.tail_cons]
    refine ⟨?_, ?_, ?_, hle (fun y hy => @mem_of_mem_rtake length _ _ ?_) (by omega)⟩
    · rw [BufferedSmoother.evict, if_pos hfull, hq, List.tail_cons]
    · rw [BufferedSmoother.evict, if_pos hfull, hq, List.headD_cons,
        UInt32.toNat_sub_of_le _ _ (UInt32.le_iff_toNat_le.2 (by omega)), hsum,
        Nat.add_sub_cancel_left]
    · rw [BufferedSmoother.evict, if_pos hfull, hcount]
      omega
    · rw [hrtake]
      exact List.mem_cons_of_mem _ hy

/-- The measures in the window and the next one have an exact sum. -/
theorem exact (h : Window length delta s since) (hpos : 0 < length) (hfit : length * 255 < 2 ^ 32)
    (hm : measure.toNat ≤ 255) : s.Exact measure where
  front hfull := by
    obtain ⟨x, queue, hq, hrtake⟩ := h.exists_cons hpos (h.full_iff.1 hfull)
    refine ⟨x, by rw [hq]; rfl, UInt32.le_iff_toNat_le.2 ?_⟩
    rw [h.sum, hrtake, List.sum_cons]
    exact Nat.le_add_right ..
  items_count hfull := by
    have hlt : since.length < length := not_not.1 fun hlt => hfull (h.full_iff.2 hlt)
    rw [h.items_count, length_rtake]
    omega
  sum := by
    have hroom := h.evict hpos hfit
    have hsum := hroom.sum
    have hle := hroom.le
    omega

theorem push (h : Window length delta s since) (hpos : 0 < length) (hfit : length * 255 < 2 ^ 32)
    (hm : measure.toNat ≤ 255) :
    Window length delta (s.push measure) (since ++ [measure.toNat]) := by
  have hroom := h.evict hpos hfit
  have hsum := hroom.sum
  have hle := hroom.le
  have hsame : s.evict.smoothingBufferLength = s.smoothingBufferLength ∧
      s.evict.skipSmoothingDelta = s.skipSmoothingDelta := by
    rw [BufferedSmoother.evict]
    split_ifs
    · exact ⟨rfl, rfl⟩
    · exact ⟨rfl, rfl⟩
  refine ⟨?_, ?_, ?_, ?_, ?_, ?_⟩
  · exact (congrArg UInt32.toNat hsame.1).trans h.smoothingBufferLength
  · exact (congrArg UInt32.toNat hsame.2).trans h.skipSmoothingDelta
  · exact List.forall_mem_append.2 ⟨h.bytes, List.forall_mem_singleton.2 hm⟩
  · rw [rtake_concat hpos, ← hroom.bufferQueue, BufferedSmoother.push, List.map_append,
      List.map_singleton]
  · rw [rtake_concat hpos, List.sum_append, List.sum_singleton, ← hsum, BufferedSmoother.push,
      UInt32.toNat_add, Nat.mod_eq_of_lt (by omega)]
  · rw [length_rtake, List.length_append, List.length_singleton]
    exact hroom.items_count

/-- The buffer when the next measure is put into it, and the measures it has then. -/
theorem cleaned (h : Window length delta s since) : ∃ since',
    Window length delta (s.cleaned measure) since' ∧
      sinceReset length delta since measure.toNat = since' ++ [measure.toNat] := by
  rw [BufferedSmoother.cleaned, sinceReset]
  by_cases hjumps : s.Jumps measure
  · rw [if_pos hjumps, if_pos (h.jumps_iff.1 hjumps)]
    exact ⟨[], h.clean, rfl⟩
  · rw [if_neg hjumps, if_neg fun hj => hjumps (h.jumps_iff.2 hj)]
    exact ⟨since, h, rfl⟩

theorem addMeasure (h : Window length delta s since) (hpos : 0 < length)
    (hfit : length * 255 < 2 ^ 32) (hm : measure.toNat ≤ 255) :
    Window length delta (s.addMeasure measure) (sinceReset length delta since measure.toNat) ∧
      (s.cleaned measure).Exact measure := by
  obtain ⟨since', hwindow, heq⟩ := @cleaned _ _ _ _ measure h
  rw [heq, BufferedSmoother.addMeasure_eq]
  exact ⟨hwindow.push hpos hfit hm, hwindow.exact hpos hfit hm⟩

end Window

theorem window_make (length delta : UInt32) :
    Window length.toNat delta.toNat (.make length delta) [] where
  smoothingBufferLength := rfl
  skipSmoothingDelta := rfl
  bytes := List.forall_mem_nil _
  bufferQueue := by simp [BufferedSmoother.make]
  sum := by simp [BufferedSmoother.make]
  items_count := by simp [BufferedSmoother.make]

theorem window_foldl {length delta : UInt32} (hpos : 0 < length)
    (hfit : length.toNat * 255 < 2 ^ 32) (l : List UInt8) :
    Window length.toNat delta.toNat
      ((l.map UInt8.toUInt32).foldl BufferedSmoother.addMeasure (.make length delta))
      ((l.map UInt8.toNat).foldl (sinceReset length.toNat delta.toNat) []) := by
  induction l using List.reverseRecOn with
  | nil => exact window_make length delta
  | append_singleton l m ih =>
    have hm : m.toUInt32.toNat ≤ 255 := by
      rw [UInt8.toNat_toUInt32]
      exact Nat.lt_succ_iff.1 m.toNat_lt
    have hstep := (ih.addMeasure hpos hfit hm).1
    rw [UInt8.toNat_toUInt32] at hstep
    rw [List.map_append, List.map_append, List.foldl_append, List.foldl_append]
    exact hstep

end

/-- After any measures, the queue has the last `length` ones since the last reset, with their sum
    and their number; the smoothed value is between them, and the next measure is put into the
    buffer without a wrap-around. -/
theorem smoother_window {length : UInt32} (delta : UInt32) (hpos : 0 < length)
    (hfit : length.toNat * 255 < 2 ^ 32) (l : List UInt8) :
    (let s := (l.map UInt8.toUInt32).foldl BufferedSmoother.addMeasure (.make length delta)
    let since := (l.map UInt8.toNat).foldl (sinceReset length.toNat delta.toNat) []
    s.bufferQueue.map UInt32.toNat = since.rtake length.toNat ∧
      s.bufferQueue.length = min length.toNat since.length ∧
      s.sum.toNat = (s.bufferQueue.map UInt32.toNat).sum ∧
      s.items_count.toNat = s.bufferQueue.length ∧
      (∀ lo hi, s.bufferQueue ≠ [] → (∀ x ∈ s.bufferQueue, lo ≤ x ∧ x ≤ hi) →
        lo ≤ bufferedSmoothing.getSmoothedValue s ∧ bufferedSmoothing.getSmoothedValue s ≤ hi) ∧
      ∀ measure : UInt8, (s.cleaned measure.toUInt32).Exact measure.toUInt32) := by
  intro s since
  have h : Window length.toNat delta.toNat s since := window_foldl hpos hfit l
  have hlen : s.bufferQueue.length = min length.toNat since.length := by
    rw [← List.length_map UInt32.toNat, h.bufferQueue, length_rtake]
  refine ⟨h.bufferQueue, hlen, h.bufferQueue ▸ h.sum, ?_, fun lo hi hne hall => ?_, fun m => ?_⟩
  · rw [h.items_count, hlen, length_rtake]
  · have hne' : since.rtake length.toNat ≠ [] := by
      rw [← h.bufferQueue]
      exact fun hnil => hne (List.map_eq_nil_iff.1 hnil)
    have hall' : ∀ x ∈ since.rtake length.toNat, lo.toNat ≤ x ∧ x ≤ hi.toNat := by
      rw [← h.bufferQueue]
      exact List.forall_mem_map.2 hall
    have haverage : (bufferedSmoothing.getSmoothedValue s).toNat =
        average (since.rtake length.toNat) := h.getAverage
    rw [UInt32.le_iff_toNat_le, UInt32.le_iff_toNat_le, haverage]
    exact ⟨le_average hne' fun x hx => (hall' x hx).1, average_le fun x hx => (hall' x hx).2⟩
  · refine (h.addMeasure ?_ hfit ?_).2
    · exact hpos
    · rw [UInt8.toNat_toUInt32]
      exact Nat.lt_succ_iff.1 m.toNat_lt

theorem smoother_window_two :
    (([10, 12, 17].map UInt8.toUInt32).foldl BufferedSmoother.addMeasure
      (.make 2 100)).bufferQueue.map UInt32.toNat = [12, 17] :=
  (@smoother_window 2 100 (by decide) (by decide) [10, 12, 17]).1.trans (by decide)

end EW8.Display

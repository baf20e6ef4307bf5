import Mathlib

/-!
# Files written in pieces

A file is the list of its values. A write replaces a piece of it (`overwrite`): where this
reaches past the end, the file gets longer, and a gap between the end and the piece is filled
with a default value. Writing nothing changes nothing.

* `length_overwrite`, `getD_overwrite`: the file after a write, value by value;
* `overwrite_append`: a write behind a prefix leaves the prefix as it is;
* `drop_take_overwrite`: what has been written is read back.

A file that is read past its end gives the default value as well, so that two files are the same
if they have the same length and give the same values (`ext_getD`).
-/

variable {α : Type*} (z : α)

/-- The file `l` with `src` written at the offset `ofs`. -/
def overwrite (l : List α) (ofs : ℕ) (src : List α) : List α :=
  if src.isEmpty then l
  else (l ++ List.replicate (ofs - l.length) z).take ofs ++ src ++ l.drop (ofs + src.length)

variable {z} {l l' src : List α} {ofs : ℕ}

@[simp] theorem overwrite_nil : overwrite z l ofs [] = l := rfl

theorem overwrite_of_ne_nil (h : src ≠ []) : overwrite z l ofs src =
    (l ++ List.replicate (ofs - l.length) z).take ofs ++ src ++ l.drop (ofs + src.length) :=
  if_neg (by rwa [List.isEmpty_iff])

/-- What is before a write has the length of its offset. -/
theorem length_take_replicate (l : List α) (ofs : ℕ) :
    ((l ++ List.replicate (ofs - l.length) z).take ofs).length = ofs := by
  rw [List.length_take, List.length_append, List.length_replicate]
  omega

theorem length_overwrite (h : src ≠ []) :
    (overwrite z l ofs src).length = max l.length (ofs + src.length) := by
  rw [overwrite_of_ne_nil h, List.length_append, List.length_append, length_take_replicate,
    List.length_drop]
  omega

theorem getD_take_replicate {i : ℕ} (h : i < ofs) :
    ((l ++ List.replicate (ofs - l.length) z).take ofs).getD i z = l.getD i z := by
  simp only [List.getD_eq_getElem?_getD, List.getElem?_take_of_lt h]
  by_cases hi : i < l.length
  · rw [List.getElem?_append_left hi]
  · rw [List.getElem?_append_right (by omega), List.getElem?_eq_none (l := l) (by omega),
      List.getElem?_replicate_of_lt (by omega)]
    rfl

theorem getD_overwrite (i : ℕ) : (overwrite z l ofs src).getD i z =
    if ofs ≤ i ∧ i < ofs + src.length then src.getD (i - ofs) z else l.getD i z := by
  by_cases h : src = []
  · subst h
    rw [overwrite_nil, if_neg (by simp only [List.length_nil]; omega)]
  · have hlen := length_take_replicate (z := z) l ofs
    rw [overwrite_of_ne_nil h]
    by_cases h₁ : i < ofs
    · rw [if_neg (by omega), List.getD_append _ _ _ _ (by rw [List.length_append, hlen]; omega),
        List.getD_append _ _ _ _ (by omega), getD_take_replicate h₁]
    by_cases h₂ : i < ofs + src.length
    · rw [if_pos (by omega), List.getD_append _ _ _ _ (by rw [List.length_append, hlen]; omega),
        List.getD_append_right _ _ _ _ (by omega), hlen]
    · rw [if_neg (by omega),
        List.getD_append_right _ _ _ _ (by rw [List.length_append, hlen]; omega),
        List.length_append, hlen]
      simp only [List.getD_eq_getElem?_getD, List.getElem?_drop]
      congr 2
      omega

theorem ext_getD (hlen : l.length = l'.length) (h : ∀ i < l.length, l.getD i z = l'.getD i z) :
    l = l' := by
  refine List.ext_getElem hlen fun i h₁ h₂ => ?_
  rw [← List.getD_eq_getElem l z h₁, ← List.getD_eq_getElem l' z h₂, h i h₁]

/-- A write behind a prefix. -/
theorem overwrite_append (p q : List α) :
    overwrite z (p ++ q) p.length src = p ++ src ++ q.drop src.length := by
  by_cases h : src = []
  · simp [h]
  · rw [overwrite_of_ne_nil h, List.length_append, Nat.sub_eq_zero_of_le (by omega),
      List.replicate_zero, List.append_nil, List.take_left, List.drop_append]
    simp

/-- What has been written is read back. -/
theorem drop_take_overwrite : ((overwrite z l ofs src).drop ofs).take src.length = src := by
  by_cases h : src = []
  · simp [h]
  · rw [overwrite_of_ne_nil h, List.append_assoc,
      List.drop_left' (length_take_replicate (z := z) l ofs), List.take_left]

/-- What is before a write stays. -/
theorem take_overwrite {n : ℕ} (h : n ≤ ofs) (hn : n ≤ l.length) :
    (overwrite z l ofs src).take n = l.take n := by
  by_cases hs : src = []
  · rw [hs, overwrite_nil]
  · rw [overwrite_of_ne_nil hs, List.append_assoc,
      List.take_append_of_le_length (by rw [length_take_replicate]; exact h), List.take_take,
      min_eq_left h, List.take_append_of_le_length hn]

/-- A write over the whole of a file. -/
theorem overwrite_zero (h : l.length ≤ src.length) : overwrite z l 0 src = src := by
  by_cases hs : src = []
  · subst hs
    rw [List.length_nil, Nat.le_zero, List.length_eq_zero_iff] at h
    exact h
  · rw [overwrite_of_ne_nil hs, List.drop_of_length_le (by omega)]
    simp

/-! ## Records of a fixed length -/

variable {β : Type*} {f : β → List α} {w : ℕ}

theorem length_flatMap_const (hf : ∀ b, (f b).length = w) (l : List β) :
    (l.flatMap f).length = w * l.length := by
  induction l with
  | nil => rfl
  | cons b l ih => rw [List.flatMap_cons, List.length_append, hf, ih, List.length_cons]; ring

/-- The `r`-th value of the `j`-th record. -/
theorem getD_flatMap_const (hf : ∀ b, (f b).length = w) (l : List β) {j r : ℕ} (hr : r < w) :
    (l.flatMap f).getD (w * j + r) z = (l[j]?.map fun b => (f b).getD r z).getD z := by
  induction l generalizing j with
  | nil => simp
  | cons b l ih =>
    rw [List.flatMap_cons]
    cases j with
    | zero => rw [List.getD_append _ _ _ _ (by rw [hf]; omega)]; simp
    | succ j =>
      rw [List.getD_append_right _ _ _ _ (by rw [hf, Nat.mul_succ]; omega), hf,
        show w * (j + 1) + r - w = w * j + r by rw [Nat.mul_succ]; omega, ih,
        List.getElem?_cons_succ]

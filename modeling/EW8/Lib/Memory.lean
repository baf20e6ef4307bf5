import Mathlib

/-!
# Arrays of bytes with checked accesses

A C array of `n` bytes, as a function on its `n` indices (`Bytes n`), so that an
index outside the declaration cannot be formed. Code computes its indices at run
time, though: `Bytes.read` and `Bytes.write` take any offset and length, and
answer `OutOfBounds` instead of touching an index past the end of the array.

Within bounds they are the total functions `slice` and `patch`
(`read_eq`, `write_eq`), whose bytes are given by `getElem_slice` and
`byteAt_patch`.

Integers are laid out by `toLE`, the little-endian bytes of a number, and read
back by `ofLE` (`ofLE_toLE`).
-/

/-- An array of `n` bytes. -/
abbrev Bytes (n : ℕ) := Fin n → UInt8

/-- An access past the end of the array `array`. -/
structure OutOfBounds (ι : Type*) where
  /-- The array. -/
  array : ι
  /-- The end of the access, past that of the array. -/
  stop : ℕ
  deriving DecidableEq, Repr

namespace Bytes

variable {ι : Type*} {n : ℕ} (m : Bytes n)

/-- The byte at index `i`, `0` past the end. -/
def byteAt (i : ℕ) : UInt8 := if h : i < n then m ⟨i, h⟩ else 0

/-- The `len` bytes from the offset `ofs` on. -/
def slice (ofs len : ℕ) : List UInt8 := (List.range len).map fun i => m.byteAt (ofs + i)

/-- The array with the bytes `src` copied to the offset `ofs`. -/
def patch (ofs : ℕ) (src : List UInt8) : Bytes n :=
  fun i => if ofs ≤ i ∧ i < ofs + src.length then src.getD (i - ofs) 0 else m i

/-- A checked read of `len` bytes from the offset `ofs` of the array called `a`. -/
def read (a : ι) (ofs len : ℕ) : Except (OutOfBounds ι) (List UInt8) :=
  if len = 0 ∨ ofs + len ≤ n then .ok (m.slice ofs len) else .error ⟨a, ofs + len⟩

/-- A checked write of the bytes `src` to the offset `ofs` of the array called `a`. -/
def write (a : ι) (ofs : ℕ) (src : List UInt8) : Except (OutOfBounds ι) (Bytes n) :=
  if src.length = 0 ∨ ofs + src.length ≤ n then .ok (m.patch ofs src)
  else .error ⟨a, ofs + src.length⟩

variable {m}

theorem read_eq {a : ι} {ofs len : ℕ} (h : ofs + len ≤ n) :
    m.read a ofs len = .ok (m.slice ofs len) := if_pos (.inr h)

theorem write_eq {a : ι} {ofs : ℕ} {src : List UInt8} (h : ofs + src.length ≤ n) :
    m.write a ofs src = .ok (m.patch ofs src) := if_pos (.inr h)

theorem read_error {a : ι} {ofs len : ℕ} (hlen : len ≠ 0) (h : n < ofs + len) :
    m.read a ofs len = .error ⟨a, ofs + len⟩ := if_neg (by omega)

theorem byteAt_of_lt {i : ℕ} (h : i < n) : m.byteAt i = m ⟨i, h⟩ := dif_pos h

@[simp] theorem length_slice (ofs len : ℕ) : (m.slice ofs len).length = len := by
  simp [slice]

@[simp] theorem slice_zero (ofs : ℕ) : m.slice ofs 0 = [] := rfl

@[simp] theorem slice_one (ofs : ℕ) : m.slice ofs 1 = [m.byteAt ofs] := rfl

@[simp] theorem getElem_slice {ofs len i : ℕ} (h : i < (m.slice ofs len).length) :
    (m.slice ofs len)[i] = m.byteAt (ofs + i) := by
  simp [slice]

theorem getD_slice {ofs len i : ℕ} (h : i < len) :
    (m.slice ofs len).getD i 0 = m.byteAt (ofs + i) := by
  rw [List.getD_eq_getElem _ _ (by simpa using h), getElem_slice]

/-- The bytes of a slice are given one by one. -/
theorem slice_eq_iff {ofs len : ℕ} {l : List UInt8} :
    m.slice ofs len = l ↔ l.length = len ∧ ∀ i < len, l.getD i 0 = m.byteAt (ofs + i) := by
  constructor
  · rintro rfl
    exact ⟨length_slice .., fun i hi => getD_slice hi⟩
  · rintro ⟨rfl, h⟩
    refine List.ext_getElem (length_slice ..) fun i h₁ h₂ => ?_
    rw [getElem_slice, ← h i h₂, List.getD_eq_getElem _ _ h₂]

theorem slice_congr {k : ℕ} {m' : Bytes k} {ofs ofs' len : ℕ}
    (h : ∀ i < len, m.byteAt (ofs + i) = m'.byteAt (ofs' + i)) : m.slice ofs len = m'.slice ofs' len :=
  List.map_congr_left fun i hi => h i (List.mem_range.1 hi)

/-- A slice is a slice followed by another. -/
theorem slice_add (ofs len₁ len₂ : ℕ) :
    m.slice ofs (len₁ + len₂) = m.slice ofs len₁ ++ m.slice (ofs + len₁) len₂ := by
  simp [slice, List.range_add, add_assoc, Function.comp_def]

theorem take_slice {ofs len k : ℕ} (h : k ≤ len) : (m.slice ofs len).take k = m.slice ofs k := by
  obtain ⟨j, rfl⟩ := Nat.exists_eq_add_of_le h
  rw [slice_add, List.take_append_of_le_length (by simp), List.take_of_length_le (by simp)]

theorem drop_slice {ofs len k : ℕ} (h : k ≤ len) :
    (m.slice ofs len).drop k = m.slice (ofs + k) (len - k) := by
  obtain ⟨j, rfl⟩ := Nat.exists_eq_add_of_le h
  rw [slice_add, List.drop_append_of_le_length (by simp), List.drop_of_length_le (by simp),
    List.nil_append, Nat.add_sub_cancel_left]

/-- Copying `src` changes the bytes it covers, and no others. -/
theorem byteAt_patch {ofs i : ℕ} {src : List UInt8} (h : i < n) :
    (m.patch ofs src).byteAt i =
      if ofs ≤ i ∧ i < ofs + src.length then src.getD (i - ofs) 0 else m.byteAt i := by
  rw [byteAt_of_lt h, byteAt_of_lt h]
  rfl

theorem byteAt_patch_of_mem {ofs i : ℕ} {src : List UInt8} (h : ofs + i < n) (hi : i < src.length) :
    (m.patch ofs src).byteAt (ofs + i) = src.getD i 0 := by
  rw [byteAt_patch h, if_pos ⟨by omega, by omega⟩, Nat.add_sub_cancel_left]

theorem byteAt_patch_of_not_mem {ofs i : ℕ} {src : List UInt8}
    (h : i < ofs ∨ ofs + src.length ≤ i) : (m.patch ofs src).byteAt i = m.byteAt i := by
  by_cases hi : i < n
  · rw [byteAt_patch hi, if_neg (by omega)]
  · simp [byteAt, hi]

theorem byteAt_patch_zero (m : Bytes n) {i : ℕ} {src : List UInt8} (h : i < n)
    (hi : i < src.length) : (m.patch 0 src).byteAt i = src.getD i 0 := by
  simpa using @byteAt_patch_of_mem _ m 0 _ _ (by simpa using h) hi

/-- What was copied is read back. -/
theorem slice_patch_self {ofs : ℕ} {src : List UInt8} (h : ofs + src.length ≤ n) :
    (m.patch ofs src).slice ofs src.length = src :=
  slice_eq_iff.2 ⟨rfl, fun i hi => (byteAt_patch_of_mem (by omega) hi).symm⟩

/-- Two copies next to each other are one. -/
theorem patch_patch_append (ofs : ℕ) (src₁ src₂ : List UInt8) :
    (m.patch ofs src₁).patch (ofs + src₁.length) src₂ = m.patch ofs (src₁ ++ src₂) := by
  funext i
  simp only [patch, List.length_append, List.getD_eq_getElem?_getD]
  by_cases h₁ : (i : ℕ) < ofs
  · rw [if_neg (by omega), if_neg (by omega), if_neg (by omega)]
  by_cases h₂ : (i : ℕ) < ofs + src₁.length
  · rw [if_neg (by omega), if_pos (by omega), if_pos (by omega),
      List.getElem?_append_left (by omega)]
  by_cases h₃ : (i : ℕ) < ofs + src₁.length + src₂.length
  · rw [if_pos (by omega), if_pos (by omega), List.getElem?_append_right (by omega)]
    congr 2
    omega
  · rw [if_neg (by omega), if_neg (by omega), if_neg (by omega)]

@[simp] theorem patch_nil (ofs : ℕ) : m.patch ofs [] = m := by
  funext i
  rw [patch, List.length_nil, if_neg (by omega)]

end Bytes

/-! ## Little-endian numbers -/

/-- The little-endian number with the bytes `l`. -/
def ofLE : List UInt8 → ℕ
  | [] => 0
  | b :: l => b.toNat + 256 * ofLE l

/-- The `k` little-endian bytes of `x`. -/
def toLE : ℕ → ℕ → List UInt8
  | 0, _ => []
  | k + 1, x => UInt8.ofNat (x % 256) :: toLE k (x / 256)

@[simp] theorem length_toLE (k x : ℕ) : (toLE k x).length = k := by
  induction k generalizing x with
  | zero => rfl
  | succ k ih => simp [toLE, ih]

/-- A number that fits in `k` bytes is read back from them. -/
theorem ofLE_toLE {k x : ℕ} (h : x < 256 ^ k) : ofLE (toLE k x) = x := by
  induction k generalizing x with
  | zero => simp only [pow_zero, Nat.lt_one_iff] at h; rw [h]; rfl
  | succ k ih =>
    have hdiv : x / 256 < 256 ^ k := Nat.div_lt_of_lt_mul (by rw [pow_succ] at h; linarith)
    have hmod : (UInt8.ofNat (x % 256)).toNat = x % 256 := by
      rw [UInt8.toNat_ofNat']
      omega
    rw [toLE, ofLE, ih hdiv, hmod, Nat.mod_add_div]

theorem ofLE_lt (l : List UInt8) : ofLE l < 256 ^ l.length := by
  induction l with
  | nil => simp [ofLE]
  | cons b l ih =>
    have := b.toNat_lt
    rw [ofLE, List.length_cons, pow_succ]
    omega

/-- The last byte is the one of highest value. -/
theorem ofLE_concat (l : List UInt8) (b : UInt8) :
    ofLE (l ++ [b]) = ofLE l + 256 ^ l.length * b.toNat := by
  induction l with
  | nil => simp [ofLE]
  | cons a l ih =>
    rw [List.cons_append, ofLE, ofLE, ih, List.length_cons, pow_succ]
    ring

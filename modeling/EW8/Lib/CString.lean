import EW8.Lib.Memory

/-!
# C strings

A C string is what stands before the first zero (`untilZero`). `strncpy` copies it into a field of a
fixed length: the rest of the field is filled with zeros, but a string that is too long is cut off
and has no zero behind it. `strlen` looks for the zero, past the end of the array if need be.

* `untilZero_strncpy`: a string that fits is read back;
* `strlen_patch`: and its length is found.
-/

/-- The C string at the start of the bytes `l`. -/
def untilZero (l : List UInt8) : List UInt8 := l.takeWhile fun b => b ≠ 0

/-- The `n` bytes that `strncpy` writes, for the C string at the start of `src`. -/
def strncpy (src : List UInt8) (n : ℕ) : List UInt8 := (untilZero src ++ List.replicate n 0).take n

variable {s rest : List UInt8} {n : ℕ}

/-- What stands before a zero is read. -/
theorem untilZero_append (h : 0 ∉ s) (rest : List UInt8) : untilZero (s ++ 0 :: rest) = s := by
  have hall : ∀ b ∈ s, decide (b ≠ 0) = true := by
    intro b hb
    exact decide_eq_true fun h0 => h (h0 ▸ hb)
  rw [untilZero, List.takeWhile_append_of_pos hall, List.takeWhile_cons_of_neg (by simp),
    List.append_nil]

@[simp] theorem length_strncpy (src : List UInt8) (n : ℕ) : (strncpy src n).length = n := by
  rw [strncpy, List.length_take, List.length_append, List.length_replicate]
  omega

/-- A string that fits in `n` bytes is followed by a zero. -/
theorem strncpy_of_lt (h : 0 ∉ s) (hlen : s.length < n) (rest : List UInt8) :
    ∃ k, strncpy (s ++ 0 :: rest) n = s ++ 0 :: List.replicate k 0 := by
  obtain ⟨k, rfl⟩ := Nat.exists_eq_add_of_lt hlen
  refine ⟨k, ?_⟩
  rw [strncpy, untilZero_append h, List.take_append, List.take_of_length_le (by omega),
    List.take_replicate, ← List.replicate_succ]
  congr 2
  omega

theorem untilZero_strncpy (h : 0 ∉ s) (hlen : s.length < n) :
    untilZero (strncpy (s ++ 0 :: rest) n) = s := by
  obtain ⟨k, hk⟩ := strncpy_of_lt h hlen rest
  rw [hk, untilZero_append h]

/-- With one byte more than it has, a string is copied with its zero. -/
theorem strncpy_succ (h : 0 ∉ s) : strncpy (s ++ 0 :: rest) (s.length + 1) = s ++ [0] := by
  obtain ⟨k, hk⟩ := strncpy_of_lt h (Nat.lt_succ_self s.length) rest
  have hlen := length_strncpy (s ++ 0 :: rest) (s.length + 1)
  rw [hk, List.length_append, List.length_cons, List.length_replicate] at hlen
  obtain rfl : k = 0 := by omega
  rw [hk]
  rfl

namespace Bytes

variable {ι : Type*} {m : Bytes n} {a : ι} {ofs : ℕ}

/-- `strlen`, from the offset `ofs` of the array called `a`. -/
def strlen (m : Bytes n) (a : ι) (ofs : ℕ) : Except (OutOfBounds ι) ℕ :=
  if 0 ∈ m.slice ofs (n - ofs) then .ok (untilZero (m.slice ofs (n - ofs))).length
  else .error ⟨a, n + 1⟩

/-- Bytes that have been copied are the first ones from there on. -/
theorem slice_patch_tail {src : List UInt8} (h : ofs + src.length ≤ n) :
    (m.patch ofs src).slice ofs (n - ofs) =
      src ++ (m.patch ofs src).slice (ofs + src.length) (n - (ofs + src.length)) := by
  have hsplit : n - ofs = src.length + (n - (ofs + src.length)) := by omega
  rw [hsplit, slice_add, slice_patch_self h]

/-- A string that has been copied has its length. -/
theorem strlen_patch (h : 0 ∉ s) (hfit : ofs + s.length + 1 ≤ n) :
    (m.patch ofs (s ++ [0])).strlen a ofs = .ok s.length := by
  have hlen : ofs + (s ++ [0]).length ≤ n := by
    rw [List.length_append, List.length_singleton]
    omega
  rw [strlen, slice_patch_tail hlen, List.append_assoc, List.singleton_append, untilZero_append h,
    if_pos (by simp)]

end Bytes

import EW8.Lib.Memory

/-!
# Fields of bits

Some bits of a number, from a given one on, are a number of their own (`bitField`). Where the number
is laid out in little-endian bytes, a field that does not go on to the next byte is what a
shift leaves of the byte that it starts in (`bitField_ofLE`).
-/

/-- The `n` bits of `x` from the bit `s` on. -/
def bitField (x s n : ℕ) : ℕ := x >>> s % 2 ^ n

section

variable {x s m n : ℕ}

theorem bitField_lt : bitField x s n < 2 ^ n := Nat.mod_lt _ (Nat.two_pow_pos n)

/-- The lower bits of a field. -/
theorem bitField_mod (h : m ≤ n) : bitField x s n % 2 ^ m = bitField x s m :=
  Nat.mod_mod_of_dvd _ (pow_dvd_pow 2 h)

/-- The lower bits of a field are all of it if the others are 0. -/
theorem bitField_eq_iff (h : m ≤ n) : bitField x s m = bitField x s n ↔ bitField x s n < 2 ^ m := by
  constructor
  · intro heq
    rw [← heq]
    exact bitField_lt
  · intro hlt
    rw [← bitField_mod h, Nat.mod_eq_of_lt hlt]

/-- A field of bits that are all 1. -/
theorem bitField_two_pow_sub_one (h : s + n ≤ m) : bitField (2 ^ m - 1) s n = 2 ^ n - 1 := by
  refine Nat.eq_of_testBit_eq fun i => ?_
  rw [bitField, Nat.testBit_mod_two_pow, Nat.testBit_shiftRight, Nat.testBit_two_pow_sub_one,
    Nat.testBit_two_pow_sub_one, ← Bool.decide_and, decide_eq_decide]
  omega

end

/-- The bytes from the `k`-th on. -/
theorem ofLE_drop (l : List UInt8) (k : ℕ) : ofLE (l.drop k) = ofLE l >>> (8 * k) := by
  induction k generalizing l with
  | zero => rfl
  | succ k ih =>
    cases l with
    | nil => simp [ofLE]
    | cons b l =>
      have hb : (b.toNat + 256 * ofLE l) >>> 8 = ofLE l := by
        have hlt := b.toNat_lt
        rw [Nat.shiftRight_eq_div_pow]
        omega
      rw [List.drop_succ_cons, ih, ofLE, Nat.mul_succ, Nat.add_comm (8 * k), Nat.shiftRight_add, hb]

/-- The bits of a byte from one on. -/
theorem bitField_ofLE {l : List UInt8} {s : ℕ} (h : s / 8 < l.length) :
    bitField (ofLE l) s (8 - s % 8) = l[s / 8].toNat >>> (s % 8) := by
  -- the bytes before this one are shifted away, and those after it are multiples of the modulus
  have hs : ofLE l >>> s = (l[s / 8].toNat + 256 * ofLE (l.drop (s / 8 + 1))) >>> (s % 8) := by
    rw [← ofLE, List.cons_getElem_drop_succ, ofLE_drop, ← Nat.shiftRight_add, Nat.div_add_mod]
  have hpow : 256 = 2 ^ (s % 8) * 2 ^ (8 - s % 8) := by
    rw [← pow_add, Nat.add_sub_cancel' (Nat.mod_lt s (by norm_num)).le]
    rfl
  have hlt : l[s / 8].toNat / 2 ^ (s % 8) < 2 ^ (8 - s % 8) :=
    Nat.div_lt_of_lt_mul (hpow ▸ l[s / 8].toNat_lt)
  rw [bitField, hs, Nat.shiftRight_eq_div_pow, Nat.shiftRight_eq_div_pow, hpow, mul_assoc,
    Nat.add_mul_div_left _ _ (Nat.two_pow_pos _), Nat.add_mul_mod_self_left, Nat.mod_eq_of_lt hlt]

import Mathlib

/-!
# Binary64

The finite numbers of the format binary64 are taken as rational numbers: `m * 2 ^ e` for a mantissa
`m` below `2 ^ 53` and an exponent `e` from -1074 on. A result is rounded to the nearest one, and
to the even mantissa if there are two (`nearest`).

* A number of the format is its own nearest (`nearest_of_mantissa`);
* the error is at most a half of the last place (`abs_nearest_sub_le`), and relatively at most
  `2 ^ (-53)` except for subnormal numbers (`abs_nearest_sub_le_of_normal`);
* a quotient of two numbers below `2 ^ 51` that is then rounded to an integer is rounded as if it
  had been exact (`floor_nearest_div`).
-/

namespace Binary64

/-- The nearest integer, and the even one of two. -/
def roundEven (q : ℚ) : ℤ :=
  if q - ⌊q⌋ < 1 / 2 ∨ q - ⌊q⌋ = 1 / 2 ∧ Even ⌊q⌋ then ⌊q⌋ else ⌊q⌋ + 1

/-- The exponent of the last place of the numbers around `q`. -/
def exponent (q : ℚ) : ℤ := max (Int.log 2 |q| - 52) (-1074)

/-- The nearest number of the format, if it has one as large. -/
def nearest (q : ℚ) : ℚ := roundEven (q / 2 ^ exponent q) * 2 ^ exponent q

variable {q : ℚ} {m e : ℤ}

theorem abs_roundEven_sub_le (q : ℚ) : |(roundEven q : ℚ) - q| ≤ 1 / 2 := by
  have hle := Int.floor_le q
  have hlt := Int.lt_floor_add_one q
  rw [roundEven, abs_le]
  split_ifs with h
  · have : q - ⌊q⌋ ≤ 1 / 2 := h.elim le_of_lt fun h => h.1.le
    constructor <;> linarith
  · have : 1 / 2 ≤ q - ⌊q⌋ := not_lt.1 fun hlt => h (.inl hlt)
    push_cast
    constructor <;> linarith

theorem roundEven_intCast (n : ℤ) : roundEven n = n := by
  rw [roundEven, Int.floor_intCast, sub_self, if_pos (.inl (by norm_num))]

theorem abs_nearest_sub_le (q : ℚ) : |nearest q - q| ≤ 2 ^ exponent q / 2 := by
  have hpos : (0 : ℚ) < 2 ^ exponent q := by positivity
  have heq : nearest q - q =
      ((roundEven (q / 2 ^ exponent q) : ℚ) - q / 2 ^ exponent q) * 2 ^ exponent q := by
    rw [nearest]
    field_simp
  rw [heq, abs_mul, abs_of_pos hpos]
  refine (mul_le_mul_of_nonneg_right (abs_roundEven_sub_le _) hpos.le).trans_eq ?_
  rw [one_div_mul_eq_div]

theorem abs_nearest_sub_le_of_normal (h : 2 ^ (-1022 : ℤ) ≤ |q|) :
    |nearest q - q| ≤ |q| / 2 ^ 53 := by
  have hpos : 0 < |q| := lt_of_lt_of_le (by positivity) h
  have hlog : -1022 ≤ Int.log 2 |q| :=
    (Int.zpow_le_iff_le_log (by norm_num) hpos).1 (by exact_mod_cast h)
  have hexp : exponent q = Int.log 2 |q| - 52 := max_eq_left (by omega)
  have hle : (2 : ℚ) ^ Int.log 2 |q| ≤ |q| := by
    exact_mod_cast Int.zpow_log_le_self (by norm_num : 1 < 2) hpos
  calc |nearest q - q| ≤ 2 ^ exponent q / 2 := abs_nearest_sub_le q
    _ = 2 ^ Int.log 2 |q| / 2 ^ 53 := by
      rw [hexp, zpow_sub₀ (by norm_num)]
      norm_num
      ring
    _ ≤ |q| / 2 ^ 53 := by gcongr

/-- A number of the format is its own nearest. -/
theorem nearest_of_mantissa (hm : |m| < 2 ^ 53) (he : -1074 ≤ e) :
    nearest (m * 2 ^ e) = m * 2 ^ e := by
  rcases eq_or_ne m 0 with rfl | hne
  · simp [nearest, show roundEven 0 = 0 from roundEven_intCast 0]
  have hpos : (0 : ℚ) < |(m : ℚ) * 2 ^ e| := by positivity
  have hlt : |(m : ℚ) * 2 ^ e| < 2 ^ (53 + e) := by
    rw [abs_mul, abs_of_pos (by positivity : (0 : ℚ) < 2 ^ e), zpow_add₀ two_ne_zero]
    gcongr
    exact_mod_cast hm
  have hlog : Int.log 2 |(m : ℚ) * 2 ^ e| < 53 + e :=
    (Int.lt_zpow_iff_log_lt (by norm_num) hpos).1 (by exact_mod_cast hlt)
  have hexp : exponent (m * 2 ^ e) ≤ e := max_le (by omega) he
  -- the mantissa in units of the last place
  obtain ⟨k, hk⟩ := Int.eq_ofNat_of_zero_le (sub_nonneg.2 hexp)
  have hdiv : (m : ℚ) * 2 ^ e / 2 ^ exponent (m * 2 ^ e) = ((m * 2 ^ k : ℤ) : ℚ) := by
    rw [mul_div_assoc, ← zpow_sub₀ two_ne_zero, hk]
    push_cast
    rw [zpow_natCast]
  rw [nearest, hdiv, roundEven_intCast, ← hdiv]
  exact div_mul_cancel₀ _ (by positivity)

theorem nearest_intCast (hm : |m| < 2 ^ 53) : nearest m = m := by
  simpa using nearest_of_mantissa hm (by norm_num : (-1074 : ℤ) ≤ 0)

theorem nearest_zero : nearest 0 = 0 := by
  simpa using nearest_intCast (by norm_num : |(0 : ℤ)| < 2 ^ 53)

theorem abs_nearest_div_sub_le {s c : ℕ} (hc : 0 < c) (hlt : c < 2 ^ 52) :
    |nearest (s / c) - s / c| ≤ s / c / 2 ^ 53 := by
  rcases Nat.eq_zero_or_pos s with rfl | hs
  · simp [nearest_zero]
  have hcpos : (0 : ℚ) < c := by exact_mod_cast hc
  have hle : (2 : ℚ) ^ (-1022 : ℤ) ≤ |(s : ℚ) / c| := by
    have hc' : (c : ℚ) ≤ 2 ^ 52 := by exact_mod_cast hlt.le
    have hs' : (1 : ℚ) ≤ s := by exact_mod_cast hs
    rw [abs_of_nonneg (by positivity), le_div_iff₀ hcpos]
    calc (2 : ℚ) ^ (-1022 : ℤ) * c ≤ 2 ^ (-1022 : ℤ) * 2 ^ 52 := by gcongr
      _ = 2 ^ (-970 : ℤ) := by
        rw [← zpow_natCast, ← zpow_add₀ two_ne_zero]
        norm_num
      _ ≤ 1 := zpow_le_one_of_nonpos₀ one_le_two (by norm_num)
      _ ≤ s := hs'
  simpa [abs_of_nonneg (by positivity : (0 : ℚ) ≤ s / c)] using abs_nearest_sub_le_of_normal hle

/-- A quotient is rounded to an integer as if it had been exact. -/
theorem floor_nearest_div {s c : ℕ} (hs : s < 2 ^ 51) (hc : 0 < c) (hlt : c < 2 ^ 52) :
    ⌊nearest (s / c) + 1 / 2⌋ = ((2 * s + c) / (2 * c) : ℕ) := by
  set k := (2 * s + c) / (2 * c) with hk
  have hcpos : (0 : ℚ) < c := by exact_mod_cast hc
  have hle : k * (2 * c) ≤ 2 * s + c := Nat.div_mul_le_self _ _
  have hgt : 2 * s + c + 1 ≤ k * (2 * c) + 2 * c := Nat.lt_div_mul_add (by omega : 0 < 2 * c)
  -- the error is less than the distance to the next half
  have herr : |nearest (s / c) - s / c| < 1 / (2 * c) := by
    have hs' : (s : ℚ) < 2 ^ 51 := by exact_mod_cast hs
    refine (abs_nearest_div_sub_le hc hlt).trans_lt ?_
    rw [div_div, div_lt_div_iff₀ (by positivity) (by positivity)]
    nlinarith
  obtain ⟨hlow, hhigh⟩ := abs_lt.1 herr
  rw [Int.floor_eq_iff]
  constructor
  · rcases hle.lt_or_eq with hlt' | heq
    · have hq : (k : ℚ) - 1 / 2 + 1 / (2 * c) ≤ s / c := by
        have hcast : (k : ℚ) * (2 * c) + 1 ≤ 2 * s + c := by exact_mod_cast hlt'
        rw [le_div_iff₀ hcpos]
        have : ((k : ℚ) - 1 / 2 + 1 / (2 * c)) * c = (k * (2 * c) + 1 - c) / 2 := by
          field_simp
          ring
        linarith
      push_cast
      linarith
    · -- a half is a number of the format
      have hq : (s : ℚ) / c = ((2 * k - 1 : ℤ) : ℚ) * 2 ^ (-1 : ℤ) := by
        have hcast : (k : ℚ) * (2 * c) = 2 * s + c := by exact_mod_cast heq
        rw [div_eq_iff hcpos.ne']
        push_cast
        rw [zpow_neg_one]
        linarith
      have hk' : 2 * k ≤ 2 * s + 1 := by
        nlinarith
      rw [hq, nearest_of_mantissa (abs_lt.2 ⟨by omega, by omega⟩) (by norm_num), zpow_neg_one]
      push_cast
      linarith
  · have hq : (s : ℚ) / c ≤ k + 1 / 2 - 1 / (2 * c) := by
      have hcast : 2 * (s : ℚ) + c + 1 ≤ k * (2 * c) + 2 * c := by exact_mod_cast hgt
      rw [div_le_iff₀ hcpos]
      have : ((k : ℚ) + 1 / 2 - 1 / (2 * c)) * c = (k * (2 * c) + c - 1) / 2 := by
        field_simp
      linarith
    push_cast
    linarith

end Binary64

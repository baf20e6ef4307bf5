import Mathlib

/-!
# Cyclic redundancy checks

A CRC of `w` bits divides a message, taken as a polynomial over two elements, by a fixed one,
and keeps the remainder. Here the bits come in the order of the reflected algorithms, the lowest
one of a word first: `bit` takes one bit into the remainder, `bits` a message.

Where the polynomial has a constant term, the highest bit here, no step loses anything
(`bits_injective`). A message of at most `w` bits can thus be recovered from the remainder
(`bits_eq`, `word_injective`), so that two messages that differ only within `w` bits have
different remainders, whatever comes before and after (`bits_burst_iff`).

Tables take `k` bits in one step: `shifts_split`.
-/

namespace Crc

variable {w : ℕ} {poly : BitVec w}

/-- A step of the division: the lowest bit goes out, and takes the polynomial with it. -/
def shift (poly c : BitVec w) : BitVec w :=
  if c.getLsbD 0 then (c >>> 1) ^^^ poly else c >>> 1

/-- `k` steps. -/
def shifts (poly : BitVec w) : ℕ → BitVec w → BitVec w
  | 0, c => c
  | k + 1, c => shifts poly k (shift poly c)

/-- A bit as the lowest of a word. -/
def lowest (w : ℕ) (b : Bool) : BitVec w := (BitVec.ofBool b).setWidth w

/-- The remainder after one more bit. -/
def bit (poly c : BitVec w) (b : Bool) : BitVec w := shift poly (c ^^^ lowest w b)

/-- The remainder after the bits `l`. -/
def bits (poly c : BitVec w) (l : List Bool) : BitVec w := l.foldl (bit poly) c

/-- The word of the bits `l`, the lowest first. -/
def word (w : ℕ) : List Bool → BitVec w
  | [] => 0
  | b :: l => lowest w b ^^^ (word w l <<< 1)

/-! ### Steps are linear -/

@[simp] theorem shift_zero : shift poly 0 = 0 := by simp [shift]

theorem shift_xor (a b : BitVec w) : shift poly (a ^^^ b) = shift poly a ^^^ shift poly b := by
  simp only [shift, BitVec.getLsbD_xor, BitVec.ushiftRight_xor_distrib]
  cases a.getLsbD 0 <;> cases b.getLsbD 0
  · rfl
  · exact BitVec.xor_assoc ..
  · simp only [Bool.xor_false, if_true, Bool.false_eq_true, if_false]
    rw [BitVec.xor_assoc, BitVec.xor_assoc, BitVec.xor_comm poly]
  · simp only [Bool.xor_self, Bool.false_eq_true, if_false, if_true]
    rw [← BitVec.xor_assoc, BitVec.xor_assoc (a >>> 1), BitVec.xor_comm poly (b >>> 1),
      ← BitVec.xor_assoc, BitVec.xor_assoc (a >>> 1 ^^^ b >>> 1), BitVec.xor_self,
      BitVec.xor_zero]

theorem shifts_xor (k : ℕ) (a b : BitVec w) :
    shifts poly k (a ^^^ b) = shifts poly k a ^^^ shifts poly k b := by
  induction k generalizing a b with
  | zero => rfl
  | succ k ih => rw [shifts, shifts, shifts, shift_xor, ih]

/-- Steps that take out zeros move the word down. -/
theorem shifts_shiftLeft {k : ℕ} {y : BitVec w} (h : y.toNat * 2 ^ k < 2 ^ w) :
    shifts poly k (y <<< k) = y := by
  induction k generalizing y with
  | zero => rw [shifts, BitVec.shiftLeft_zero]
  | succ k ih =>
    have hk : y.toNat * 2 ^ k * 2 < 2 ^ w := by rwa [mul_assoc, ← pow_succ]
    have hlow : (y <<< (k + 1)).getLsbD 0 = false := by simp
    have hstep : shift poly (y <<< (k + 1)) = y <<< k := by
      rw [shift, hlow, if_neg Bool.false_ne_true]
      refine BitVec.eq_of_toNat_eq ?_
      rw [BitVec.toNat_ushiftRight, BitVec.toNat_shiftLeft, BitVec.toNat_shiftLeft,
        Nat.shiftLeft_eq, Nat.shiftLeft_eq, pow_succ, ← mul_assoc, Nat.mod_eq_of_lt hk,
        Nat.mod_eq_of_lt (by omega), Nat.shiftRight_eq_div_pow, pow_one,
        Nat.mul_div_cancel _ two_pos]
    rw [shifts, hstep, ih (by omega)]

/-- What a table is for: `k` steps are those of the lowest `k` bits, on what is left. -/
theorem shifts_split (k : ℕ) (c : BitVec w) :
    shifts poly k c = shifts poly k (c &&& BitVec.ofNat w (2 ^ k - 1)) ^^^ (c >>> k) := by
  have hsplit : c = (c &&& BitVec.ofNat w (2 ^ k - 1)) ^^^ ((c >>> k) <<< k) := by
    ext i hi
    have hmask : (BitVec.ofNat w (2 ^ k - 1))[i] = decide (i < k) := by
      rw [← BitVec.getLsbD_eq_getElem, BitVec.getLsbD_ofNat, Nat.testBit_two_pow_sub_one]
      simp [hi]
    rw [BitVec.getElem_xor, BitVec.getElem_and, hmask, BitVec.getElem_shiftLeft]
    by_cases hik : i < k
    · simp [hik]
    · rw [BitVec.getElem_ushiftRight, ← BitVec.getLsbD_eq_getElem]
      simp [hik, Nat.add_sub_cancel' (not_lt.1 hik)]
  have hhigh : shifts poly k ((c >>> k) <<< k) = c >>> k := by
    refine shifts_shiftLeft ?_
    rw [BitVec.toNat_ushiftRight, Nat.shiftRight_eq_div_pow]
    exact (Nat.div_mul_le_self _ _).trans_lt c.isLt
  calc shifts poly k c = shifts poly k ((c &&& BitVec.ofNat w (2 ^ k - 1)) ^^^ ((c >>> k) <<< k)) :=
        congrArg _ hsplit
    _ = _ := by rw [shifts_xor, hhigh]

/-! ### Steps lose nothing -/

section Injective

variable (hpoly : poly.getLsbD (w - 1) = true)
include hpoly

theorem eq_zero_of_shift {c : BitVec w} (h : shift poly c = 0) : c = 0 := by
  have hw : 0 < w := by
    by_contra hw
    rw [BitVec.getLsbD_of_ge poly (w - 1) (by omega)] at hpoly
    exact Bool.false_ne_true hpoly
  rw [shift] at h
  split at h
  · -- The polynomial would show in the highest bit.
    have htop := congrArg (fun x => x.getLsbD (w - 1)) h
    simp only [BitVec.getLsbD_xor, BitVec.getLsbD_ushiftRight, hpoly] at htop
    rw [BitVec.getLsbD_of_ge c _ (by omega)] at htop
    simp at htop
  · next hlow =>
    ext i hi
    rw [← BitVec.getLsbD_eq_getElem]
    cases i with
    | zero => simpa using hlow
    | succ i =>
      have hbit := congrArg (fun x => x.getLsbD i) h
      simpa [Nat.add_comm] using hbit

theorem shift_injective : Function.Injective (shift poly) := by
  intro a b h
  have hxor : shift poly (a ^^^ b) = 0 := by
    rw [shift_xor, h]
    exact BitVec.xor_self
  exact BitVec.xor_eq_zero_iff.1 (eq_zero_of_shift hpoly hxor)

theorem shifts_injective (k : ℕ) : Function.Injective (shifts poly k) := by
  induction k with
  | zero => exact fun _ _ h => h
  | succ k ih => exact fun a b h => shift_injective hpoly (ih h)

/-- Different remainders stay different. -/
theorem bits_injective (l : List Bool) : Function.Injective fun c => bits poly c l := by
  induction l with
  | nil => exact fun _ _ h => h
  | cons b l ih =>
    intro c d h
    exact (BitVec.xor_left_inj _).1 (shift_injective hpoly (ih h))

end Injective

/-! ### Words and bursts -/

@[simp] theorem bits_nil (c : BitVec w) : bits poly c [] = c := rfl

theorem bits_cons (c : BitVec w) (b : Bool) (l : List Bool) :
    bits poly c (b :: l) = bits poly (bit poly c b) l := rfl

theorem bits_append (c : BitVec w) (l₁ l₂ : List Bool) :
    bits poly c (l₁ ++ l₂) = bits poly (bits poly c l₁) l₂ := List.foldl_append

theorem getLsbD_lowest (b : Bool) (i : ℕ) :
    (lowest w b).getLsbD i = (decide (i < w) && decide (i = 0) && b) := by
  rw [lowest, BitVec.getLsbD_setWidth, BitVec.getLsbD_ofBool]
  cases b <;> simp

theorem getLsbD_word (l : List Bool) (i : ℕ) :
    (word w l).getLsbD i = (decide (i < w) && l.getD i false) := by
  induction l generalizing i with
  | nil => simp [word]
  | cons b l ih =>
    rw [word, BitVec.getLsbD_xor, getLsbD_lowest, BitVec.getLsbD_shiftLeft]
    cases i with
    | zero => simp
    | succ i =>
      rw [ih]
      by_cases hi : i + 1 < w
      · simp [hi, show i < w by omega]
      · simp [hi]

theorem word_injective {l l' : List Bool} (hlen : l.length = l'.length) (hw : l.length ≤ w)
    (h : word w l = word w l') : l = l' := by
  refine List.ext_getElem hlen fun i hi hi' => ?_
  have hbit := congrArg (fun x => x.getLsbD i) h
  simpa only [getLsbD_word, show i < w by omega, decide_true, Bool.true_and,
    List.getD_eq_getElem _ _ hi, List.getD_eq_getElem _ _ hi'] using hbit

/-- At most `w` bits are taken as one word. -/
theorem bits_eq {l : List Bool} (hw : l.length ≤ w) (c : BitVec w) :
    bits poly c l = shifts poly l.length (c ^^^ word w l) := by
  induction l generalizing c with
  | nil => exact BitVec.xor_zero.symm
  | cons b l ih =>
    rw [List.length_cons] at hw
    have hdown : shift poly (word w l <<< 1) = word w l := by
      refine shifts_shiftLeft (k := 1) ?_
      have hlt : (word w l).toNat < 2 ^ (w - 1) := by
        refine Nat.lt_pow_two_of_testBit _ fun i hi => ?_
        rw [BitVec.testBit_toNat, getLsbD_word, List.getD_eq_default _ _ (by omega), Bool.and_false]
      have hpow : 2 ^ (w - 1) * 2 = 2 ^ w := by rw [← pow_succ, Nat.sub_add_cancel (by omega)]
      rw [pow_one]
      omega
    rw [bits_cons, ih (by omega), List.length_cons, shifts, word, ← BitVec.xor_assoc, shift_xor,
      hdown, bit]

/-- Two messages that differ within `w` bits at most have the same remainder only if they do not
    differ at all. -/
theorem bits_burst_iff (hpoly : poly.getLsbD (w - 1) = true) (c : BitVec w)
    {a x x' z : List Bool} (hlen : x.length = x'.length) (hw : x.length ≤ w) :
    bits poly c (a ++ x ++ z) = bits poly c (a ++ x' ++ z) ↔ x = x' := by
  refine ⟨fun h => ?_, fun h => h ▸ rfl⟩
  simp only [bits_append] at h
  have hburst := bits_injective hpoly z h
  rw [bits_eq hw, bits_eq (hlen.symm.trans_le hw), hlen] at hburst
  exact word_injective hlen hw ((BitVec.xor_right_inj _).1 (shifts_injective hpoly _ hburst))

end Crc

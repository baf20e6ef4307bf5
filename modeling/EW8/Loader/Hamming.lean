import EW8.Lib.Memory

/-!
# The Hamming code of the NAND pages

The boot loader reads the kernel from NAND pages, which are stored in slabs of 256 bytes with an
ECC of 3 bytes each: two bytes of line parity, for the address of a byte, and one of column
parity, for the bit in it. Each bit of an address stands in a pair of parity bits, of which a
flipped bit of the data changes just one, 11 in all.

A slab with at most two flipped bits is put right, or reported (`verify256_flip`,
`verify256_flip_flip`), and a page that is accepted has the bytes that were written
(`verify256x_eq`).
-/

namespace EW8.Loader

/-- `B2`. -/
def b2 (n : ℕ) : List ℕ := [n, n + 1, n + 1, n + 2]

/-- `B4`. -/
def b4 (n : ℕ) : List ℕ := b2 n ++ b2 (n + 1) ++ b2 (n + 1) ++ b2 (n + 2)

/-- `B6`. -/
def b6 (n : ℕ) : List ℕ := b4 n ++ b4 (n + 1) ++ b4 (n + 1) ++ b4 (n + 2)

/-- `BitsSetTable256`. -/
def bitsSetTable256 : List ℕ := b6 0 ++ b6 1 ++ b6 1 ++ b6 2

/-- `bits_in_byte`. -/
def bitsInByte (byte : UInt8) : ℕ := bitsSetTable256.getD byte.toNat 0

/-- An ECC: `ecc[LP08_15]`, `ecc[LP00_07]` and `ecc[2]`. -/
structure Ecc where
  lp08_15 : UInt8
  lp00_07 : UInt8
  cp : UInt8
  deriving DecidableEq

namespace Ecc

/-- `bits_in_ecc`. -/
def bits (ecc : Ecc) : ℕ := bitsInByte ecc.lp08_15 + bitsInByte ecc.lp00_07 + bitsInByte ecc.cp

/-- The exclusive or, byte by byte. -/
def xor (a b : Ecc) : Ecc := ⟨a.lp08_15 ^^^ b.lp08_15, a.lp00_07 ^^^ b.lp00_07, a.cp ^^^ b.cp⟩

theorem xor_assoc (a b c : Ecc) : (a.xor b).xor c = a.xor (b.xor c) := by
  simp only [xor, UInt8.xor_assoc]

theorem xor_comm (a b : Ecc) : a.xor b = b.xor a := by
  simp only [xor, UInt8.xor_comm]

end Ecc

/-- `has_odd_bits`. -/
def hasOddBits (byte : UInt8) : Bool := bitsInByte byte % 2 = 1

/-- `tbl`, of `compute_ecc_256`. -/
def tbl (n : ℕ) : UInt8 :=
  [0x55, 0x56, 0x59, 0x5a, 0x65, 0x66, 0x69, 0x6a, 0x95, 0x96, 0x99, 0x9a, 0xa5, 0xa6, 0xa9,
    0xaa].getD n 0

/-- The loop body of `compute_ecc_256`, for the byte number `cnt`. -/
def eccStep (data : Bytes 256) (ecc : Ecc) (cnt : Fin 256) : Ecc :=
  let ecc : Ecc :=
    if hasOddBits (data cnt) then
      { ecc with lp00_07 := ecc.lp00_07 ^^^ tbl (cnt % 16)
                 lp08_15 := ecc.lp08_15 ^^^ tbl (cnt / 16) }
    else ecc
  { ecc with cp := ecc.cp ^^^ data cnt }

/-- The parities of a byte under the masks of "Finalize column parity calculation". -/
def columns (cp : UInt8) : UInt8 :=
  ((hasOddBits (cp &&& 0x55)).toUInt8 <<< 2) ||| ((hasOddBits (cp &&& 0xaa)).toUInt8 <<< 3) |||
    ((hasOddBits (cp &&& 0x33)).toUInt8 <<< 4) ||| ((hasOddBits (cp &&& 0xcc)).toUInt8 <<< 5) |||
    ((hasOddBits (cp &&& 0x0f)).toUInt8 <<< 6) ||| ((hasOddBits (cp &&& 0xf0)).toUInt8 <<< 7)

/-- `compute_ecc_256`. -/
def computeEcc256 (data : Bytes 256) : Ecc :=
  let ecc := (List.finRange 256).foldl (eccStep data) ⟨0xff, 0xff, 0xff⟩
  { ecc with cp := ~~~columns ecc.cp }

/-- The bit that `correct_bit_256` flips, from the column parity. -/
def flippedBit (ecc : Ecc) : UInt8 :=
  let cp := ecc.cp
  (cp >>> (5 : UInt8) &&& (0x04 : UInt8)) ||| (cp >>> (4 : UInt8) &&& (0x02 : UInt8)) |||
    (cp >>> (3 : UInt8) &&& (0x01 : UInt8))

/-- The high and the low part of the address of its byte, from the line parity. -/
def flippedHigh (lp : UInt8) : UInt8 :=
  (lp <<< (0 : UInt8) &&& (0x80 : UInt8)) ||| (lp <<< (1 : UInt8) &&& (0x40 : UInt8)) |||
    (lp <<< (2 : UInt8) &&& (0x20 : UInt8)) ||| (lp <<< (3 : UInt8) &&& (0x10 : UInt8))

def flippedLow (lp : UInt8) : UInt8 :=
  (lp >>> (4 : UInt8) &&& (0x08 : UInt8)) ||| (lp >>> (3 : UInt8) &&& (0x04 : UInt8)) |||
    (lp >>> (2 : UInt8) &&& (0x02 : UInt8)) ||| (lp >>> (1 : UInt8) &&& (0x01 : UInt8))

/-- The address. -/
def flippedByte (ecc : Ecc) : UInt8 := flippedHigh ecc.lp08_15 ||| flippedLow ecc.lp00_07

/-- `correct_bit_256`. -/
def correctBit256 (data : Bytes 256) (ecc : Ecc) : Bytes 256 :=
  Function.update data ⟨(flippedByte ecc).toNat, (flippedByte ecc).toNat_lt⟩
    (data ⟨(flippedByte ecc).toNat, (flippedByte ecc).toNat_lt⟩ ^^^ ((1 : UInt8) <<< flippedBit ecc))

/-- What is returned, `Hamming_ERROR_SINGLEBIT` and so on. -/
inductive Verdict
  | fine
  | singleBit
  | ecc
  | multipleBits
  deriving DecidableEq, Repr

/-- 256 bytes, with the ECC that was stored for them. -/
structure Slab where
  data : Bytes 256
  ecc : Ecc

/-- `verify_256`, with the data it leaves. -/
def verify256 (slab : Slab) : Verdict × Bytes 256 :=
  let ecc := (computeEcc256 slab.data).xor slab.ecc
  if ecc.bits = 0 then (.fine, slab.data)
  else if ecc.bits = 11 then (.singleBit, correctBit256 slab.data ecc)
  else if ecc.bits = 1 then (.ecc, slab.data)
  else (.multipleBits, slab.data)

/-- The loop of `Hamming_Verify256x`, over the slabs of a page. -/
def verify256x : Verdict → List Slab → Verdict × List (Bytes 256)
  | result, [] => (result, [])
  | result, slab :: slabs =>
    let error := verify256 slab
    if error.1 = .singleBit then
      let rest := verify256x .singleBit slabs
      (rest.1, error.2 :: rest.2)
    else if error.1 ≠ .fine then (error.1, error.2 :: slabs.map Slab.data)
    else
      let rest := verify256x result slabs
      (rest.1, error.2 :: rest.2)

/-- `Hamming_Verify256x`: of `size` it takes the multiple of 256 that a page has. -/
def hammingVerify256x (slabs : List Slab) : Verdict × List (Bytes 256) := verify256x .fine slabs

/-! ### Flipped bits -/

/-- A bit of a slab, of its data or of its ECC. -/
inductive Flip
  | data (byte : Fin 256) (bit : Fin 8)
  | lp08_15 (bit : Fin 8)
  | lp00_07 (bit : Fin 8)
  | cp (bit : Fin 8)
  deriving DecidableEq

/-- The bit number `b` of a byte. -/
def mask (bit : Fin 8) : UInt8 := (1 : UInt8) <<< UInt8.ofNat bit

/-- The ECC of one bit. -/
def Flip.ecc : Flip → Ecc
  | .data _ _ => ⟨0, 0, 0⟩
  | .lp08_15 bit => ⟨mask bit, 0, 0⟩
  | .lp00_07 bit => ⟨0, mask bit, 0⟩
  | .cp bit => ⟨0, 0, mask bit⟩

/-- The slab with the bit flipped. -/
def Slab.flip (slab : Slab) : Flip → Slab
  | .data byte bit =>
    { slab with data := Function.update slab.data byte (slab.data byte ^^^ mask bit) }
  | x => { slab with ecc := slab.ecc.xor x.ecc }

/-- The slab as it is written: `data`, with its ECC. -/
def Slab.written (data : Bytes 256) : Slab := ⟨data, computeEcc256 data⟩

/-- How a flipped bit shows: the change of the difference between the ECC of the data and the
    one that was stored. -/
def Flip.syndrome : Flip → Ecc
  | .data byte bit => ⟨tbl (byte / 16), tbl (byte % 16), columns (mask bit)⟩
  | x => x.ecc

/-! ### Parities are linear -/

theorem forall_uint8 {p : UInt8 → Prop} (h : ∀ n : Fin 256, p (UInt8.ofNat n)) (b : UInt8) : p b := by
  have hb := h ⟨b.toNat, b.toNat_lt⟩
  rwa [UInt8.ofNat_toNat] at hb

/-- The table counts the bits. -/
theorem hasOddBits_eq (b : UInt8) : hasOddBits b =
    ((List.range 8).map b.toNat.testBit).foldl Bool.xor false := by
  revert b
  exact forall_uint8 (by decide +kernel)

theorem hasOddBits_xor (a b : UInt8) :
    hasOddBits (a ^^^ b) = (hasOddBits a ^^ hasOddBits b) := by
  have hfold : ∀ (l : List ℕ) (x y : Bool),
      (l.map (a ^^^ b).toNat.testBit).foldl Bool.xor (x ^^ y) =
        ((l.map a.toNat.testBit).foldl Bool.xor x ^^ (l.map b.toNat.testBit).foldl Bool.xor y) := by
    intro l
    induction l with
    | nil => exact fun _ _ => rfl
    | cons k l ih =>
      intro x y
      have hbit : (a ^^^ b).toNat.testBit k = (a.toNat.testBit k ^^ b.toNat.testBit k) := by
        rw [UInt8.toNat_xor, Nat.testBit_xor]
      simp only [List.map_cons, List.foldl_cons]
      rw [← ih, hbit]
      congr 1
      cases x <;> cases y <;> cases a.toNat.testBit k <;> cases b.toNat.testBit k <;> rfl
  rw [hasOddBits_eq, hasOddBits_eq, hasOddBits_eq, ← hfold]
  rfl

/-- The bits of the column parity stand side by side. -/
theorem join_xor : ∀ p₂ p₃ p₄ p₅ p₆ p₇ q₂ q₃ q₄ q₅ q₆ q₇ : Bool,
    ((p₂ ^^ q₂).toUInt8 <<< 2) ||| ((p₃ ^^ q₃).toUInt8 <<< 3) ||| ((p₄ ^^ q₄).toUInt8 <<< 4) |||
      ((p₅ ^^ q₅).toUInt8 <<< 5) ||| ((p₆ ^^ q₆).toUInt8 <<< 6) ||| ((p₇ ^^ q₇).toUInt8 <<< 7) =
    ((p₂.toUInt8 <<< 2) ||| (p₃.toUInt8 <<< 3) ||| (p₄.toUInt8 <<< 4) |||
      (p₅.toUInt8 <<< 5) ||| (p₆.toUInt8 <<< 6) ||| (p₇.toUInt8 <<< 7)) ^^^
    ((q₂.toUInt8 <<< 2) ||| (q₃.toUInt8 <<< 3) ||| (q₄.toUInt8 <<< 4) |||
      (q₅.toUInt8 <<< 5) ||| (q₆.toUInt8 <<< 6) ||| (q₇.toUInt8 <<< 7)) := by
  decide +kernel

theorem columns_xor (a b : UInt8) : columns (a ^^^ b) = columns a ^^^ columns b := by
  have hand : ∀ m : UInt8, (a ^^^ b) &&& m = (a &&& m) ^^^ (b &&& m) := fun m =>
    UInt8.toNat_inj.1 (by simp only [UInt8.toNat_and, UInt8.toNat_xor, Nat.and_xor_distrib_right])
  simp only [columns, hand, hasOddBits_xor]
  exact join_xor ..

/-- In an exclusive or of many, one operand changes the whole by its own change. -/
theorem foldl_update {ι α : Type*} (op : α → α → α) (hassoc : ∀ a b c, op (op a b) c = op a (op b c))
    (hcomm : ∀ a b, op a b = op b a) (f f' : ι → α) {x : α} {i : ι} {l : List ι} (hnd : l.Nodup)
    (hi : i ∈ l) (hx : f' i = op (f i) x) (hne : ∀ j, j ≠ i → f' j = f j) (a : α) :
    l.foldl (fun a j => op a (f' j)) a = op (l.foldl (fun a j => op a (f j)) a) x := by
  have hout : ∀ (l : List ι) (a : α), i ∉ l →
      l.foldl (fun a j => op a (f' j)) a = l.foldl (fun a j => op a (f j)) a := fun l a hl =>
    List.foldl_ext _ _ _ fun a j hj => by rw [hne j fun h => hl (h ▸ hj)]
  have hmove : ∀ (l : List ι) (a : α), l.foldl (fun a j => op a (f j)) (op a x) =
      op (l.foldl (fun a j => op a (f j)) a) x := by
    intro l
    induction l with
    | nil => exact fun _ => rfl
    | cons j l ih =>
      intro a
      rw [List.foldl_cons, List.foldl_cons, ← ih, hassoc, hcomm x, ← hassoc]
  induction l generalizing a with
  | nil => exact absurd hi List.not_mem_nil
  | cons j l ih =>
    rw [List.nodup_cons] at hnd
    rw [List.foldl_cons, List.foldl_cons]
    rcases List.mem_cons.1 hi with rfl | hi
    · rw [hout l _ hnd.1, hx, ← hassoc, hmove]
    · rw [hne j fun h => hnd.1 (h ▸ hi), ih hnd.2 hi]

/-! ### Counting the bits -/

/-- What the tables say: a line parity has 4 bits, a column parity 3, a mask 1, and where two of
    them differ, they do in an even number of bits, or an odd one for a mask and a line parity. -/
theorem tables : (∀ n < 16, bitsInByte (tbl n) = 4) ∧
    (∀ b : Fin 8, hasOddBits (mask b) = true ∧ bitsInByte (columns (mask b)) = 3 ∧
      bitsInByte (mask b) = 1) ∧
    (∀ m < 16, ∀ n < 16, bitsInByte (tbl m ^^^ tbl n) % 2 = 0 ∧
      (bitsInByte (tbl m ^^^ tbl n) = 0 → m = n)) ∧
    (∀ b c : Fin 8, bitsInByte (columns (mask b) ^^^ columns (mask c)) % 2 = 0 ∧
      (bitsInByte (columns (mask b) ^^^ columns (mask c)) = 0 → b = c)) ∧
    (∀ n < 16, ∀ b : Fin 8, bitsInByte (tbl n ^^^ mask b) % 2 = 1) ∧
    (∀ b c : Fin 8, bitsInByte (columns (mask b) ^^^ mask c) % 2 = 0) ∧
    (∀ b c : Fin 8, bitsInByte (mask b ^^^ mask c) = if b = c then 0 else 2) ∧
    (∀ n < 16, (flippedHigh (tbl n)).toNat = 16 * n ∧ (flippedLow (tbl n)).toNat = n) ∧
    (∀ b : Fin 8, flippedBit ⟨0, 0, columns (mask b)⟩ = UInt8.ofNat b) := by
  refine ⟨?_, ?_, ?_, ?_, ?_, ?_, ?_, ?_, ?_⟩ <;> decide +kernel

theorem bits_tbl : ∀ n < 16, bitsInByte (tbl n) = 4 := tables.1

theorem mask_odd (bit : Fin 8) : hasOddBits (mask bit) = true := (tables.2.1 bit).1

theorem bits_columns (bit : Fin 8) : bitsInByte (columns (mask bit)) = 3 := (tables.2.1 bit).2.1

theorem bits_mask (bit : Fin 8) : bitsInByte (mask bit) = 1 := (tables.2.1 bit).2.2

theorem bits_tbl_tbl : ∀ m < 16, ∀ n < 16, bitsInByte (tbl m ^^^ tbl n) % 2 = 0 ∧
    (bitsInByte (tbl m ^^^ tbl n) = 0 → m = n) := tables.2.2.1

theorem bits_columns_columns : ∀ b c : Fin 8,
    bitsInByte (columns (mask b) ^^^ columns (mask c)) % 2 = 0 ∧
      (bitsInByte (columns (mask b) ^^^ columns (mask c)) = 0 → b = c) := tables.2.2.2.1

theorem bits_tbl_mask : ∀ n < 16, ∀ b : Fin 8, bitsInByte (tbl n ^^^ mask b) % 2 = 1 :=
  tables.2.2.2.2.1

theorem bits_columns_mask : ∀ b c : Fin 8, bitsInByte (columns (mask b) ^^^ mask c) % 2 = 0 :=
  tables.2.2.2.2.2.1

theorem bits_mask_mask : ∀ b c : Fin 8, bitsInByte (mask b ^^^ mask c) = if b = c then 0 else 2 :=
  tables.2.2.2.2.2.2.1

theorem flippedHigh_tbl (n : ℕ) (h : n < 16) : (flippedHigh (tbl n)).toNat = 16 * n :=
  (tables.2.2.2.2.2.2.2.1 n h).1

theorem flippedLow_tbl (n : ℕ) (h : n < 16) : (flippedLow (tbl n)).toNat = n :=
  (tables.2.2.2.2.2.2.2.1 n h).2

theorem flippedBit_columns (bit : Fin 8) : flippedBit ⟨0, 0, columns (mask bit)⟩ = UInt8.ofNat bit :=
  tables.2.2.2.2.2.2.2.2 bit

/-! ### What a flipped bit changes -/

/-- What the byte number `cnt` adds to the parities. -/
def contribution (byte : UInt8) (cnt : Fin 256) : Ecc :=
  if hasOddBits byte then ⟨tbl (cnt / 16), tbl (cnt % 16), byte⟩ else ⟨0, 0, byte⟩

theorem eccStep_eq (data : Bytes 256) (ecc : Ecc) (cnt : Fin 256) :
    eccStep data ecc cnt = ecc.xor (contribution (data cnt) cnt) := by
  rw [eccStep, contribution]
  split <;> simp [Ecc.xor]

theorem contribution_flip (byte : UInt8) (cnt : Fin 256) (bit : Fin 8) :
    contribution (byte ^^^ mask bit) cnt =
      (contribution byte cnt).xor ⟨tbl (cnt / 16), tbl (cnt % 16), mask bit⟩ := by
  rw [contribution, contribution, hasOddBits_xor, mask_odd]
  cases hasOddBits byte <;> simp [Ecc.xor]

theorem computeEcc256_update (data : Bytes 256) (byte : Fin 256) (bit : Fin 8) :
    computeEcc256 (Function.update data byte (data byte ^^^ mask bit)) =
      (computeEcc256 data).xor (Flip.data byte bit).syndrome := by
  have hfold := foldl_update Ecc.xor Ecc.xor_assoc Ecc.xor_comm
    (fun cnt => contribution (data cnt) cnt)
    (fun cnt => contribution (Function.update data byte (data byte ^^^ mask bit) cnt) cnt)
    (x := ⟨tbl (byte / 16), tbl (byte % 16), mask bit⟩) (List.nodup_finRange 256)
    (List.mem_finRange byte)
    (by simp only [Function.update_self]; exact contribution_flip ..)
    (fun j hj => by simp only [Function.update_of_ne hj]) ⟨0xff, 0xff, 0xff⟩
  have hcompl : ∀ x y : UInt8, ~~~(x ^^^ y) = ~~~x ^^^ y := fun x y => UInt8.not_xor.symm
  have hstep : ∀ d, eccStep d = fun ecc cnt => ecc.xor (contribution (d cnt) cnt) := fun d =>
    funext fun ecc => funext fun cnt => eccStep_eq d ecc cnt
  simp only [computeEcc256, hstep, hfold]
  generalize (List.finRange 256).foldl _ _ = ecc
  simp only [Ecc.xor, columns_xor, hcompl, Flip.syndrome]

/-- The difference of the two ECCs of a slab. -/
def Slab.difference (slab : Slab) : Ecc := (computeEcc256 slab.data).xor slab.ecc

theorem Slab.difference_flip (slab : Slab) (x : Flip) :
    (slab.flip x).difference = slab.difference.xor x.syndrome := by
  cases x with
  | data byte bit =>
    simp only [Slab.difference, Slab.flip, computeEcc256_update]
    rw [Ecc.xor_assoc, Ecc.xor_comm (Flip.syndrome _), ← Ecc.xor_assoc]
  | _ => exact (Ecc.xor_assoc ..).symm

theorem Slab.difference_written (data : Bytes 256) :
    (Slab.written data).difference = ⟨0, 0, 0⟩ := by
  simp [Slab.difference, Slab.written, Ecc.xor]

theorem bits_zero : bitsInByte 0 = 0 := rfl

theorem div_lt_sixteen (byte : Fin 256) : (byte : ℕ) / 16 < 16 := by omega

theorem mod_lt_sixteen (byte : Fin 256) : (byte : ℕ) % 16 < 16 := Nat.mod_lt _ (by decide)

/-- One flipped bit of the data changes 11 parity bits, -/
theorem bits_data (byte : Fin 256) (bit : Fin 8) : (Flip.data byte bit).syndrome.bits = 11 := by
  simp only [Flip.syndrome, Ecc.bits, bits_tbl _ (div_lt_sixteen byte),
    bits_tbl _ (mod_lt_sixteen byte), bits_columns]

/-- and two change an even number of them, but not none; -/
theorem bits_data_data {byte byte' : Fin 256} {bit bit' : Fin 8}
    (h : Flip.data byte bit ≠ Flip.data byte' bit') :
    ((Flip.data byte bit).syndrome.xor (Flip.data byte' bit').syndrome).bits % 2 = 0 ∧
      ((Flip.data byte bit).syndrome.xor (Flip.data byte' bit').syndrome).bits ≠ 0 := by
  obtain ⟨hdiv, hdiv₀⟩ := bits_tbl_tbl _ (div_lt_sixteen byte) _ (div_lt_sixteen byte')
  obtain ⟨hmod, hmod₀⟩ := bits_tbl_tbl _ (mod_lt_sixteen byte) _ (mod_lt_sixteen byte')
  obtain ⟨hcol, hcol₀⟩ := bits_columns_columns bit bit'
  simp only [Flip.syndrome, Ecc.xor, Ecc.bits]
  refine ⟨by omega, fun hzero => h ?_⟩
  have h₁ := hdiv₀ (by omega)
  have h₂ := hmod₀ (by omega)
  rw [hcol₀ (by omega), Fin.ext (show (byte : ℕ) = byte' by omega)]

/-- of the ECC and the data, each flipped bit counts for itself. -/
theorem bits_data_ecc (byte : Fin 256) (bit : Fin 8) {x : Flip}
    (h : ∀ byte bit, x ≠ Flip.data byte bit) :
    ((Flip.data byte bit).syndrome.xor x.syndrome).bits % 2 = 0 ∧
      ((Flip.data byte bit).syndrome.xor x.syndrome).bits ≠ 0 := by
  have hdiv := bits_tbl _ (div_lt_sixteen byte)
  have hmod := bits_tbl _ (mod_lt_sixteen byte)
  have hcol := bits_columns bit
  cases x with
  | data byte' bit' => exact absurd rfl (h byte' bit')
  | lp08_15 b =>
    have := bits_tbl_mask _ (div_lt_sixteen byte) b
    simp only [Flip.syndrome, Flip.ecc, Ecc.xor, Ecc.bits, UInt8.xor_zero]
    omega
  | lp00_07 b =>
    have := bits_tbl_mask _ (mod_lt_sixteen byte) b
    simp only [Flip.syndrome, Flip.ecc, Ecc.xor, Ecc.bits, UInt8.xor_zero]
    omega
  | cp b =>
    have := bits_columns_mask bit b
    simp only [Flip.syndrome, Flip.ecc, Ecc.xor, Ecc.bits, UInt8.xor_zero]
    omega

theorem bits_ecc {x : Flip} (h : ∀ byte bit, x ≠ Flip.data byte bit) : x.syndrome.bits = 1 := by
  cases x with
  | data byte bit => exact absurd rfl (h byte bit)
  | _ => simp only [Flip.syndrome, Flip.ecc, Ecc.bits, bits_mask, bits_zero]

theorem bits_ecc_ecc {x y : Flip} (hne : x ≠ y) (hx : ∀ byte bit, x ≠ Flip.data byte bit)
    (hy : ∀ byte bit, y ≠ Flip.data byte bit) : (x.syndrome.xor y.syndrome).bits = 2 := by
  cases x with
  | data byte bit => exact absurd rfl (hx byte bit)
  | _ b =>
    cases y with
    | data byte bit => exact absurd rfl (hy byte bit)
    | _ c =>
      simp_all [Flip.syndrome, Flip.ecc, Ecc.xor, Ecc.bits, bits_mask, bits_zero, bits_mask_mask]

/-- Two flipped bits are never taken for one, or for none. -/
theorem bits_two {x y : Flip} (hne : x ≠ y) :
    (x.syndrome.xor y.syndrome).bits % 2 = 0 ∧ (x.syndrome.xor y.syndrome).bits ≠ 0 := by
  by_cases hx : ∃ byte bit, x = Flip.data byte bit
  · obtain ⟨byte, bit, rfl⟩ := hx
    by_cases hy : ∃ byte bit, y = Flip.data byte bit
    · obtain ⟨byte', bit', rfl⟩ := hy
      exact bits_data_data hne
    · push Not at hy
      exact bits_data_ecc byte bit hy
  · push Not at hx
    by_cases hy : ∃ byte bit, y = Flip.data byte bit
    · obtain ⟨byte, bit, rfl⟩ := hy
      rw [Ecc.xor_comm]
      exact bits_data_ecc byte bit hx
    · push Not at hy
      rw [bits_ecc_ecc hne hx hy]
      exact ⟨rfl, by decide⟩

/-! ### A slab -/

/-- The parities give the address of the byte. -/
theorem flippedByte_data (byte : Fin 256) (bit : Fin 8) :
    (flippedByte (Flip.data byte bit).syndrome).toNat = byte := by
  have hor : 16 * ((byte : ℕ) / 16) ||| (byte : ℕ) % 16 = byte := by
    have h := Nat.two_pow_add_eq_or_of_lt (i := 4) (mod_lt_sixteen byte) ((byte : ℕ) / 16)
    rw [show (2 : ℕ) ^ 4 = 16 from rfl] at h
    omega
  rw [flippedByte, UInt8.toNat_or, Flip.syndrome, flippedHigh_tbl _ (div_lt_sixteen byte),
    flippedLow_tbl _ (mod_lt_sixteen byte), hor]

theorem correctBit256_data (data : Bytes 256) (byte : Fin 256) (bit : Fin 8) :
    correctBit256 (Function.update data byte (data byte ^^^ mask bit))
      (Flip.data byte bit).syndrome = data := by
  have hbyte : (⟨(flippedByte (Flip.data byte bit).syndrome).toNat,
      (flippedByte (Flip.data byte bit).syndrome).toNat_lt⟩ : Fin 256) = byte :=
    Fin.ext (flippedByte_data byte bit)
  have hbit : flippedBit (Flip.data byte bit).syndrome = UInt8.ofNat bit := flippedBit_columns bit
  rw [correctBit256, hbyte, hbit, Function.update_self, Function.update_idem]
  change Function.update data byte (data byte ^^^ mask bit ^^^ mask bit) = data
  rw [UInt8.xor_assoc, UInt8.xor_self, UInt8.xor_zero, Function.update_eq_self]

/-- The slab written for `data`, when the bits `flips` of it have flipped. -/
def Slab.damaged (data : Bytes 256) (flips : List Flip) : Slab :=
  flips.foldl Slab.flip (Slab.written data)

/-- No bit has flipped, or one of the data. -/
def Correctable (flips : List Flip) : Prop := flips = [] ∨ ∃ byte bit, flips = [.data byte bit]

instance Correctable.decidable : ∀ flips, Decidable (Correctable flips)
  | [] => isTrue (.inl rfl)
  | [.data byte bit] => isTrue (.inr ⟨byte, bit, rfl⟩)
  | [.lp08_15 _] | [.lp00_07 _] | [.cp _] => isFalse fun h => h.elim nofun fun ⟨_, _, h⟩ => nomatch h
  | _ :: _ :: _ => isFalse fun h => h.elim nofun fun ⟨_, _, h⟩ => nomatch h

theorem verify256_written (data : Bytes 256) : verify256 (.written data) = (.fine, data) := by
  have hzero := Slab.difference_written data
  rw [Slab.difference] at hzero
  rw [verify256, hzero]
  rfl

/-- A flipped bit of the data is put right. -/
theorem verify256_data (data : Bytes 256) (byte : Fin 256) (bit : Fin 8) :
    verify256 ((Slab.written data).flip (.data byte bit)) = (.singleBit, data) := by
  have hdiff := (Slab.written data).difference_flip (.data byte bit)
  have hzero : ∀ e : Ecc, Ecc.xor ⟨0, 0, 0⟩ e = e := fun e => by simp [Ecc.xor]
  rw [Slab.difference_written, hzero, Slab.difference] at hdiff
  rw [verify256, hdiff, bits_data]
  simp only [if_neg (show (11 : ℕ) ≠ 0 by decide), if_true]
  exact congrArg _ (correctBit256_data data byte bit)

/-- A slab with up to two flipped bits that is not correctable is reported. -/
theorem verify256_damaged (data : Bytes 256) {flips : List Flip} (hnd : flips.Nodup)
    (hlen : flips.length ≤ 2) (h : ¬Correctable flips) :
    (verify256 (.damaged data flips)).1 = .ecc ∨
      (verify256 (.damaged data flips)).1 = .multipleBits := by
  have hzero : ∀ e : Ecc, Ecc.xor ⟨0, 0, 0⟩ e = e := fun e => by simp [Ecc.xor]
  match flips with
  | [] => exact absurd (.inl rfl) h
  | [x] =>
    have hx : ∀ byte bit, x ≠ .data byte bit := fun byte bit hx => h (.inr ⟨byte, bit, by rw [hx]⟩)
    have hdiff := (Slab.written data).difference_flip x
    rw [Slab.difference_written, hzero, Slab.difference] at hdiff
    rw [Slab.damaged, List.foldl_cons, List.foldl_nil, verify256, hdiff, bits_ecc hx]
    exact .inl rfl
  | [x, y] =>
    have hne : x ≠ y := fun hxy => by simp [hxy] at hnd
    have hdiff := ((Slab.written data).flip x).difference_flip y
    rw [(Slab.written data).difference_flip x, Slab.difference_written, hzero,
      Slab.difference] at hdiff
    obtain ⟨heven, hpos⟩ := bits_two hne
    rw [Slab.damaged, List.foldl_cons, List.foldl_cons, List.foldl_nil, verify256, hdiff,
      if_neg hpos, if_neg (by omega), if_neg (by omega)]
    exact .inr rfl
  | _ :: _ :: _ :: _ => simp at hlen

/-! ### A page -/

/-- What `nand_read_page` makes of the slabs of a page: the page, where it returns 0. -/
def nandReadPage (slabs : List Slab) : Option (List (Bytes 256)) :=
  let error := hammingVerify256x slabs
  if error.1 ≠ .fine ∧ error.1 ≠ .singleBit then none else some error.2

theorem verify256x_of_correctable {page : List (Bytes 256 × List Flip)}
    (h : ∀ x ∈ page, Correctable x.2) (result : Verdict) :
    (verify256x result (page.map fun x => .damaged x.1 x.2)).2 = page.map Prod.fst ∧
      ((verify256x result (page.map fun x => .damaged x.1 x.2)).1 = result ∨
        (verify256x result (page.map fun x => .damaged x.1 x.2)).1 = .singleBit) := by
  induction page generalizing result with
  | nil => exact ⟨rfl, .inl rfl⟩
  | cons x page ih =>
    have hrest := ih fun y hy => h y (List.mem_cons_of_mem x hy)
    rw [List.map_cons, List.map_cons, verify256x]
    rcases h x List.mem_cons_self with hx | ⟨byte, bit, hx⟩
    · simp only [hx, Slab.damaged, List.foldl_nil, verify256_written, reduceCtorEq, if_false, ne_eq,
        not_true]
      exact ⟨congrArg _ (hrest result).1, (hrest result).2⟩
    · simp only [hx, Slab.damaged, List.foldl_cons, List.foldl_nil, verify256_data, if_true]
      refine ⟨congrArg _ (hrest .singleBit).1, .inr ?_⟩
      exact (hrest .singleBit).2.elim id id

theorem verify256x_of_not_correctable {page : List (Bytes 256 × List Flip)}
    (hflips : ∀ x ∈ page, x.2.Nodup ∧ x.2.length ≤ 2) (h : ∃ x ∈ page, ¬Correctable x.2)
    (result : Verdict) :
    (verify256x result (page.map fun x => .damaged x.1 x.2)).1 = .ecc ∨
      (verify256x result (page.map fun x => .damaged x.1 x.2)).1 = .multipleBits := by
  induction page generalizing result with
  | nil =>
    obtain ⟨x, hx, -⟩ := h
    exact absurd hx List.not_mem_nil
  | cons x page ih =>
    have hrest := fun hbad => ih (fun y hy => hflips y (List.mem_cons_of_mem x hy)) hbad
    obtain ⟨hnd, hlen⟩ := hflips x List.mem_cons_self
    rw [List.map_cons, verify256x]
    by_cases hx : Correctable x.2
    · have hbad : ∃ y ∈ page, ¬Correctable y.2 := by
        obtain ⟨y, hy, hbad⟩ := h
        rcases List.mem_cons.1 hy with rfl | hy
        · exact absurd hx hbad
        · exact ⟨y, hy, hbad⟩
      rcases hx with hx | ⟨byte, bit, hx⟩
      · simp only [hx, Slab.damaged, List.foldl_nil, verify256_written, reduceCtorEq, if_false,
          ne_eq, not_true]
        exact hrest hbad result
      · simp only [hx, Slab.damaged, List.foldl_cons, List.foldl_nil, verify256_data, if_true]
        exact hrest hbad .singleBit
    · -- The first slab that cannot be put right ends the loop.
      have herror := verify256_damaged x.1 hnd hlen hx
      have h₁ : (verify256 (.damaged x.1 x.2)).1 ≠ .singleBit := by
        rcases herror with herror | herror <;> rw [herror] <;> exact nofun
      have h₂ : (verify256 (.damaged x.1 x.2)).1 ≠ .fine := by
        rcases herror with herror | herror <;> rw [herror] <;> exact nofun
      rw [if_neg h₁, if_pos h₂]
      exact herror

/-- Of a page with up to two flipped bits in each slab, the bytes written are read, or nothing:
    they are just if no bit of an ECC and no second one has flipped. -/
theorem nandReadPage_eq {page : List (Bytes 256 × List Flip)}
    (hflips : ∀ x ∈ page, x.2.Nodup ∧ x.2.length ≤ 2) :
    nandReadPage (page.map fun x => .damaged x.1 x.2) =
      if ∀ x ∈ page, Correctable x.2 then some (page.map Prod.fst) else none := by
  rw [nandReadPage, hammingVerify256x]
  split_ifs with hbad hall hall
  · rcases (verify256x_of_correctable hall .fine).2 with h | h <;> simp [h] at hbad
  · rfl
  · rw [(verify256x_of_correctable hall .fine).1]
  · push Not at hall
    rcases verify256x_of_not_correctable hflips hall .fine with h | h <;> simp [h] at hbad

/-- A bit of the first slab flips, and none of the second. -/
theorem nandReadPage_data :
    nandReadPage [.damaged (fun _ => 7) [.data 3 1], .damaged (fun _ => 0) []] =
      some [fun _ => 7, fun _ => 0] := by
  have hpage := @nandReadPage_eq [(fun _ => 7, [.data 3 1]), (fun _ => 0, [])] (by simp)
  rwa [if_pos (by simp [Correctable])] at hpage

end EW8.Loader

import Mathlib

/-!
# SHA-256

The hash by which the image of an update, its chunks and its control file are checked. A
`SHA256` object takes bytes in pieces of any length, and its hash is that of all of them:
here it is a function of the bytes, `sha256`. `processBlock` takes one block of 64 bytes,
and `processBuffer` pads what is left at the end.

`str2hash` reads a hash from the hexadecimal digits that a user gives.
-/

namespace EW8.Update

/-- `SHA2Store`: the bytes of a hash. -/
abbrev SHA2Store := Vector UInt8 32

namespace SHA256

/-- `m_hash`: the words of a hash. -/
structure Words where
  a : UInt32
  b : UInt32
  c : UInt32
  d : UInt32
  e : UInt32
  f : UInt32
  g : UInt32
  h : UInt32

/-- `reset`. -/
def reset : Words :=
  ⟨0x6a09e667, 0xbb67ae85, 0x3c6ef372, 0xa54ff53a, 0x510e527f, 0x9b05688c, 0x1f83d9ab, 0x5be0cd19⟩

/-- The constants of the 64 lines of `processBlock`. -/
def constants : List UInt32 := [
  0x428a2f98, 0x71374491, 0xb5c0fbcf, 0xe9b5dba5, 0x3956c25b, 0x59f111f1, 0x923f82a4, 0xab1c5ed5,
  0xd807aa98, 0x12835b01, 0x243185be, 0x550c7dc3, 0x72be5d74, 0x80deb1fe, 0x9bdc06a7, 0xc19bf174,
  0xe49b69c1, 0xefbe4786, 0x0fc19dc6, 0x240ca1cc, 0x2de92c6f, 0x4a7484aa, 0x5cb0a9dc, 0x76f988da,
  0x983e5152, 0xa831c66d, 0xb00327c8, 0xbf597fc7, 0xc6e00bf3, 0xd5a79147, 0x06ca6351, 0x14292967,
  0x27b70a85, 0x2e1b2138, 0x4d2c6dfc, 0x53380d13, 0x650a7354, 0x766a0abb, 0x81c2c92e, 0x92722c85,
  0xa2bfe8a1, 0xa81a664b, 0xc24b8b70, 0xc76c51a3, 0xd192e819, 0xd6990624, 0xf40e3585, 0x106aa070,
  0x19a4c116, 0x1e376c08, 0x2748774c, 0x34b0bcb5, 0x391c0cb3, 0x4ed8aa4a, 0x5b9cca4f, 0x682e6ff3,
  0x748f82ee, 0x78a5636f, 0x84c87814, 0x8cc70208, 0x90befffa, 0xa4506ceb, 0xbef9a3f7, 0xc67178f2]

/-- `rotate`. -/
def rotate (a c : UInt32) : UInt32 := (a >>> c) ||| (a <<< (32 - c))

/-- `f1`. -/
def f1 (e f g : UInt32) : UInt32 :=
  (rotate e 6 ^^^ rotate e 11 ^^^ rotate e 25) + ((e &&& f) ^^^ (~~~e &&& g))

/-- `f2`. -/
def f2 (a b c : UInt32) : UInt32 :=
  (rotate a 2 ^^^ rotate a 13 ^^^ rotate a 22) + (((a ||| b) &&& c) ||| (a &&& b))

/-- A line of `processBlock`, that renames the words where this moves them. -/
def Words.line (s : Words) (constant word : UInt32) : Words :=
  let x := s.h + f1 s.e s.f s.g + constant + word
  let y := f2 s.a s.b s.c
  ⟨x + y, s.a, s.b, s.c, s.d + x, s.e, s.f, s.g⟩

/-- "extend to 24 words" and so on: `n` more words, the latest first. -/
def extend : ℕ → List UInt32 → List UInt32
  | 0, words => words
  | n + 1, words =>
    let w15 := words.getD 14 0
    let w2 := words.getD 1 0
    let word := words.getD 15 0 + (rotate w15 7 ^^^ rotate w15 18 ^^^ (w15 >>> 3)) +
      words.getD 6 0 + (rotate w2 17 ^^^ rotate w2 19 ^^^ (w2 >>> 10))
    extend n (word :: words)

/-- The big-endian word of four bytes. -/
def wordOf (b : List UInt8) : UInt32 :=
  b.foldl (fun word byte => (word <<< 8) ||| byte.toUInt32) 0

/-- The words of a block. -/
def inputWords (data : List UInt8) : List UInt32 :=
  (List.range 16).map fun i => wordOf ((data.drop (4 * i)).take 4)

/-- `processBlock`. -/
def Words.processBlock (s : Words) (data : List UInt8) : Words :=
  let words := (extend 48 (inputWords data).reverse).reverse
  let t := (constants.zip words).foldl (fun t kw => t.line kw.1 kw.2) s
  ⟨s.a + t.a, s.b + t.b, s.c + t.c, s.d + t.d, s.e + t.e, s.f + t.f, s.g + t.g, s.h + t.h⟩

/-- The blocks of `add`, one after the other; `n` is their number. -/
def Words.processBlocks : ℕ → Words → List UInt8 → Words
  | 0, s, _ => s
  | n + 1, s, data => processBlocks n (s.processBlock (data.take 64)) (data.drop 64)

/-- What `processBuffer` adds to `len` bytes: a bit, zeros, and the number of bits. -/
def padding (len : ℕ) : List UInt8 :=
  128 :: List.replicate ((119 - len % 64) % 64) 0 ++
    (List.range 8).map fun i => UInt8.ofNat (8 * len / 2 ^ (8 * (7 - i)))

/-- The bytes of the words, in `getHash`. -/
def Words.bytes (s : Words) : List UInt8 :=
  [s.a, s.b, s.c, s.d, s.e, s.f, s.g, s.h].flatMap fun word : UInt32 =>
    [(word >>> 24).toUInt8, (word >>> 16).toUInt8, (word >>> 8).toUInt8, word.toUInt8]

theorem Words.length_bytes (s : Words) : s.bytes.length = 32 := rfl

end SHA256

open SHA256 in
/-- The hash of `data`: `add`, in one piece or several, and `getHash`. -/
def sha256 (data : List UInt8) : SHA2Store :=
  let padded := data ++ padding data.length
  let words := reset.processBlocks (padded.length / 64) padded
  ⟨words.bytes.toArray, words.length_bytes⟩

/-- `ascii2hex`. -/
def ascii2hex (a : Char) : ℕ :=
  if '0' ≤ a ∧ a ≤ '9' then a.toNat - '0'.toNat
  else if 'A' ≤ a ∧ a ≤ 'F' then 10 + (a.toNat - 'A'.toNat)
  else if 'a' ≤ a ∧ a ≤ 'f' then 10 + (a.toNat - 'a'.toNat)
  else 0

/-- `str2hash`: the bytes of a string of at least 64 digits. -/
def str2hash (str : List Char) : SHA2Store :=
  Vector.ofFn fun i =>
    UInt8.ofNat (16 * ascii2hex (str.getD (2 * i) '0') + ascii2hex (str.getD (2 * i + 1) '0'))

end EW8.Update

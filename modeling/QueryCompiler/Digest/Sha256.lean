import QueryCompiler.Text.Hex

/-!
# SHA-256

The digest has 256 bits. The text is padded to whole blocks of 64 octets, every block is expanded
to 64 words, and 64 rounds mix them into eight words of state.
-/

namespace QueryCompiler.Sha256

/-- The eight words of the chaining value. -/
structure State where
  /-- First word. -/
  a : UInt32
  /-- Second word. -/
  b : UInt32
  /-- Third word. -/
  c : UInt32
  /-- Fourth word. -/
  d : UInt32
  /-- Fifth word. -/
  e : UInt32
  /-- Sixth word. -/
  f : UInt32
  /-- Seventh word. -/
  g : UInt32
  /-- Eighth word. -/
  h : UInt32
  deriving DecidableEq

/-- The chaining value before the first block. -/
def State.initial : State :=
  ⟨0x6a09e667, 0xbb67ae85, 0x3c6ef372, 0xa54ff53a, 0x510e527f, 0x9b05688c, 0x1f83d9ab, 0x5be0cd19⟩

/-- The constant words of the 64 rounds. -/
def roundConstants : List UInt32 :=
  [0x428a2f98, 0x71374491, 0xb5c0fbcf, 0xe9b5dba5, 0x3956c25b, 0x59f111f1, 0x923f82a4, 0xab1c5ed5,
   0xd807aa98, 0x12835b01, 0x243185be, 0x550c7dc3, 0x72be5d74, 0x80deb1fe, 0x9bdc06a7, 0xc19bf174,
   0xe49b69c1, 0xefbe4786, 0x0fc19dc6, 0x240ca1cc, 0x2de92c6f, 0x4a7484aa, 0x5cb0a9dc, 0x76f988da,
   0x983e5152, 0xa831c66d, 0xb00327c8, 0xbf597fc7, 0xc6e00bf3, 0xd5a79147, 0x06ca6351, 0x14292967,
   0x27b70a85, 0x2e1b2138, 0x4d2c6dfc, 0x53380d13, 0x650a7354, 0x766a0abb, 0x81c2c92e, 0x92722c85,
   0xa2bfe8a1, 0xa81a664b, 0xc24b8b70, 0xc76c51a3, 0xd192e819, 0xd6990624, 0xf40e3585, 0x106aa070,
   0x19a4c116, 0x1e376c08, 0x2748774c, 0x34b0bcb5, 0x391c0cb3, 0x4ed8aa4a, 0x5b9cca4f, 0x682e6ff3,
   0x748f82ee, 0x78a5636f, 0x84c87814, 0x8cc70208, 0x90befffa, 0xa4506ceb, 0xbef9a3f7, 0xc67178f2]

/-- The word turned right by `n` bits. -/
def rotateRight (x n : UInt32) : UInt32 := (x >>> n) ||| (x <<< (32 - n))

/-- The words that octets spell, four octets a word, the highest first. -/
def words : Text → List UInt32
  | a :: b :: c :: d :: rest =>
    ((a.toUInt32 <<< 24) ||| (b.toUInt32 <<< 16) ||| (c.toUInt32 <<< 8) ||| d.toUInt32) :: words rest
  | _ => []

/-- The octets of a number in eight places, the highest first. -/
def octets8 (n : Nat) : Text := (List.range 8).map fun i => (n >>> (8 * (7 - i))).toUInt8

/-- The text, one set bit, zeros, and the number of bits, in whole blocks. -/
def pad (t : Text) : Text :=
  t ++ 0x80 :: (List.replicate ((119 - t.length % 64) % 64) 0 ++ octets8 (8 * t.length))

/-- The schedule with one word more. -/
def extendSchedule (w : Array UInt32) (i : Nat) : Array UInt32 :=
  let x := w.getD (i - 15) 0
  let y := w.getD (i - 2) 0
  let s0 := rotateRight x 7 ^^^ rotateRight x 18 ^^^ (x >>> 3)
  let s1 := rotateRight y 17 ^^^ rotateRight y 19 ^^^ (y >>> 10)
  w.push (w.getD (i - 16) 0 + s0 + w.getD (i - 7) 0 + s1)

/-- The 64 words of a block of 16 words. -/
def schedule (block : List UInt32) : Array UInt32 :=
  (List.range' 16 48).foldl extendSchedule block.toArray

/-- One round, with the sum of its constant and its word of the schedule. -/
def round (s : State) (input : UInt32) : State :=
  let s1 := rotateRight s.e 6 ^^^ rotateRight s.e 11 ^^^ rotateRight s.e 25
  let choice := (s.e &&& s.f) ^^^ ((~~~ s.e) &&& s.g)
  let t1 := s.h + s1 + choice + input
  let s0 := rotateRight s.a 2 ^^^ rotateRight s.a 13 ^^^ rotateRight s.a 22
  let majority := (s.a &&& s.b) ^^^ (s.a &&& s.c) ^^^ (s.b &&& s.c)
  ⟨t1 + (s0 + majority), s.a, s.b, s.c, s.d + t1, s.e, s.f, s.g⟩

/-- The chaining value after one more block. -/
def compress (s : State) (block : List UInt32) : State :=
  let r := (List.zipWith (· + ·) roundConstants (schedule block).toList).foldl round s
  ⟨s.a + r.a, s.b + r.b, s.c + r.c, s.d + r.d, s.e + r.e, s.f + r.f, s.g + r.g, s.h + r.h⟩

/-- The chaining value after all blocks of a padded text. -/
def absorb (s : State) : Text → State
  | [] => s
  | c :: rest => absorb (compress s (words ((c :: rest).take 64))) (rest.drop 63)
termination_by t => t.length
decreasing_by simp only [List.length_drop, List.length_cons]; omega

/-- The octets of a word, the highest first. -/
def octets4 (w : UInt32) : Text :=
  [(w >>> 24).toUInt8, (w >>> 16).toUInt8, (w >>> 8).toUInt8, w.toUInt8]

/-- The 32 octets of the digest. -/
def digest (t : Text) : Text :=
  let s := absorb State.initial (pad t)
  [s.a, s.b, s.c, s.d, s.e, s.f, s.g, s.h].flatMap octets4

/-- The digest in lowercase hexadecimal. -/
def hexDigest (t : Text) : Text := (digest t).hex

end QueryCompiler.Sha256

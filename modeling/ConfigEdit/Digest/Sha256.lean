import ConfigEdit.Text.Digits

/-!
# SHA-256 digests

A message is padded to whole blocks of sixteen words.  Each block is mixed
into a state of eight words in sixty-four rounds; a round takes one word of the
block's schedule, which a window of sixteen words runs over.
-/

namespace ConfigEdit.Sha256

/-- The eight words that a digest is made of. -/
structure State where
  a : UInt32
  b : UInt32
  c : UInt32
  d : UInt32
  e : UInt32
  f : UInt32
  g : UInt32
  h : UInt32

/-- The fractions of the square roots of the first eight primes. -/
def initial : State :=
  ⟨0x6a09e667, 0xbb67ae85, 0x3c6ef372, 0xa54ff53a,
    0x510e527f, 0x9b05688c, 0x1f83d9ab, 0x5be0cd19⟩

/-- The fractions of the cube roots of the first sixty-four primes. -/
def roundConstants : List UInt32 :=
  [0x428a2f98, 0x71374491, 0xb5c0fbcf, 0xe9b5dba5, 0x3956c25b,
    0x59f111f1, 0x923f82a4,
    0xab1c5ed5, 0xd807aa98, 0x12835b01, 0x243185be, 0x550c7dc3,
    0x72be5d74, 0x80deb1fe,
    0x9bdc06a7, 0xc19bf174, 0xe49b69c1, 0xefbe4786, 0x0fc19dc6,
    0x240ca1cc, 0x2de92c6f,
    0x4a7484aa, 0x5cb0a9dc, 0x76f988da, 0x983e5152, 0xa831c66d,
    0xb00327c8, 0xbf597fc7,
    0xc6e00bf3, 0xd5a79147, 0x06ca6351, 0x14292967, 0x27b70a85,
    0x2e1b2138, 0x4d2c6dfc,
    0x53380d13, 0x650a7354, 0x766a0abb, 0x81c2c92e, 0x92722c85,
    0xa2bfe8a1, 0xa81a664b,
    0xc24b8b70, 0xc76c51a3, 0xd192e819, 0xd6990624, 0xf40e3585,
    0x106aa070, 0x19a4c116,
    0x1e376c08, 0x2748774c, 0x34b0bcb5, 0x391c0cb3, 0x4ed8aa4a,
    0x5b9cca4f, 0x682e6ff3,
    0x748f82ee, 0x78a5636f, 0x84c87814, 0x8cc70208, 0x90befffa,
    0xa4506ceb, 0xbef9a3f7,
    0xc67178f2]

/-- A word with its bits moved round to the right. -/
def rotate (word amount : UInt32) : UInt32 :=
  (word >>> amount) ||| (word <<< (32 - amount))

/-- The word of the schedule that follows a window of sixteen. -/
def nextWord (window : List UInt32) : UInt32 :=
  let early := window.getD 1 0
  let late := window.getD 14 0
  let mixedEarly := rotate early 7 ^^^ rotate early 18 ^^^ (early >>> 3)
  let mixedLate := rotate late 17 ^^^ rotate late 19 ^^^ (late >>> 10)
  window.getD 0 0 + mixedEarly + window.getD 9 0 + mixedLate

/-- The state after a round. -/
def round (constant word : UInt32) (state : State) : State :=
  let mixedE := rotate state.e 6 ^^^ rotate state.e 11 ^^^ rotate state.e 25
  let choice := (state.e &&& state.f) ^^^ (~~~state.e &&& state.g)
  let mixedA := rotate state.a 2 ^^^ rotate state.a 13 ^^^ rotate state.a 22
  let majority :=
    (state.a &&& state.b) ^^^ (state.a &&& state.c) ^^^ (state.b &&& state.c)
  let step := state.h + mixedE + choice + constant + word
  ⟨step + mixedA + majority, state.a, state.b, state.c,
    state.d + step, state.e, state.f, state.g⟩

/-- The state after a round for each constant. -/
def rounds : (constants window : List UInt32) → State → State
  | [], _, state => state
  | constant :: constants, window, state =>
      rounds constants (window.drop 1 ++ [nextWord window])
        (round constant (window.getD 0 0) state)

/-- The state with a block of sixteen words mixed into it. -/
def absorb (state : State) (block : List UInt32) : State :=
  let mixed := rounds roundConstants block state
  ⟨state.a + mixed.a, state.b + mixed.b, state.c + mixed.c, state.d + mixed.d,
    state.e + mixed.e, state.f + mixed.f, state.g + mixed.g, state.h + mixed.h⟩

/-- A number in `count` bytes, the first of which weighs most. -/
def bigEndian : (count value : Nat) → List UInt8
  | 0, _ => []
  | count + 1, value => bigEndian count (value / 256) ++ [UInt8.ofNat value]

/-- A message with a bit behind it, zeros up to whole blocks, and the number of
its bits. -/
def pad (message : List UInt8) : List UInt8 :=
  message ++ 0x80 :: List.replicate ((119 - message.length % 64) % 64) 0 ++
    bigEndian 8 (8 * message.length)

/-- Bytes in words of four. -/
def words : List UInt8 → List UInt32
  | first :: second :: third :: fourth :: rest =>
      ((first.toUInt32 <<< 24) ||| (second.toUInt32 <<< 16) |||
        (third.toUInt32 <<< 8) ||| fourth.toUInt32) :: words rest
  | _ => []

/-- The state with a number of blocks mixed into it. -/
def absorbBlocks : (count : Nat) → List UInt32 → State → State
  | 0, _, state => state
  | count + 1, message, state =>
      absorbBlocks count (message.drop 16) (absorb state (message.take 16))

/-- The words of the digest of a message. -/
def digest (message : List UInt8) : State :=
  let padded := words (pad message)
  absorbBlocks (padded.length / 16) padded initial

/-- The digest of bytes in hexadecimal digits. -/
def hexDigest (bytes : ByteArray) : Text :=
  let state := digest bytes.data.toList
  [state.a, state.b, state.c, state.d, state.e, state.f, state.g,
    state.h].flatMap fun word => fixedDigits 16 8 word.toNat

end ConfigEdit.Sha256

import Chip8.Word

/-! The source of random bytes: a ChaCha keystream of twelve rounds, with the key drawn from a seed.
Word `k` of the stream is a function of the key and `k` alone, so a stream is a key and the number
of words taken from it. -/

namespace Chip8

namespace Random

abbrev Key := Vector UInt32 8

abbrev Block := Vector UInt32 16

def rotateLeft (a : UInt32) (k : UInt32) : UInt32 := (a <<< k) ||| (a >>> (32 - k))

def quarterRound (s : Block) (a b c d : Fin 16) : Block :=
  let s := s.set a (s[a] + s[b])
  let s := s.set d (rotateLeft (s[d] ^^^ s[a]) 16)
  let s := s.set c (s[c] + s[d])
  let s := s.set b (rotateLeft (s[b] ^^^ s[c]) 12)
  let s := s.set a (s[a] + s[b])
  let s := s.set d (rotateLeft (s[d] ^^^ s[a]) 8)
  let s := s.set c (s[c] + s[d])
  s.set b (rotateLeft (s[b] ^^^ s[c]) 7)

def doubleRound (s : Block) : Block :=
  let s := quarterRound s 0 4 8 12
  let s := quarterRound s 1 5 9 13
  let s := quarterRound s 2 6 10 14
  let s := quarterRound s 3 7 11 15
  let s := quarterRound s 0 5 10 15
  let s := quarterRound s 1 6 11 12
  let s := quarterRound s 2 7 8 13
  quarterRound s 3 4 9 14

def doubleRounds : Nat → Block → Block
  | 0, s => s
  | n + 1, s => doubleRounds n (doubleRound s)

/-- The words of "expand 32-byte k". -/
def constants : Vector UInt32 4 := #v[0x61707865, 0x3320646e, 0x79622d32, 0x6b206574]

/-- Constants, key, a counter of blocks with its low word first, and two words of zero. -/
def input (key : Key) (counter : UInt64) : Block :=
  constants ++ key ++ #v[counter.toUInt32, (counter >>> 32).toUInt32, 0, 0]

def block (key : Key) (counter : UInt64) : Block :=
  let start := input key counter
  Vector.zipWith (· + ·) (doubleRounds 6 start) start

/-- Known answer: the first block under the key of zeros. -/
example : block (Vector.replicate 8 0) 0 =
    #v[0x6a9af49b, 0x53f95507, 0x12ce1f81, 0xd583265f,
      0xbbc32904, 0x1474e049, 0xa589007e, 0x5f15ae2e,
      0x79f86405, 0xc0e37ad2, 0x3428e82c, 0x798cfaac,
      0x2c9f623a, 0x1969dea0, 0x2fe80b61, 0xbe261341] := by
  decide +kernel

def advance (state : UInt64) : UInt64 := state * 6364136223846793005 + 11634580027462260723

def fold (state : UInt64) : UInt32 :=
  let x := (((state >>> 18) ^^^ state) >>> 27).toUInt32
  let r := (state >>> 59).toUInt32
  (x >>> r) ||| (x <<< ((32 - r) &&& 31))

def advances : Nat → UInt64 → UInt64
  | 0, state => state
  | n + 1, state => advances n (advance state)

def keyOfSeed (seed : UInt64) : Key :=
  Vector.ofFn fun k => fold (advances (k.val + 1) seed)

/-- Known answer: the key that the seed 7 is spread over. -/
theorem keyOfSeed_seven : keyOfSeed 7 =
    #v[0x3b400cc8, 0x096c20d0, 0x6f3ba637, 0x1e254ff2,
      0x1b2fbb3c, 0x5a5684b3, 0x1566a09a, 0x3f201b0d] := by
  decide +kernel

/-- Known answer: the first sixteen words drawn under the seed 7. -/
theorem block_seven : block (keyOfSeed 7) 0 =
    #v[0x6aa8fbbe, 0x07c2e0e9, 0x247e5f86, 0x4e9d34e8,
      0x0f8bbccd, 0x24843246, 0xa6dfa099, 0x8ae26805,
      0x9e6221b6, 0x45c261ad, 0xbcb06be0, 0xf37d574f,
      0x9897f4d2, 0x2ceb0dab, 0xbe5ade8a, 0x41bb69a0] := by
  rw [keyOfSeed_seven]
  decide +kernel

end Random

structure Keystream where
  key : Random.Key
  taken : Nat := 0
  deriving DecidableEq, Repr

namespace Keystream

def word (s : Keystream) (k : Nat) : UInt32 :=
  (Random.block s.key (UInt64.ofNat (k / 16)))[Fin.ofNat 16 k]

def byte (s : Keystream) : Byte := (s.word s.taken).toUInt8

def next (s : Keystream) : Keystream := { s with taken := s.taken + 1 }

end Keystream

end Chip8

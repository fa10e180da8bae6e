/-! Sixteen-bit words and their operand fields. A word is four digits `T X Y N`; its low byte is
`NN` and its low twelve bits are the address `NNN`. -/

namespace Chip8

abbrev Byte := UInt8
abbrev Word := UInt16
abbrev Digit := Fin 16
abbrev ShortAddress := Fin 4096

-- numerals and remainders of both take these, wherever they are written
instance Digit.neZero : @NeZero Nat Zero.ofOfNat0 16 := ⟨by decide⟩

instance ShortAddress.neZero : @NeZero Nat Zero.ofOfNat0 4096 := ⟨by decide⟩

namespace Word

def ofBytes (high low : Byte) : Word := UInt16.ofNat (256 * high.toNat + low.toNat)

def high (w : Word) : Byte := UInt8.ofNat (w.toNat / 256)

def low (w : Word) : Byte := UInt8.ofNat (w.toNat % 256)

def t (w : Word) : Digit := Fin.ofNat 16 (w.toNat / 4096)

def x (w : Word) : Digit := Fin.ofNat 16 (w.toNat / 256)

def y (w : Word) : Digit := Fin.ofNat 16 (w.toNat / 16)

def n (w : Word) : Digit := Fin.ofNat 16 w.toNat

def address (w : Word) : ShortAddress := Fin.ofNat 4096 w.toNat

def at? (bytes : Array Byte) (cursor : Nat) : Option Word := do
  let high ← bytes[cursor]?
  let low ← bytes[cursor + 1]?
  return ofBytes high low

theorem toNat_ofBytes (high low : Byte) :
    (ofBytes high low).toNat = 256 * high.toNat + low.toNat := by
  have h := high.toNat_lt
  have l := low.toNat_lt
  simp only [ofBytes, UInt16.toNat_ofNat']
  omega

theorem high_ofBytes (high low : Byte) : (ofBytes high low).high = high := by
  have l := low.toNat_lt
  have h : (256 * high.toNat + low.toNat) / 256 = high.toNat := by omega
  simp [Word.high, toNat_ofBytes, h]

theorem low_ofBytes (high low : Byte) : (ofBytes high low).low = low := by
  have l := low.toNat_lt
  have h : (256 * high.toNat + low.toNat) % 256 = low.toNat := by omega
  simp [Word.low, toNat_ofBytes, h]

theorem ofBytes_high_low (w : Word) : ofBytes w.high w.low = w := by
  have hw := w.toNat_lt
  refine UInt16.toNat_inj.1 ?_
  simp only [toNat_ofBytes, Word.high, Word.low, UInt8.toNat_ofNat']
  omega

end Word

end Chip8

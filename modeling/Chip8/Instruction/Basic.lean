import Chip8.Word

/-! The instructions and the words that stand for them. `Instruction.word` writes an instruction,
`Instruction.ofWord?` reads one; a word that no instruction is written as is read as nothing. -/

namespace Chip8

inductive Alu where
  | copy | or | and | xor | add | sub | shiftRight | subFrom | shiftLeft
  deriving DecidableEq, Repr

namespace Alu

def digit : Alu → Digit
  | copy => 0x0
  | or => 0x1
  | and => 0x2
  | xor => 0x3
  | add => 0x4
  | sub => 0x5
  | shiftRight => 0x6
  | subFrom => 0x7
  | shiftLeft => 0xE

def ofDigit? (n : Digit) : Option Alu :=
  match n.val with
  | 0x0 => some copy
  | 0x1 => some or
  | 0x2 => some and
  | 0x3 => some xor
  | 0x4 => some add
  | 0x5 => some sub
  | 0x6 => some shiftRight
  | 0x7 => some subFrom
  | 0xE => some shiftLeft
  | _ => none

theorem ofDigit?_digit (op : Alu) : ofDigit? op.digit = some op := by
  cases op <;> rfl

theorem digit_of_ofDigit? : ∀ {n : Digit} {op : Alu}, ofDigit? n = some op → op.digit = n := by
  decide

end Alu

inductive Condition where
  | equalsByte (x : Digit) (byte : Byte)
  | differsByte (x : Digit) (byte : Byte)
  | equals (x y : Digit)
  | differs (x y : Digit)
  | keyDown (x : Digit)
  | keyUp (x : Digit)
  deriving DecidableEq, Repr

inductive Instruction where
  | clearScreen -- 00E0
  | ret -- 00EE
  | jump (target : ShortAddress) -- 1NNN
  | call (target : ShortAddress) -- 2NNN
  | skip (condition : Condition) -- 3XNN, 4XNN, 5XY0, 9XY0, EX9E and EXA1
  | loadByte (x : Digit) (byte : Byte) -- 6XNN
  | addByte (x : Digit) (byte : Byte) -- 7XNN
  | alu (op : Alu) (x y : Digit) -- 8XYN
  | loadIndex (target : ShortAddress) -- ANNN
  | jumpOffset (base : ShortAddress) -- BNNN
  | random (x : Digit) (mask : Byte) -- CXNN
  | draw (x y rows : Digit) -- DXYN
  | readDelay (x : Digit) -- FX07
  | waitKey (x : Digit) -- FX0A
  | setDelay (x : Digit) -- FX15
  | setSound (x : Digit) -- FX18
  | addIndex (x : Digit) -- FX1E
  | loadGlyph (x : Digit) -- FX29
  | storeDecimal (x : Digit) -- FX33
  | storeBlock (x : Digit) -- FX55
  | loadBlock (x : Digit) -- FX65
  deriving DecidableEq, Repr

namespace Instruction

def addressWord (t : Nat) (target : ShortAddress) : Word := UInt16.ofNat (4096 * t + target.val)

def byteWord (t : Nat) (x : Digit) (byte : Byte) : Word :=
  UInt16.ofNat (4096 * t + 256 * x.val + byte.toNat)

def digitWord (t : Nat) (x y n : Digit) : Word :=
  UInt16.ofNat (4096 * t + 256 * x.val + 16 * y.val + n.val)

def word : Instruction → Word
  | clearScreen => 0x00E0
  | ret => 0x00EE
  | jump target => addressWord 0x1 target
  | call target => addressWord 0x2 target
  | skip (.equalsByte x byte) => byteWord 0x3 x byte
  | skip (.differsByte x byte) => byteWord 0x4 x byte
  | skip (.equals x y) => digitWord 0x5 x y 0x0
  | skip (.differs x y) => digitWord 0x9 x y 0x0
  | skip (.keyDown x) => byteWord 0xE x 0x9E
  | skip (.keyUp x) => byteWord 0xE x 0xA1
  | loadByte x byte => byteWord 0x6 x byte
  | addByte x byte => byteWord 0x7 x byte
  | alu op x y => digitWord 0x8 x y op.digit
  | loadIndex target => addressWord 0xA target
  | jumpOffset base => addressWord 0xB base
  | random x mask => byteWord 0xC x mask
  | draw x y rows => digitWord 0xD x y rows
  | readDelay x => byteWord 0xF x 0x07
  | waitKey x => byteWord 0xF x 0x0A
  | setDelay x => byteWord 0xF x 0x15
  | setSound x => byteWord 0xF x 0x18
  | addIndex x => byteWord 0xF x 0x1E
  | loadGlyph x => byteWord 0xF x 0x29
  | storeDecimal x => byteWord 0xF x 0x33
  | storeBlock x => byteWord 0xF x 0x55
  | loadBlock x => byteWord 0xF x 0x65

def ofKeyWord? (w : Word) : Option Instruction :=
  match w.low.toNat with
  | 0x9E => some (skip (.keyDown w.x))
  | 0xA1 => some (skip (.keyUp w.x))
  | _ => none

def ofDeviceWord? (w : Word) : Option Instruction :=
  match w.low.toNat with
  | 0x07 => some (readDelay w.x)
  | 0x0A => some (waitKey w.x)
  | 0x15 => some (setDelay w.x)
  | 0x18 => some (setSound w.x)
  | 0x1E => some (addIndex w.x)
  | 0x29 => some (loadGlyph w.x)
  | 0x33 => some (storeDecimal w.x)
  | 0x55 => some (storeBlock w.x)
  | 0x65 => some (loadBlock w.x)
  | _ => none

/-- Machine code routines `0NNN` and unassigned words are no instructions. -/
def ofWord? (w : Word) : Option Instruction :=
  match w.t.val with
  | 0x0 => if w = 0x00E0 then some clearScreen else if w = 0x00EE then some ret else none
  | 0x1 => some (jump w.address)
  | 0x2 => some (call w.address)
  | 0x3 => some (skip (.equalsByte w.x w.low))
  | 0x4 => some (skip (.differsByte w.x w.low))
  | 0x5 => if w.n = 0 then some (skip (.equals w.x w.y)) else none
  | 0x6 => some (loadByte w.x w.low)
  | 0x7 => some (addByte w.x w.low)
  | 0x8 => (Alu.ofDigit? w.n).map fun op => alu op w.x w.y
  | 0x9 => if w.n = 0 then some (skip (.differs w.x w.y)) else none
  | 0xA => some (loadIndex w.address)
  | 0xB => some (jumpOffset w.address)
  | 0xC => some (random w.x w.low)
  | 0xD => some (draw w.x w.y w.n)
  | 0xE => ofKeyWord? w
  | 0xF => ofDeviceWord? w
  | _ => none

end Instruction

end Chip8

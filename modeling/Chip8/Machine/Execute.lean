import Chip8.Machine.Basic
import Chip8.Sprite

/-! What the instructions do. A step reads the word at the program counter, moves the counter
behind it and carries the instruction out; it ends in a hint for the host, or in a fault that
leaves all but the counter as it was. -/

namespace Chip8

/-- What the host should know of a step. -/
inductive Flow where
  | ok
  | jump
  | draw
  | sound
  | keyWait
  deriving DecidableEq, Repr

namespace Alu

def apply (op : Alu) (dialect : Dialect) (a b : Byte) : Byte × Option Bool :=
  let shifted := if dialect.shiftReadsY then b else a
  match op with
  | copy => (b, none)
  | or => (a ||| b, none)
  | and => (a &&& b, none)
  | xor => (a ^^^ b, none)
  | add => (a + b, some (decide (256 ≤ a.toNat + b.toNat)))
  | sub => (a - b, some (decide (b.toNat ≤ a.toNat)))
  | shiftRight => (UInt8.ofNat (shifted.toNat / 2), some (decide (shifted.toNat % 2 = 1)))
  | subFrom => (b - a, some (decide (a.toNat ≤ b.toNat)))
  | shiftLeft => (UInt8.ofNat (2 * shifted.toNat), some (decide (128 ≤ shifted.toNat)))

end Alu

def Condition.holds (keys : Keypad) (r : Registers) : Condition → Bool
  | equalsByte x byte => r.get x == byte
  | differsByte x byte => r.get x != byte
  | equals x y => r.get x == r.get y
  | differs x y => r.get x != r.get y
  | keyDown x => keys.isPressed (r.get x).toNat
  | keyUp x => !keys.isPressed (r.get x).toNat

namespace Machine

def skipIf (m : Machine) (condition : Bool) : Machine :=
  if condition then { m with pc := m.pc + 2 } else m

def call (m : Machine) (address : Word) (target : ShortAddress) : Machine × Except Fault Flow :=
  match m.stack.push? m.pc with
  | some stack => ({ m with pc := UInt16.ofNat target.val, stack := stack }, .ok .jump)
  | none => (m, .error (.stackOverflow address m.stack.capacity))

def ret (m : Machine) (address : Word) : Machine × Except Fault Flow :=
  match m.stack.pop? with
  | some (back, stack) => ({ m with pc := back, stack := stack }, .ok .jump)
  | none => (m, .error (.stackUnderflow address))

def applyAlu (m : Machine) (op : Alu) (x y : Digit) : Machine :=
  match op.apply m.dialect (m.registers.get x) (m.registers.get y) with
  | (value, none) => { m with registers := m.registers.set x value }
  | (value, some on) => { m with registers := m.registers.setWithFlag x value on }

def spriteCells (m : Machine) (x y rows : Digit) : List (Nat × Nat) :=
  Sprite.cells m.screen.width m.screen.height (m.registers.get x).toNat (m.registers.get y).toNat
    (m.memory.readBlock m.registers.index.toNat rows.val)

def drawSprite (m : Machine) (x y rows : Digit) : Machine :=
  let (screen, hit) := m.screen.draw (m.spriteCells x y rows)
  { m with screen := screen, registers := m.registers.setFlag hit }

def takeRandom (m : Machine) (x : Digit) (mask : Byte) : Machine :=
  { m with
    registers := m.registers.set x (m.random.byte &&& mask)
    random := m.random.next }

/-- Without a key the counter goes back, so that the same instruction comes again. -/
def waitKey (m : Machine) (keys : Keypad) (x : Digit) : Machine × Except Fault Flow :=
  match keys.first? with
  | some key =>
    ({ m with registers := m.registers.set x (UInt8.ofNat key.val) }, .ok .ok)
  | none => ({ m with pc := m.pc - 2 }, .ok .keyWait)

def addIndex (m : Machine) (x : Digit) : Machine :=
  let sum := m.registers.index.toNat + (m.registers.get x).toNat
  let moved := m.registers.setIndex (UInt16.ofNat sum)
  { m with
    registers :=
      if m.dialect.indexFlagsOverflow then moved.setFlag (decide (m.memory.capacity ≤ sum))
      else moved }

def glyphAddress (m : Machine) (b : Byte) : Nat :=
  m.memory.fontStart + b.toNat % 16 * Limits.glyphHeight

def decimalDigits (b : Byte) : List Byte :=
  [UInt8.ofNat (b.toNat / 100), UInt8.ofNat (b.toNat / 10 % 10), UInt8.ofNat (b.toNat % 10)]

def indexAfterBlock (m : Machine) (x : Digit) : Word :=
  if m.dialect.blockMovesIndex then m.registers.index + UInt16.ofNat (x.val + 1)
  else m.registers.index

def storeDecimal (m : Machine) (x : Digit) : Machine :=
  { m with
    memory :=
      m.memory.writeBlock m.registers.index.toNat (decimalDigits (m.registers.get x)) }

def storeBlock (m : Machine) (x : Digit) : Machine :=
  { m with
    memory := m.memory.writeBlock m.registers.index.toNat (m.registers.upTo x)
    registers := m.registers.setIndex (m.indexAfterBlock x) }

def loadBlock (m : Machine) (x : Digit) : Machine :=
  let bytes := m.memory.readBlock m.registers.index.toNat (x.val + 1)
  { m with registers := (m.registers.setBlock bytes).setIndex (m.indexAfterBlock x) }

/-- Carries out an instruction that was read at `address`, on a machine whose counter stands behind
it already. -/
def execute (m : Machine) (keys : Keypad) (address : Word) :
    Instruction → Machine × Except Fault Flow
  | .clearScreen => ({ m with screen := m.screen.clear.mark }, .ok .draw)
  | .ret => m.ret address
  | .jump target => ({ m with pc := UInt16.ofNat target.val }, .ok .jump)
  | .call target => m.call address target
  | .skip condition => (m.skipIf (condition.holds keys m.registers), .ok .ok)
  | .loadByte x byte => ({ m with registers := m.registers.set x byte }, .ok .ok)
  | .addByte x byte =>
    ({ m with registers := m.registers.set x (m.registers.get x + byte) }, .ok .ok)
  | .alu op x y => (m.applyAlu op x y, .ok .ok)
  | .loadIndex target =>
    ({ m with registers := m.registers.setIndex (UInt16.ofNat target.val) }, .ok .ok)
  | .jumpOffset base =>
    let offset := m.registers.get (Instruction.offsetRegister m.dialect base)
    ({ m with pc := UInt16.ofNat (base.val + offset.toNat) }, .ok .jump)
  | .random x mask => (m.takeRandom x mask, .ok .ok)
  | .draw x y rows => (m.drawSprite x y rows, .ok .draw)
  | .readDelay x => ({ m with registers := m.registers.set x m.timers.delay }, .ok .ok)
  | .waitKey x => m.waitKey keys x
  | .setDelay x =>
    ({ m with timers := { m.timers with delay := m.registers.get x } }, .ok .ok)
  | .setSound x =>
    ({ m with timers := { m.timers with sound := m.registers.get x } }, .ok .sound)
  | .addIndex x => (m.addIndex x, .ok .ok)
  | .loadGlyph x =>
    let a := UInt16.ofNat (m.glyphAddress (m.registers.get x))
    ({ m with registers := m.registers.setIndex a }, .ok .ok)
  | .storeDecimal x => (m.storeDecimal x, .ok .ok)
  | .storeBlock x => (m.storeBlock x, .ok .ok)
  | .loadBlock x => (m.loadBlock x, .ok .ok)

def step (m : Machine) (keys : Keypad) : Machine × Except Fault Flow :=
  let address := m.pc
  let word := m.word
  let m := { m with pc := m.pc + 2 }
  match Instruction.ofWord? word with
  | some i => m.execute keys address i
  | none => (m, .error (.unsupported word address))

end Machine

end Chip8

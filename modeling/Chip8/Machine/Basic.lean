import Chip8.CallStack
import Chip8.Config.Basic
import Chip8.Keypad
import Chip8.Memory
import Chip8.Random.Keystream
import Chip8.Registers
import Chip8.Screen
import Chip8.Timers

/-! The machine: everything that a program can read or change, except for the keys. -/

namespace Chip8

/-- A configuration without a seed leaves the key to the entropy. -/
def Config.randomKey (c : Config) (entropy : Random.Key) : Random.Key :=
  match c.seed with
  | some seed => Random.keyOfSeed seed
  | none => entropy

theorem Config.randomKey_of_seed {c : Config} {seed : UInt64} (h : c.seed = some seed)
    (entropy : Random.Key) : c.randomKey entropy = Random.keyOfSeed seed := by
  rw [randomKey, h]

structure Machine where
  -- the program counter, the address of the next instruction
  pc : Word
  registers : Registers := {}
  timers : Timers := {}
  memory : Memory
  stack : CallStack
  screen : Screen
  random : Keystream
  dialect : Dialect

namespace Machine

def word (m : Machine) : Word := m.memory.fetch m.pc.toNat

def boot (c : Config) (glyphs program : Array Byte) (entropy : Random.Key) :
    Except Error Machine :=
  if h : 0 < c.memorySize then do
    let memory ← (Memory.zeros c.memorySize h c.fontStart c.programStart).loadFont glyphs
    let memory ← memory.loadProgram program
    .ok
      { pc := UInt16.ofNat c.programStart
        memory := memory
        stack := .empty c.stackSize
        screen := .dark c.screenWidth c.screenHeight
        random := { key := c.randomKey entropy }
        dialect := c.dialect }
  else .error (.config (.memorySize c.memorySize))

end Machine

end Chip8

import Chip8.Machine.Execute

/-! What each instruction leaves alone. Most instructions reach the counter, the registers and the
stack at most; memory, screen, timers and random bytes are changed by the few that are there for
it. -/

namespace Chip8

/-- The instructions that reach no further than the counter, the registers and the stack. -/
def Instruction.Internal : Instruction → Prop
  | .clearScreen | .random .. | .draw .. | .setDelay _ | .setSound _ | .storeDecimal _
  | .storeBlock _ => False
  | _ => True

namespace Machine

theorem execute_of_internal {i : Instruction} (h : i.Internal) (m : Machine) (keys : Keypad)
    (address : Word) :
    (m.execute keys address i).1 =
      { m with
        pc := (m.execute keys address i).1.pc
        registers := (m.execute keys address i).1.registers
        stack := (m.execute keys address i).1.stack } := by
  cases i with
  | ret =>
    simp only [execute, ret]
    split <;> rfl
  | call target =>
    simp only [execute, call]
    split <;> rfl
  | skip condition =>
    simp only [execute, skipIf]
    split <;> rfl
  | alu op x y =>
    simp only [execute, applyAlu]
    split <;> rfl
  | waitKey x =>
    simp only [execute, waitKey]
    split <;> rfl
  | clearScreen | random | draw | setDelay | setSound | storeDecimal | storeBlock => exact h.elim
  | _ => rfl

theorem screen_execute (m : Machine) (keys : Keypad) (address : Word) (i : Instruction) :
    (m.execute keys address i).1.screen =
      match i with
      | .clearScreen => m.screen.clear.mark
      | .draw x y rows => (m.screen.draw (m.spriteCells x y rows)).1
      | _ => m.screen := by
  cases i with
  | clearScreen | random | draw | setDelay | setSound | storeDecimal | storeBlock => rfl
  | _ =>
    rw [execute_of_internal]
    trivial

theorem memory_execute (m : Machine) (keys : Keypad) (address : Word) (i : Instruction) :
    (m.execute keys address i).1.memory =
      match i with
      | .storeDecimal x =>
        m.memory.writeBlock m.registers.index.toNat (decimalDigits (m.registers.get x))
      | .storeBlock x => m.memory.writeBlock m.registers.index.toNat (m.registers.upTo x)
      | _ => m.memory := by
  cases i with
  | clearScreen | random | draw | setDelay | setSound | storeDecimal | storeBlock => rfl
  | _ =>
    rw [execute_of_internal]
    trivial

theorem timers_execute (m : Machine) (keys : Keypad) (address : Word) (i : Instruction) :
    (m.execute keys address i).1.timers =
      match i with
      | .setDelay x => { m.timers with delay := m.registers.get x }
      | .setSound x => { m.timers with sound := m.registers.get x }
      | _ => m.timers := by
  cases i with
  | clearScreen | random | draw | setDelay | setSound | storeDecimal | storeBlock => rfl
  | _ =>
    rw [execute_of_internal]
    trivial

theorem random_execute (m : Machine) (keys : Keypad) (address : Word) (i : Instruction) :
    (m.execute keys address i).1.random =
      match i with
      | .random _ _ => m.random.next
      | _ => m.random := by
  cases i with
  | clearScreen | random | draw | setDelay | setSound | storeDecimal | storeBlock => rfl
  | _ =>
    rw [execute_of_internal]
    trivial

end Machine

end Chip8

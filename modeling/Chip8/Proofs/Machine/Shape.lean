import Chip8.Machine.Execute

/-! What no instruction changes: the sizes of the parts of a machine, where its memory was filled,
and its dialect. -/

namespace Chip8

structure Shape where
  capacity : Nat
  fontStart : Nat
  programStart : Nat
  stackCapacity : Nat
  width : Nat
  height : Nat
  dialect : Dialect
  deriving DecidableEq, Repr

def Config.shape (c : Config) : Shape :=
  ⟨c.memorySize, c.fontStart, c.programStart, c.stackSize, c.screenWidth, c.screenHeight, c.dialect⟩

namespace Memory

theorem starts_writeBlock (m : Memory) (a : Nat) (bytes : List Byte) :
    (m.writeBlock a bytes).fontStart = m.fontStart ∧
      (m.writeBlock a bytes).programStart = m.programStart := by
  induction bytes generalizing m a with
  | nil => exact ⟨rfl, rfl⟩
  | cons b rest ih => exact ih (m.write a b) (a + 1)

end Memory

namespace Machine

def shape (m : Machine) : Shape :=
  ⟨m.memory.capacity, m.memory.fontStart, m.memory.programStart, m.stack.capacity, m.screen.width,
    m.screen.height, m.dialect⟩

theorem shape_skipIf (m : Machine) (condition : Bool) : (m.skipIf condition).shape = m.shape := by
  cases condition <;> rfl

theorem shape_call (m : Machine) (address : Word) (target : ShortAddress) :
    (m.call address target).1.shape = m.shape := by
  unfold call
  split
  · rename_i stack h
    simp only [shape, (CallStack.toList_push? h).2]
  · rfl

theorem shape_ret (m : Machine) (address : Word) : (m.ret address).1.shape = m.shape := by
  unfold ret
  split
  · rename_i back stack h
    simp only [shape, (CallStack.toList_pop? h).2]
  · rfl

theorem shape_applyAlu (m : Machine) (op : Alu) (x y : Digit) :
    (m.applyAlu op x y).shape = m.shape := by
  unfold applyAlu
  split <;> rfl

theorem shape_drawSprite (m : Machine) (x y rows : Digit) :
    (m.drawSprite x y rows).shape = m.shape := by
  obtain ⟨hw, hh⟩ := Screen.width_draw m.screen (m.spriteCells x y rows)
  simp only [drawSprite, shape, hw, hh]

theorem shape_waitKey (m : Machine) (keys : Keypad) (x : Digit) :
    (m.waitKey keys x).1.shape = m.shape := by
  unfold waitKey
  split <;> rfl

theorem shape_writeBlock (m : Machine) (a : Nat) (bytes : List Byte) :
    { m with memory := m.memory.writeBlock a bytes }.shape = m.shape := by
  obtain ⟨hf, hp⟩ := Memory.starts_writeBlock m.memory a bytes
  simp only [shape, Memory.capacity_writeBlock, hf, hp]

theorem shape_execute (m : Machine) (keys : Keypad) (address : Word) (i : Instruction) :
    (m.execute keys address i).1.shape = m.shape := by
  cases i with
  | ret => exact m.shape_ret address
  | call target => exact m.shape_call address target
  | skip condition => exact m.shape_skipIf _
  | alu op x y => exact m.shape_applyAlu op x y
  | draw x y rows => exact m.shape_drawSprite x y rows
  | waitKey x => exact m.shape_waitKey keys x
  | storeDecimal x => exact m.shape_writeBlock _ _
  | storeBlock x => exact m.shape_writeBlock _ _
  -- the others touch registers, counter, timers, pixels or random bytes alone
  | _ => rfl

theorem shape_step (m : Machine) (keys : Keypad) : (m.step keys).1.shape = m.shape := by
  unfold step
  dsimp only
  split
  · exact shape_execute _ keys _ _
  · rfl

end Machine

end Chip8

import Chip8.Proofs.Checked.Drawing
import Chip8.Proofs.Vm.Fits

/-! The instructions in partial operations. On a machine of a configuration every instruction is
defined, and it is the one that the machine carries out. -/

namespace Chip8.Checked

def holds (keys : Keypad) (r : Registers) : Condition → Option Bool
  | .equalsByte x byte => do
    let a ← getRegister r x.val
    some (a == byte)
  | .differsByte x byte => do
    let a ← getRegister r x.val
    some (a != byte)
  | .equals x y => do
    let a ← getRegister r x.val
    let b ← getRegister r y.val
    some (a == b)
  | .differs x y => do
    let a ← getRegister r x.val
    let b ← getRegister r y.val
    some (a != b)
  | .keyDown x => do
    let id ← getRegister r x.val
    isPressed keys id.toNat
  | .keyUp x => do
    let id ← getRegister r x.val
    let down ← isPressed keys id.toNat
    some !down

def alu (op : Alu) (dialect : Dialect) (a b : Byte) : Option (Byte × Option Bool) :=
  let shifted := if dialect.shiftReadsY then b else a
  match op with
  | .shiftRight => do
    let one ← shift 8 1
    some (UInt8.ofNat (shifted.toNat >>> one), some (decide (shifted.toNat % 2 = 1)))
  | .shiftLeft => do
    let one ← shift 8 1
    let top ← shift 8 7
    some (UInt8.ofNat (shifted.toNat <<< one), some (decide (shifted.toNat >>> top = 1)))
  | _ => some (op.apply dialect a b)

def applyAlu (m : Machine) (op : Alu) (x y : Digit) : Option Machine := do
  let a ← getRegister m.registers x.val
  let b ← getRegister m.registers y.val
  match ← alu op m.dialect a b with
  | (value, none) => do
    let r ← setRegister m.registers x.val value
    some { m with registers := r }
  | (value, some on) => do
    let r ← setWithFlag m.registers x.val value on
    some { m with registers := r }

def call (m : Machine) (address : Word) (target : ShortAddress) :
    Option (Machine × Except Fault Flow) := do
  match ← push m.stack m.pc with
  | some stack => some ({ m with pc := UInt16.ofNat target.val, stack := stack }, .ok .jump)
  | none => some (m, .error (.stackOverflow address m.stack.capacity))

def ret (m : Machine) (address : Word) : Option (Machine × Except Fault Flow) := do
  match ← pop m.stack with
  | some (back, stack) => some ({ m with pc := back, stack := stack }, .ok .jump)
  | none => some (m, .error (.stackUnderflow address))

def drawSprite (m : Machine) (x y rows : Digit) : Option Machine := do
  let vx ← getRegister m.registers x.val
  let vy ← getRegister m.registers y.val
  let (screen, hit) ← drawRows m.memory m.registers.index.toNat vx.toNat vy.toNat
    (List.range rows.val) (m.screen, false)
  let r ← setRegister m.registers 0xF (if hit then 1 else 0)
  some { m with screen := screen, registers := r }

def waitKey (m : Machine) (keys : Keypad) (x : Digit) : Option (Machine × Except Fault Flow) :=
  match keys.first? with
  | some key => do
    let r ← setRegister m.registers x.val (UInt8.ofNat key.val)
    some ({ m with registers := r }, .ok .ok)
  | none => some ({ m with pc := m.pc - 2 }, .ok .keyWait)

def addIndex (m : Machine) (x : Digit) : Option Machine := do
  let a ← getRegister m.registers x.val
  let sum ← add 64 m.registers.index.toNat a.toNat
  let moved := m.registers.setIndex (UInt16.ofNat sum)
  if m.dialect.indexFlagsOverflow then
    let r ← setRegister moved 0xF (if m.memory.capacity ≤ sum then 1 else 0)
    some { m with registers := r }
  else some { m with registers := moved }

def loadGlyph (m : Machine) (x : Digit) : Option Machine := do
  let a ← getRegister m.registers x.val
  let offset ← mul 64 (a.toNat % 16) Limits.glyphHeight
  let target ← add 64 m.memory.fontStart offset
  some { m with registers := m.registers.setIndex (UInt16.ofNat target) }

def storeDecimal (m : Machine) (x : Digit) : Option Machine := do
  let value ← getRegister m.registers x.val
  let hundreds ← rem (← quot value.toNat 100) 10
  let tens ← rem (← quot value.toNat 10) 10
  let units ← rem value.toNat 10
  let memory ← writeFrom m.memory m.registers.index.toNat 0
    [UInt8.ofNat hundreds, UInt8.ofNat tens, UInt8.ofNat units]
  some { m with memory := memory }

/-- The registers of a block are counted in a word of sixteen bits. -/
def advanceIndex (m : Machine) (r : Registers) (x : Digit) : Option Registers :=
  if m.dialect.blockMovesIndex then do
    let count ← add 16 x.val 1
    some (r.setIndex (m.registers.index + UInt16.ofNat count))
  else some (r.setIndex m.registers.index)

def storeBlock (m : Machine) (x : Digit) : Option Machine := do
  let bytes ← registersUpTo m.registers x.val
  let memory ← writeFrom m.memory m.registers.index.toNat 0 bytes
  let r ← advanceIndex m m.registers x
  some { m with memory := memory, registers := r }

def loadBlock (m : Machine) (x : Digit) : Option Machine := do
  let slots ← registersUpTo m.registers x.val
  let bytes ← readBlock m.memory m.registers.index.toNat slots.length
  let r ← advanceIndex m (m.registers.setBlock bytes) x
  some { m with registers := r }

def execute (m : Machine) (keys : Keypad) (address : Word) :
    Instruction → Option (Machine × Except Fault Flow)
  | .clearScreen => some ({ m with screen := m.screen.clear.mark }, .ok .draw)
  | .ret => ret m address
  | .jump target => some ({ m with pc := UInt16.ofNat target.val }, .ok .jump)
  | .call target => call m address target
  | .skip condition => do
    let condition ← holds keys m.registers condition
    some (m.skipIf condition, .ok .ok)
  | .loadByte x byte => do
    let r ← setRegister m.registers x.val byte
    some ({ m with registers := r }, .ok .ok)
  | .addByte x byte => do
    let a ← getRegister m.registers x.val
    let r ← setRegister m.registers x.val (a + byte)
    some ({ m with registers := r }, .ok .ok)
  | .alu op x y => (applyAlu m op x y).map fun m => (m, .ok .ok)
  | .loadIndex target =>
    some ({ m with registers := m.registers.setIndex (UInt16.ofNat target.val) }, .ok .ok)
  | .jumpOffset base => do
    let offset ← getRegister m.registers (Instruction.offsetRegister m.dialect base).val
    some ({ m with pc := UInt16.ofNat (base.val + offset.toNat) }, .ok .jump)
  | .random x mask => do
    let r ← setRegister m.registers x.val (m.random.byte &&& mask)
    some ({ m with registers := r, random := m.random.next }, .ok .ok)
  | .draw x y rows => (drawSprite m x y rows).map fun m => (m, .ok .draw)
  | .readDelay x => do
    let r ← setRegister m.registers x.val m.timers.delay
    some ({ m with registers := r }, .ok .ok)
  | .waitKey x => waitKey m keys x
  | .setDelay x => do
    let a ← getRegister m.registers x.val
    some ({ m with timers := { m.timers with delay := a } }, .ok .ok)
  | .setSound x => do
    let a ← getRegister m.registers x.val
    some ({ m with timers := { m.timers with sound := a } }, .ok .sound)
  | .addIndex x => (addIndex m x).map fun m => (m, .ok .ok)
  | .loadGlyph x => (loadGlyph m x).map fun m => (m, .ok .ok)
  | .storeDecimal x => (storeDecimal m x).map fun m => (m, .ok .ok)
  | .storeBlock x => (storeBlock m x).map fun m => (m, .ok .ok)
  | .loadBlock x => (loadBlock m x).map fun m => (m, .ok .ok)

def step (m : Machine) (keys : Keypad) : Option (Machine × Except Fault Flow) := do
  let address := m.pc
  let word ← fetch m.memory m.pc.toNat
  let m := { m with pc := m.pc + 2 }
  match Instruction.ofWord? word with
  | some i => execute m keys address i
  | none => some (m, .error (.unsupported word address))

theorem holds_eq (keys : Keypad) (r : Registers) (condition : Condition) :
    holds keys r condition = some (condition.holds keys r) := by
  cases condition <;>
    simp only [holds, Condition.holds, getRegister_eq, isPressed_eq, Option.bind_eq_bind,
      Option.bind_some]

theorem alu_eq (op : Alu) (dialect : Dialect) (a b : Byte) :
    alu op dialect a b = some (op.apply dialect a b) := by
  have one : shift 8 1 = some 1 := rfl
  have top : shift 8 7 = some 7 := rfl
  cases op with
  | shiftRight =>
    simp only [alu, one, Option.bind_eq_bind, Option.bind_some, Alu.apply,
      Nat.shiftRight_eq_div_pow, Nat.pow_one]
  | shiftLeft =>
    have hs : ∀ s : Byte, s.toNat / 2 ^ 7 = 1 ↔ 128 ≤ s.toNat := by
      intro s
      have := s.toNat_lt
      omega
    simp only [alu, one, top, Option.bind_eq_bind, Option.bind_some, Alu.apply,
      Nat.shiftRight_eq_div_pow, Nat.shiftLeft_eq, Nat.pow_one, hs, Nat.mul_comm]
  | _ => rfl

section

variable (m : Machine) (x y : Digit)

theorem applyAlu_eq (op : Alu) : applyAlu m op x y = some (m.applyAlu op x y) := by
  simp only [applyAlu, getRegister_eq, alu_eq, Option.bind_eq_bind, Option.bind_some,
    Machine.applyAlu]
  rcases op.apply m.dialect (m.registers.get x) (m.registers.get y) with ⟨value, _ | on⟩
  · simp only [setRegister_eq, Option.bind_some]
  · simp only [setWithFlag_eq, Option.bind_some]

theorem ret_eq (address : Word) : ret m address = some (m.ret address) := by
  simp only [ret, pop_eq, Option.bind_eq_bind, Option.bind_some, Machine.ret]
  rcases m.stack.pop? with _ | ⟨back, stack⟩
  · rfl
  · rfl

theorem call_eq (address : Word) (target : ShortAddress) (h : m.stack.capacity < 2 ^ 64) :
    call m address target = some (m.call address target) := by
  simp only [call, push_eq m.pc h, Option.bind_eq_bind, Option.bind_some, Machine.call]
  rcases m.stack.push? m.pc with _ | stack
  · rfl
  · rfl

theorem drawSprite_eq (rows : Digit) (h : Bounded m.screen) :
    drawSprite m x y rows = some (m.drawSprite x y rows) := by
  have hrs : ∀ r ∈ List.range rows.val, r < 16 := fun r hr =>
    Nat.lt_trans (List.mem_range.1 hr) rows.isLt
  have hd := drawRows_eq (m := m.memory) false h m.registers.index.toNat_lt
    (m.registers.get x).toNat_lt (m.registers.get y).toNat_lt hrs
  simp only [Bool.false_or] at hd
  simp only [drawSprite, getRegister_eq, hd, setFlag_eq, Option.bind_eq_bind, Option.bind_some,
    Machine.drawSprite, Machine.spriteCells, Memory.readBlock, Sprite.cells_map_range]

theorem waitKey_eq (keys : Keypad) : waitKey m keys x = some (m.waitKey keys x) := by
  unfold waitKey Machine.waitKey
  cases keys.first? with
  | none => rfl
  | some key => simp only [setRegister_eq, Option.bind_eq_bind, Option.bind_some]

theorem addIndex_eq : addIndex m x = some (m.addIndex x) := by
  have hi := m.registers.index.toNat_lt
  have ha := (m.registers.get x).toNat_lt
  have hs : m.registers.index.toNat + (m.registers.get x).toNat < 2 ^ 64 := by omega
  have hf := fun r : Registers => setFlag_eq r (decide (m.memory.capacity ≤
    m.registers.index.toNat + (m.registers.get x).toNat))
  simp only [decide_eq_true_eq] at hf
  simp only [addIndex, getRegister_eq, add_eq hs, Option.bind_eq_bind, Option.bind_some, hf,
    Machine.addIndex]
  split <;> rfl

theorem loadGlyph_eq (h : m.memory.fontStart < 65536) :
    loadGlyph m x = some { m with
      registers := m.registers.setIndex (UInt16.ofNat (m.glyphAddress (m.registers.get x))) } := by
  have hle : (m.registers.get x).toNat % 16 * Limits.glyphHeight ≤ 15 * 5 :=
    Nat.mul_le_mul_right 5 (by omega)
  have hmul : (m.registers.get x).toNat % 16 * Limits.glyphHeight < 2 ^ 64 := by omega
  have hadd : m.memory.fontStart + (m.registers.get x).toNat % 16 * Limits.glyphHeight < 2 ^ 64 := by
    omega
  simp only [loadGlyph, getRegister_eq, mul_eq hmul, add_eq hadd, Option.bind_eq_bind,
    Option.bind_some, Machine.glyphAddress]

theorem storeDecimal_eq : storeDecimal m x = some (m.storeDecimal x) := by
  have hi := m.registers.index.toNat_lt
  have hb := (m.registers.get x).toNat_lt
  have hundreds : (m.registers.get x).toNat / 100 % 10 = (m.registers.get x).toNat / 100 := by
    omega
  have hw : ∀ a b c : Byte, m.registers.index.toNat + 0 + [a, b, c].length < 2 ^ 64 := by
    intro a b c
    simp only [List.length_cons, List.length_nil]
    omega
  simp only [storeDecimal, getRegister_eq, quot_eq (Nat.succ_pos 99), quot_eq (Nat.succ_pos 9),
    rem_eq (Nat.succ_pos 9), hundreds, writeFrom_eq (hw _ _ _), Option.bind_eq_bind,
    Option.bind_some, Machine.storeDecimal, Machine.decimalDigits, Nat.add_zero]

theorem advanceIndex_eq (r : Registers) :
    advanceIndex m r x = some (r.setIndex (m.indexAfterBlock x)) := by
  have hx := x.isLt
  have h : x.val + 1 < 2 ^ 16 := by omega
  unfold advanceIndex Machine.indexAfterBlock
  split
  · simp only [add_eq h, Option.bind_eq_bind, Option.bind_some]
  · rfl

theorem storeBlock_eq : storeBlock m x = some (m.storeBlock x) := by
  have hi := m.registers.index.toNat_lt
  have hx := x.isLt
  have hw : m.registers.index.toNat + 0 + (m.registers.upTo x).length < 2 ^ 64 := by
    rw [Registers.length_upTo]
    omega
  simp only [storeBlock, registersUpTo_eq, writeFrom_eq hw, advanceIndex_eq, Option.bind_eq_bind,
    Option.bind_some, Machine.storeBlock, Nat.add_zero]

theorem loadBlock_eq : loadBlock m x = some (m.loadBlock x) := by
  have hi := m.registers.index.toNat_lt
  have hx := x.isLt
  have hr : m.registers.index.toNat + (x.val + 1) < 2 ^ 64 := by omega
  simp only [loadBlock, registersUpTo_eq, Registers.length_upTo, readBlock_eq hr, advanceIndex_eq,
    Option.bind_eq_bind, Option.bind_some, Machine.loadBlock]

end

theorem bounded_of_fits {m : Machine} {c : Config} (h : m.Fits c) : Bounded m.screen where
  width_pos := h.width ▸ h.width_pos
  width_le := h.width ▸ h.width_le
  height_pos := h.height ▸ h.height_pos
  height_le := h.height ▸ h.height_le

theorem execute_eq {m : Machine} {c : Config} (h : m.Fits c) (keys : Keypad) (address : Word)
    (i : Instruction) : execute m keys address i = some (m.execute keys address i) := by
  cases i with
  | ret => exact ret_eq m address
  | call target =>
    have hs : m.stack.capacity ≤ 256 := h.stack ▸ h.stack_le
    exact call_eq m address target (by omega)
  | waitKey x => exact waitKey_eq m x keys
  | draw x y rows =>
    simp only [execute, drawSprite_eq m x y rows (bounded_of_fits h), Option.map_some,
      Machine.execute]
  | loadGlyph x =>
    have hf : m.memory.fontStart < 65536 := by
      have hfit : c.fontStart + 80 ≤ c.memorySize := h.font_fits
      have hle : c.memorySize ≤ 65536 := h.memory_le
      rw [h.fontStart]
      omega
    simp only [execute, loadGlyph_eq m x hf, Option.map_some, Machine.execute]
  | _ =>
    simp only [execute, holds_eq, getRegister_eq, setRegister_eq, applyAlu_eq, addIndex_eq,
      storeDecimal_eq, storeBlock_eq, loadBlock_eq, Option.map_some, Option.bind_eq_bind,
      Option.bind_some, Machine.execute, Machine.takeRandom]

theorem step_eq {m : Machine} {c : Config} (h : m.Fits c) (keys : Keypad) :
    step m keys = some (m.step keys) := by
  have hpc := m.pc.toNat_lt
  have hf : m.pc.toNat + 1 < 2 ^ 64 := by omega
  have hmoved : { m with pc := m.pc + 2 }.Fits c := h.of_shape rfl
  simp only [step, fetch_eq hf, Option.bind_eq_bind, Option.bind_some, Machine.step, Machine.word]
  rcases Instruction.ofWord? (m.memory.fetch m.pc.toNat) with _ | i
  · rfl
  · exact execute_eq hmoved keys m.pc i

end Chip8.Checked

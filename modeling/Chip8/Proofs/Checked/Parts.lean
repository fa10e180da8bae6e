import Chip8.Machine.Execute
import Chip8.Proofs.Checked.Arithmetic

/-! The parts of a machine in partial operations. An address is reduced modulo the number of cells
before it is used as a place, a register is named by the low digit of its number, and the top of a
stack lies below its capacity. -/

namespace Chip8.Checked

def read (m : Memory) (a : Nat) : Option Byte := do
  let i ← rem a m.cells.size
  m.cells[i]?

def write (m : Memory) (a : Nat) (b : Byte) : Option Memory := do
  let i ← rem a m.cells.size
  if h : i < m.cells.size then
    some { m with
      cells := m.cells.set i b h
      capacity_pos := by simpa using m.capacity_pos }
  else none

def fetch (m : Memory) (a : Nat) : Option Word := do
  let high ← read m a
  let next ← add 64 a 1
  let low ← read m next
  some (Word.ofBytes high low)

def readBlock (m : Memory) (a count : Nat) : Option (List Byte) :=
  (List.range count).mapM fun k => do
    let source ← add 64 a k
    read m source

def writeFrom (m : Memory) (a k : Nat) : List Byte → Option Memory
  | [] => some m
  | b :: rest => do
    let target ← add 64 a k
    let m ← write m target b
    writeFrom m a (k + 1) rest

theorem read_eq (m : Memory) (a : Nat) : read m a = some (m.read a) := by
  have h := m.mod_capacity_lt a
  simp only [read, rem_eq m.capacity_pos, Option.bind_eq_bind, Option.bind_some, Memory.read,
    Array.getElem?_eq_getElem h]

theorem write_eq (m : Memory) (a : Nat) (b : Byte) : write m a b = some (m.write a b) := by
  have h := m.mod_capacity_lt a
  simp only [write, rem_eq m.capacity_pos, Option.bind_eq_bind, Option.bind_some, dif_pos h,
    Memory.write]

theorem fetch_eq {m : Memory} {a : Nat} (h : a + 1 < 2 ^ 64) : fetch m a = some (m.fetch a) := by
  simp only [fetch, read_eq, add_eq h, Option.bind_eq_bind, Option.bind_some, Memory.fetch]

theorem readBlock_eq {m : Memory} {a count : Nat} (h : a + count < 2 ^ 64) :
    readBlock m a count = some (m.readBlock a count) := by
  refine mapM_eq fun k hk => ?_
  have hk' : a + k < 2 ^ 64 := by
    have := List.mem_range.1 hk
    omega
  simp only [add_eq hk', Option.bind_eq_bind, Option.bind_some, read_eq]

theorem writeFrom_eq {m : Memory} {a k : Nat} {bytes : List Byte}
    (h : a + k + bytes.length < 2 ^ 64) :
    writeFrom m a k bytes = some (m.writeBlock (a + k) bytes) := by
  induction bytes generalizing m k with
  | nil => rfl
  | cons b rest ih =>
    simp only [List.length_cons] at h
    have hk : a + k < 2 ^ 64 := by omega
    simp only [writeFrom, add_eq hk, write_eq, Option.bind_eq_bind, Option.bind_some,
      Memory.writeBlock]
    exact ih (by omega)

def getRegister (r : Registers) (x : Nat) : Option Byte := do
  let i ← rem x 16
  r.v[i]?

def setRegister (r : Registers) (x : Nat) (value : Byte) : Option Registers := do
  let i ← rem x 16
  if h : i < 16 then some { r with v := r.v.set i value h } else none

def setWithFlag (r : Registers) (x : Nat) (value : Byte) (on : Bool) : Option Registers := do
  let r ← setRegister r x value
  setRegister r 0xF (if on then 1 else 0)

def registersUpTo (r : Registers) (x : Nat) : Option (List Byte) := do
  let count ← add 64 x 1
  if count ≤ 16 then some (r.v.toList.take count) else none

theorem getRegister_eq (r : Registers) (x : Digit) : getRegister r x.val = some (r.get x) := by
  have h : x.val % 16 = x.val := Nat.mod_eq_of_lt x.isLt
  simp only [getRegister, rem_eq (Nat.succ_pos 15), h, Option.bind_eq_bind, Option.bind_some,
    Registers.get]
  exact Vector.getElem?_eq_getElem x.isLt

theorem setRegister_eq (r : Registers) (x : Digit) (value : Byte) :
    setRegister r x.val value = some (r.set x value) := by
  have h : x.val % 16 = x.val := Nat.mod_eq_of_lt x.isLt
  simp only [setRegister, rem_eq (Nat.succ_pos 15), h, Option.bind_eq_bind, Option.bind_some,
    dif_pos x.isLt, Registers.set]

theorem setFlag_eq (r : Registers) (on : Bool) :
    setRegister r 0xF (if on then 1 else 0) = some (r.setFlag on) :=
  setRegister_eq r Registers.flag _

theorem setWithFlag_eq (r : Registers) (x : Digit) (value : Byte) (on : Bool) :
    setWithFlag r x.val value on = some (r.setWithFlag x value on) := by
  simp only [setWithFlag, setRegister_eq, Option.bind_eq_bind, Option.bind_some, setFlag_eq,
    Registers.setWithFlag]

theorem registersUpTo_eq (r : Registers) (x : Digit) :
    registersUpTo r x.val = some (r.upTo x) := by
  have hx := x.isLt
  have h : x.val + 1 < 2 ^ 64 := by omega
  simp only [registersUpTo, add_eq h, Option.bind_eq_bind, Option.bind_some, Registers.upTo]
  exact if_pos hx

def push (s : CallStack) (a : Word) : Option (Option CallStack) :=
  match s.push? a with
  | none => some none
  | some t => do
    let _ ← add 64 s.depth 1
    some (some t)

def pop (s : CallStack) : Option (Option (Word × CallStack)) :=
  if s.depth = 0 then some none
  else do
    let top ← sub s.depth 1
    let a ← s.addresses[top]?
    if top < s.capacity then
      some (some (a, s.dropLast))
    else none

theorem push_eq {s : CallStack} (a : Word) (h : s.capacity < 2 ^ 64) :
    push s a = some (s.push? a) := by
  unfold push
  split
  · rename_i heq
    rw [heq]
  · rename_i t heq
    have hd : s.depth + 1 < 2 ^ 64 := by
      unfold CallStack.push? at heq
      split at heq
      · unfold CallStack.depth
        omega
      · cases heq
    simp only [add_eq hd, heq, Option.bind_eq_bind, Option.bind_some]

theorem pop_eq (s : CallStack) : pop s = some s.pop? := by
  have hd := s.depth_le
  unfold pop
  split
  · rename_i h
    have he : s.toList = [] := List.eq_nil_of_length_eq_zero h
    rw [(CallStack.pop?_eq_none_iff s).2 he]
  · -- the depth is the index of the first free place, and never past the capacity
    rename_i h
    have hpos : 1 ≤ s.depth := Nat.pos_of_ne_zero h
    have htop : s.depth - 1 < s.addresses.size := Nat.sub_lt hpos Nat.one_pos
    have hcap : s.depth - 1 < s.capacity := Nat.lt_of_lt_of_le htop hd
    have hback : s.addresses.back? = s.addresses[s.depth - 1]? := rfl
    simp only [sub_eq hpos, Option.bind_eq_bind, Option.bind_some, if_pos hcap, CallStack.pop?,
      hback, Array.getElem?_eq_getElem htop, Option.map_some]

def isPressed (k : Keypad) (id : Nat) : Option Bool :=
  if id < 16 then do
    let i ← shift 16 id
    some (k.mask.getLsbD i)
  else some false

def setKey (k : Keypad) (key : Key) (down : Bool) : Option Keypad := do
  let i ← shift 16 key.val
  let bit := BitVec.twoPow 16 i
  some ⟨if down then k.mask ||| bit else k.mask &&& ~~~bit⟩

theorem isPressed_eq (k : Keypad) (id : Nat) : isPressed k id = some (k.isPressed id) := by
  unfold isPressed
  split
  · rename_i h
    simp only [shift_eq h, Option.bind_eq_bind, Option.bind_some, Keypad.isPressed]
  · rename_i h
    rw [Keypad.isPressed_of_le (Nat.le_of_not_lt h)]

theorem setKey_eq (k : Keypad) (key : Key) (down : Bool) :
    setKey k key down = some (k.set key down) := by
  simp only [setKey, shift_eq key.isLt, Option.bind_eq_bind, Option.bind_some, Keypad.set]
  cases down <;> rfl

end Chip8.Checked

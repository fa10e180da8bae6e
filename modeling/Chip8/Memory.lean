import Chip8.Error

/-! Byte memory. Every address means a cell: addresses are taken modulo the capacity, so no
instruction can reach outside. The font and the program are loaded as whole ranges, which must
fit as they stand. -/

namespace Chip8

structure Memory where
  cells : Array Byte
  fontStart : Nat
  programStart : Nat
  capacity_pos : 0 < cells.size

namespace Memory

def capacity (m : Memory) : Nat := m.cells.size

def zeros (capacity : Nat) (h : 0 < capacity) (fontStart programStart : Nat) : Memory :=
  ⟨Array.replicate capacity 0, fontStart, programStart, by simpa using h⟩

theorem mod_capacity_lt (m : Memory) (a : Nat) : a % m.cells.size < m.cells.size :=
  Nat.mod_lt a m.capacity_pos

def read (m : Memory) (a : Nat) : Byte :=
  have := m.mod_capacity_lt a
  m.cells[a % m.cells.size]

def fetch (m : Memory) (a : Nat) : Word := Word.ofBytes (m.read a) (m.read (a + 1))

def write (m : Memory) (a : Nat) (b : Byte) : Memory :=
  { m with
    cells := m.cells.set (a % m.cells.size) b (m.mod_capacity_lt a)
    capacity_pos := by simpa using m.capacity_pos }

def readBlock (m : Memory) (a count : Nat) : List Byte :=
  (List.range count).map fun k => m.read (a + k)

def writeBlock (m : Memory) (a : Nat) : List Byte → Memory
  | [] => m
  | b :: rest => (m.write a b).writeBlock (a + 1) rest

def clear (m : Memory) : Memory :=
  zeros m.capacity m.capacity_pos m.fontStart m.programStart

/-- A range that reaches past the last cell is not loaded at all. -/
def load (m : Memory) (region : Region) (offset : Nat) (bytes : Array Byte) :
    Except Error Memory :=
  if offset + bytes.size ≤ m.capacity then .ok (m.writeBlock offset bytes.toList)
  else .error (.outOfMemory region offset bytes.size m.capacity)

def loadFont (m : Memory) (glyphs : Array Byte) : Except Error Memory :=
  m.load .font m.fontStart glyphs

def loadProgram (m : Memory) (program : Array Byte) : Except Error Memory :=
  m.load .program m.programStart program

theorem capacity_write (m : Memory) (a : Nat) (b : Byte) :
    (m.write a b).capacity = m.capacity := by
  simp [capacity, write]

theorem read_write (m : Memory) (a c : Nat) (b : Byte) :
    (m.write a b).read c = if a % m.capacity = c % m.capacity then b else m.read c := by
  simp only [read, write, capacity, Array.size_set, Array.getElem_set]
  rfl

theorem capacity_writeBlock (m : Memory) (a : Nat) (bytes : List Byte) :
    (m.writeBlock a bytes).capacity = m.capacity := by
  induction bytes generalizing m a with
  | nil => rfl
  | cons b rest ih => rw [writeBlock, ih, capacity_write]

theorem read_clear (m : Memory) (a : Nat) : m.clear.read a = 0 := by
  simp [clear, read, zeros]

end Memory

end Chip8

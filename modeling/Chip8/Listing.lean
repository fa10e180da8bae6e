import Chip8.Assembly.Reader
import Chip8.Instruction.Describe
import Chip8.Instruction.Lemmas

/-! Assembly listings. A program is cut into lines of two bytes from its first byte on: an
instruction, a word that is none, or a last byte that stands alone. The assembly of a line tells
its bytes, so a listing can be assembled again. -/

namespace Chip8

inductive Cell where
  | instruction (i : Instruction)
  | word (w : Word)
  | byte (b : Byte)
  deriving DecidableEq, Repr

namespace Cell

def ofWord (w : Word) : Cell :=
  match Instruction.ofWord? w with
  | some i => instruction i
  | none => word w

def bytes : Cell → List Byte
  | instruction i => [i.word.high, i.word.low]
  | word w => [w.high, w.low]
  | byte b => [b]

def statement (dialect : Dialect) : Cell → Statement
  | instruction i => i.statement dialect
  | word w => ⟨"DW", [.word w]⟩
  | byte b => ⟨"DB", [.byte b]⟩

def ofStatement? : Statement → Option Cell
  | ⟨"DW", [.word w]⟩ => some (word w)
  | ⟨"DB", [.byte b]⟩ => some (byte b)
  | s => (Instruction.ofStatement? s).map instruction

/-- Only instructions have a comment. It stands behind a column of sixteen characters, or behind the
assembly if that is longer. -/
def comment (dialect : Dialect) : Cell → String
  | instruction i =>
    let gap := String.ofList (List.replicate (16 - (i.mnemonic dialect).length) ' ')
    s!"{gap} ; {i.describe}"
  | _ => ""

theorem ofStatement?_statement (dialect : Dialect) (c : Cell) :
    ofStatement? (c.statement dialect) = some c := by
  cases c with
  | instruction i =>
    have hi := i.ofStatement?_statement dialect
    rw [statement]
    unfold ofStatement?
    split
    -- no instruction is read from the two statements that stand for data
    · rename_i w heq
      rw [heq] at hi
      cases hi
    · rename_i b heq
      rw [heq] at hi
      cases hi
    · rw [hi]
      rfl
  | word w => rfl
  | byte b => rfl

theorem bytes_ofWord (w : Word) : (ofWord w).bytes = [w.high, w.low] := by
  unfold ofWord
  split
  · rw [bytes, Instruction.word_of_ofWord? ‹_›]
  · rfl

theorem isUpper_name (dialect : Dialect) (c : Cell) :
    ∀ x ∈ (c.statement dialect).name.toList, x.isUpper := by
  cases c with
  | instruction i => exact i.isUpper_name dialect
  | word w => simp [statement]
  | byte b => simp [statement]

theorem blank_not_mem_name (dialect : Dialect) (c : Cell) :
    ' ' ∉ (c.statement dialect).name.toList :=
  fun h => absurd (c.isUpper_name dialect _ h) (by decide)

end Cell

structure Line where
  address : Nat
  cell : Cell
  deriving DecidableEq, Repr

namespace Line

def at? (origin : Nat) (program : Array Byte) (cursor : Nat) : Option Line :=
  match Word.at? program cursor with
  | some w => some ⟨origin + cursor, Cell.ofWord w⟩
  | none => program[cursor]?.map fun b => ⟨origin + cursor, .byte b⟩

def digits (line : Line) : String :=
  let shown := String.join (line.cell.bytes.map fun b => Hex.padded 2 b.toNat)
  shown ++ String.ofList (List.replicate (4 - shown.length) ' ')

def assembly (dialect : Dialect) (line : Line) : String := (line.cell.statement dialect).text

def head (dialect : Dialect) (line : Line) : String :=
  s!"{Hex.padded 4 line.address}: {line.digits} {line.assembly dialect}"

def text (dialect : Dialect) (line : Line) : String :=
  line.head dialect ++ line.cell.comment dialect ++ "\n"

end Line

def listing (origin : Nat) (program : Array Byte) : List Line :=
  (List.range ((program.size + 1) / 2)).filterMap fun i => Line.at? origin program (2 * i)

def listingText (dialect : Dialect) (origin : Nat) (program : Array Byte) : String :=
  String.join ((listing origin program).map (Line.text dialect))

def assemble? (column : List String) : Option (List Byte) := do
  let statements ← column.mapM Statement.ofText?
  let cells ← statements.mapM Cell.ofStatement?
  return cells.flatMap Cell.bytes

end Chip8

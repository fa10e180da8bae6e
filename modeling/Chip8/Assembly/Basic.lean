import Chip8.Dialect
import Chip8.Instruction.Basic
import Chip8.Text.Hex

/-! Assembly. A statement is a name with operands; it is written with a blank behind the name and a
comma and a blank between the operands. Registers have one digit, bytes two, addresses three and
words four; the height of a sprite is decimal. The names and the shapes of the operands tell all
instructions apart, and the two data statements from them. -/

namespace Chip8

def Word.text (w : Word) : String := Hex.padded 4 w.toNat

def registerText (x : Digit) : String := String.ofList ['V', Hex.upperDigit x.val]

def byteText (b : Byte) : String := "0x" ++ Hex.padded 2 b.toNat

def addressText (a : ShortAddress) : String := "0x" ++ Hex.padded 3 a.val

inductive Operand where
  | register (x : Digit)
  | byte (b : Byte)
  | address (a : ShortAddress)
  | word (w : Word)
  | rows (n : Digit)
  -- the address register `I`
  | index
  -- the memory that `I` points to
  | indirect
  | delay
  | sound
  | key
  | glyph
  | decimal
  deriving DecidableEq, Repr

def Operand.text : Operand → String
  | register x => registerText x
  | byte b => byteText b
  | address a => addressText a
  | word w => "0x" ++ w.text
  | rows n => toString n.val
  | index => "I"
  | indirect => "[I]"
  | delay => "DT"
  | sound => "ST"
  | key => "K"
  | glyph => "F"
  | decimal => "B"

structure Statement where
  name : String
  operands : List Operand
  deriving DecidableEq, Repr

def Statement.text (s : Statement) : String :=
  match s.operands with
  | [] => s.name
  | operands => s.name ++ " " ++ ", ".intercalate (operands.map Operand.text)

def Alu.name : Alu → String
  | copy => "LD"
  | or => "OR"
  | and => "AND"
  | xor => "XOR"
  | add => "ADD"
  | sub => "SUB"
  | shiftRight => "SHR"
  | subFrom => "SUBN"
  | shiftLeft => "SHL"

theorem Alu.isUpper_name (op : Alu) : ∀ c ∈ op.name.toList, c.isUpper := by
  cases op <;> simp [name]

def Condition.statement : Condition → Statement
  | equalsByte x byte => ⟨"SE", [.register x, .byte byte]⟩
  | differsByte x byte => ⟨"SNE", [.register x, .byte byte]⟩
  | equals x y => ⟨"SE", [.register x, .register y]⟩
  | differs x y => ⟨"SNE", [.register x, .register y]⟩
  | keyDown x => ⟨"SKP", [.register x]⟩
  | keyUp x => ⟨"SKNP", [.register x]⟩

namespace Instruction

def offsetRegister (dialect : Dialect) (base : ShortAddress) : Digit :=
  if dialect.jumpAddsX then Fin.ofNat 16 (base.val / 256) else 0

def statement (dialect : Dialect) : Instruction → Statement
  | clearScreen => ⟨"CLS", []⟩
  | ret => ⟨"RET", []⟩
  | jump target => ⟨"JP", [.address target]⟩
  | call target => ⟨"CALL", [.address target]⟩
  | skip condition => condition.statement
  | loadByte x byte => ⟨"LD", [.register x, .byte byte]⟩
  | addByte x byte => ⟨"ADD", [.register x, .byte byte]⟩
  | alu op x y => ⟨op.name, [.register x, .register y]⟩
  | loadIndex target => ⟨"LD", [.index, .address target]⟩
  | jumpOffset base => ⟨"JP", [.register (offsetRegister dialect base), .address base]⟩
  | random x mask => ⟨"RND", [.register x, .byte mask]⟩
  | draw x y rows => ⟨"DRW", [.register x, .register y, .rows rows]⟩
  | readDelay x => ⟨"LD", [.register x, .delay]⟩
  | waitKey x => ⟨"LD", [.register x, .key]⟩
  | setDelay x => ⟨"LD", [.delay, .register x]⟩
  | setSound x => ⟨"LD", [.sound, .register x]⟩
  | addIndex x => ⟨"ADD", [.index, .register x]⟩
  | loadGlyph x => ⟨"LD", [.glyph, .register x]⟩
  | storeDecimal x => ⟨"LD", [.decimal, .register x]⟩
  | storeBlock x => ⟨"LD", [.indirect, .register x]⟩
  | loadBlock x => ⟨"LD", [.register x, .indirect]⟩

def mnemonic (dialect : Dialect) (i : Instruction) : String := (i.statement dialect).text

theorem isUpper_name (dialect : Dialect) (i : Instruction) :
    ∀ c ∈ (i.statement dialect).name.toList, c.isUpper := by
  cases i with
  | skip condition => cases condition <;> simp [statement, Condition.statement]
  | alu op x y => exact op.isUpper_name
  | _ => simp [statement]

end Instruction

end Chip8

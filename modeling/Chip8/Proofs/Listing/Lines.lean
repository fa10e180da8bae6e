import Chip8.Listing
import Chip8.Proofs.Text.Lines

/-! A listing line by line. Each line stands for the next two bytes of the program, or for the last
one alone, and nothing of the text runs over the end of a line. -/

namespace Chip8

theorem toString_string (s : String) : toString s = s := rfl

namespace OneLine

theorem word (w : Word) : OneLine w.text := padded 4 w.toNat

theorem register (x : Digit) : OneLine (registerText x) := by
  have hdigit : ∀ n < 16, '\n' ≠ Hex.upperDigit n := by decide
  simp [OneLine, registerText, hdigit x.val x.isLt]

theorem byte (b : Byte) : OneLine (byteText b) :=
  append_iff.2 ⟨by simp [OneLine], padded 2 b.toNat⟩

theorem address (a : ShortAddress) : OneLine (addressText a) :=
  append_iff.2 ⟨by simp [OneLine], padded 3 a.val⟩

theorem digit : ∀ n : Digit, OneLine (toString n.val) := by
  unfold OneLine
  decide +kernel

end OneLine

open OneLine

theorem Operand.oneLine_text (o : Operand) : OneLine o.text := by
  cases o with
  | register x => exact OneLine.register x
  | byte b => exact OneLine.byte b
  | address a => exact OneLine.address a
  | word w => exact append_iff.2 ⟨by simp [OneLine], OneLine.word w⟩
  | rows n => exact OneLine.digit n
  | _ => simp [OneLine, text]

theorem Statement.oneLine_text {s : Statement} (h : OneLine s.name) : OneLine s.text := by
  obtain ⟨name, operands⟩ := s
  cases operands with
  | nil => exact h
  | cons o os =>
    have hoperands : OneLine (", ".intercalate ((o :: os).map Operand.text)) := by
      refine OneLine.intercalate (by simp [OneLine]) fun l hl => ?_
      obtain ⟨o, -, rfl⟩ := List.mem_map.1 hl
      exact o.oneLine_text
    exact append_iff.2 ⟨append_iff.2 ⟨h, by simp [OneLine]⟩, hoperands⟩

theorem Alu.oneLine_describe (op : Alu) (x y : Digit) : OneLine (op.describe x y) := by
  cases op <;> unfold describe <;> simp only [toString_string, append_iff, register, and_true] <;>
    simp [OneLine]

theorem Condition.oneLine_describe (c : Condition) : OneLine c.describe := by
  cases c <;> unfold describe <;>
    simp only [toString_string, append_iff, register, byte, and_true] <;> simp [OneLine]

theorem Instruction.oneLine_describe (i : Instruction) : OneLine i.describe := by
  cases i with
  | alu op x y => exact op.oneLine_describe x y
  | _ =>
    unfold describe
    simp only [toString_string, append_iff, register, byte, address, digit,
      Condition.oneLine_describe, and_true]
    simp [OneLine]

namespace Cell

theorem oneLine_name (dialect : Dialect) (c : Cell) : OneLine (c.statement dialect).name :=
  fun h => absurd (c.isUpper_name dialect _ h) (by decide)

theorem oneLine_comment (dialect : Dialect) (c : Cell) : OneLine (c.comment dialect) := by
  cases c with
  | instruction i =>
    unfold comment
    simp only [toString_string, append_iff, blanks, i.oneLine_describe, and_true, true_and]
    simp [OneLine]
  | word w => simp [OneLine, comment]
  | byte b => simp [OneLine, comment]

end Cell

namespace Line

def shown (dialect : Dialect) (line : Line) : String :=
  line.head dialect ++ line.cell.comment dialect

theorem oneLine_digits (line : Line) : OneLine line.digits := by
  refine append_iff.2 ⟨join fun l hl => ?_, blanks _⟩
  obtain ⟨b, -, rfl⟩ := List.mem_map.1 hl
  exact padded 2 b.toNat

theorem oneLine_shown (dialect : Dialect) (line : Line) : OneLine (line.shown dialect) := by
  have hassembly : OneLine (line.assembly dialect) :=
    Statement.oneLine_text (line.cell.oneLine_name dialect)
  refine append_iff.2 ⟨?_, line.cell.oneLine_comment dialect⟩
  unfold head
  simp only [toString_string, append_iff, padded, line.oneLine_digits, hassembly, and_true,
    true_and]
  simp [OneLine]

end Line

theorem textLines_listingText (dialect : Dialect) (origin : Nat) (program : Array Byte) :
    textLines (listingText dialect origin program) =
      (listing origin program).map (Line.shown dialect) := by
  have htext : (listing origin program).map (Line.text dialect) =
      ((listing origin program).map (Line.shown dialect)).map (· ++ "\n") := by
    rw [List.map_map]
    rfl
  rw [listingText, htext, textLines_join]
  intro l hl
  obtain ⟨line, -, rfl⟩ := List.mem_map.1 hl
  exact line.oneLine_shown dialect

end Chip8

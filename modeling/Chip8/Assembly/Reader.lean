import Chip8.Assembly.Basic

/-! Reading assembly back. A text is cut at its blanks and commas, each operand is told by its
shape, and the name with the kinds of its operands tells the instruction. What was written is read
as what it was written for: `Operand.ofText?_text`, `Statement.ofText?_text` and
`Instruction.ofStatement?_statement`. -/

namespace Chip8

def Operand.ofText? : List Char → Option Operand
  | ['I'] => some index
  | ['[', 'I', ']'] => some indirect
  | ['D', 'T'] => some delay
  | ['S', 'T'] => some sound
  | ['K'] => some key
  | ['F'] => some glyph
  | ['B'] => some decimal
  | ['V', x] => (Hex.digit? x).map fun n => register (Fin.ofNat 16 n)
  | ['0', 'x', a, b] => (Hex.readFrom 0 [a, b]).map fun n => byte (UInt8.ofNat n)
  | ['0', 'x', a, b, c] => (Hex.readFrom 0 [a, b, c]).map fun n => address (Fin.ofNat 4096 n)
  | ['0', 'x', a, b, c, d] => (Hex.readFrom 0 [a, b, c, d]).map fun n => word (UInt16.ofNat n)
  | [n] => if n.isDigit then some (rows (Fin.ofNat 16 (n.toNat - 48))) else none
  | ['1', n] => if n.isDigit then some (rows (Fin.ofNat 16 (n.toNat - 38))) else none
  | _ => none

theorem Operand.toList_register (x : Digit) :
    (register x).text.toList = ['V', Hex.upperDigit x.val] :=
  String.toList_ofList

theorem Operand.toList_byte (b : Byte) :
    (byte b).text.toList = '0' :: 'x' :: Hex.lastDigits 2 b.toNat := by
  rw [text, byteText, String.toList_append, Hex.toList_padded (by decide) b.toNat_lt]
  rfl

theorem Operand.toList_address (a : ShortAddress) :
    (address a).text.toList = '0' :: 'x' :: Hex.lastDigits 3 a.val := by
  rw [text, addressText, String.toList_append, Hex.toList_padded (by decide) a.isLt]
  rfl

theorem Operand.toList_word (w : Word) :
    (word w).text.toList = '0' :: 'x' :: Hex.lastDigits 4 w.toNat := by
  rw [text, Word.text, String.toList_append, Hex.toList_padded (by decide) w.toNat_lt]
  rfl

theorem Operand.ofText?_rows : ∀ n : Digit, ofText? (rows n).text.toList = some (rows n) := by
  decide +kernel

theorem Operand.ofText?_text (o : Operand) : ofText? o.text.toList = some o := by
  cases o with
  | register x =>
    rw [toList_register]
    show (Hex.digit? (Hex.upperDigit x.val)).map _ = _
    rw [Hex.digit?_upperDigit x.val x.isLt, Option.map_some, Fin.ofNat_val_eq_self]
  | byte b =>
    rw [toList_byte]
    show (Hex.readFrom 0 (Hex.lastDigits 2 b.toNat)).map _ = _
    rw [Hex.readFrom_lastDigits_of_lt b.toNat_lt, Option.map_some, UInt8.ofNat_toNat]
  | address a =>
    rw [toList_address]
    show (Hex.readFrom 0 (Hex.lastDigits 3 a.val)).map _ = _
    rw [Hex.readFrom_lastDigits_of_lt a.isLt, Option.map_some, Fin.ofNat_val_eq_self]
  | word w =>
    rw [toList_word]
    show (Hex.readFrom 0 (Hex.lastDigits 4 w.toNat)).map _ = _
    rw [Hex.readFrom_lastDigits_of_lt w.toNat_lt, Option.map_some, UInt16.ofNat_toNat]
  | rows n => exact ofText?_rows n
  | _ => rfl

theorem Operand.comma_not_mem_rows : ∀ n : Digit, ',' ∉ (rows n).text.toList := by
  decide +kernel

theorem Operand.comma_not_mem_text (o : Operand) : ',' ∉ o.text.toList := by
  cases o with
  | register x =>
    have hx := Hex.upperDigit_ne_comma x.val x.isLt
    simp [toList_register, hx.symm]
  | byte b => simp [toList_byte, Hex.comma_not_mem_lastDigits]
  | address a => simp [toList_address, Hex.comma_not_mem_lastDigits]
  | word w => simp [toList_word, Hex.comma_not_mem_lastDigits]
  | rows n => exact comma_not_mem_rows n
  | _ => decide

def splitOperands : List Char → List (List Char)
  | [] => [[]]
  | ',' :: ' ' :: rest => [] :: splitOperands rest
  | c :: rest => (splitOperands rest).modifyHead (c :: ·)

theorem splitOperands_cons {c : Char} (cs : List Char) (h : c ≠ ',') :
    splitOperands (c :: cs) = (splitOperands cs).modifyHead (c :: ·) := by
  rw [splitOperands]
  intro _ hc
  exact absurd hc h

theorem splitOperands_of_not_mem {t : List Char} (h : ',' ∉ t) : splitOperands t = [t] := by
  induction t with
  | nil => rfl
  | cons c cs ih =>
    obtain ⟨hc, hcs⟩ := List.ne_and_not_mem_of_not_mem_cons h
    rw [splitOperands_cons cs hc.symm, ih hcs]
    rfl

theorem splitOperands_append {t : List Char} (rest : List Char) (h : ',' ∉ t) :
    splitOperands (t ++ ',' :: ' ' :: rest) = t :: splitOperands rest := by
  induction t with
  | nil => rfl
  | cons c cs ih =>
    obtain ⟨hc, hcs⟩ := List.ne_and_not_mem_of_not_mem_cons h
    rw [List.cons_append, splitOperands_cons _ hc.symm, ih hcs]
    rfl

theorem splitOperands_intercalate {ts : List (List Char)} (hne : ts ≠ [])
    (h : ∀ t ∈ ts, ',' ∉ t) : splitOperands ([',', ' '].intercalate ts) = ts := by
  induction ts with
  | nil => exact absurd rfl hne
  | cons t ts ih =>
    have ht := h t List.mem_cons_self
    cases ts with
    | nil => simpa using splitOperands_of_not_mem ht
    | cons u us =>
      have hus := ih (List.cons_ne_nil u us) fun x hx => h x (List.mem_cons_of_mem t hx)
      have hcut : [',', ' '].intercalate (t :: u :: us) =
          t ++ ',' :: ' ' :: [',', ' '].intercalate (u :: us) := by simp
      rw [hcut, splitOperands_append _ ht, hus]

def Statement.ofText? (text : String) : Option Statement :=
  let name := text.toList.takeWhile (· ≠ ' ')
  match text.toList.dropWhile (· ≠ ' ') with
  | [] => some ⟨String.ofList name, []⟩
  | _ :: rest => ((splitOperands rest).mapM Operand.ofText?).map (⟨String.ofList name, ·⟩)

theorem mapM_map_eq_some {α β γ : Type} {write : α → β} {read : β → Option γ} {meaning : α → γ}
    (h : ∀ a, read (write a) = some (meaning a)) (items : List α) :
    (items.map write).mapM read = some (items.map meaning) := by
  have hread : read ∘ write = fun a => some (meaning a) := funext h
  rw [List.mapM_map, hread]
  exact List.mapM_pure

theorem Statement.mapM_ofText? (operands : List Operand) :
    (operands.map fun o => o.text.toList).mapM Operand.ofText? = some operands := by
  rw [mapM_map_eq_some Operand.ofText?_text, List.map_id']

theorem takeWhile_dropWhile_append {name : List Char} (rest : List Char) (h : ' ' ∉ name)
    (hr : ∀ c ∈ rest.head?, c = ' ') :
    (name ++ rest).takeWhile (· ≠ ' ') = name ∧ (name ++ rest).dropWhile (· ≠ ' ') = rest := by
  induction name with
  | nil => cases rest <;> simp_all
  | cons c cs ih =>
    obtain ⟨hc, hcs⟩ := List.ne_and_not_mem_of_not_mem_cons h
    have hp : decide (c ≠ ' ') = true := decide_eq_true hc.symm
    simp only [List.cons_append, List.takeWhile_cons, List.dropWhile_cons, hp, if_true, ih hcs,
      and_self]

theorem Statement.ofText?_text {s : Statement} (h : ' ' ∉ s.name.toList) :
    ofText? s.text = some s := by
  obtain ⟨name, operands⟩ := s
  cases operands with
  | nil =>
    obtain ⟨ht, hd⟩ := takeWhile_dropWhile_append [] h (by simp)
    rw [List.append_nil] at ht hd
    simp only [text, ofText?, ht, hd, String.ofList_toList]
  | cons o os =>
    let texts := (o :: os).map fun o => o.text.toList
    have hcut : (text ⟨name, o :: os⟩).toList =
        name.toList ++ ' ' :: [',', ' '].intercalate texts := by
      simp [text, texts, Function.comp_def]
    have hsplit : splitOperands ([',', ' '].intercalate texts) = texts := by
      refine splitOperands_intercalate (by simp [texts]) ?_
      intro t ht
      obtain ⟨o, -, rfl⟩ := List.mem_map.1 ht
      exact o.comma_not_mem_text
    obtain ⟨ht, hd⟩ :=
      takeWhile_dropWhile_append (' ' :: [',', ' '].intercalate texts) h (by simp)
    simp only [ofText?, hcut, ht, hd, hsplit, texts, mapM_ofText?, Option.map_some,
      String.ofList_toList]

/-- The instruction that a statement means in any dialect: `BNNN` is told by its address alone. -/
def Instruction.ofStatement? : Statement → Option Instruction
  | ⟨"CLS", []⟩ => some clearScreen
  | ⟨"RET", []⟩ => some ret
  | ⟨"JP", [.address a]⟩ => some (jump a)
  | ⟨"JP", [.register _, .address a]⟩ => some (jumpOffset a)
  | ⟨"CALL", [.address a]⟩ => some (call a)
  | ⟨"SE", [.register x, .byte b]⟩ => some (skip (.equalsByte x b))
  | ⟨"SE", [.register x, .register y]⟩ => some (skip (.equals x y))
  | ⟨"SNE", [.register x, .byte b]⟩ => some (skip (.differsByte x b))
  | ⟨"SNE", [.register x, .register y]⟩ => some (skip (.differs x y))
  | ⟨"SKP", [.register x]⟩ => some (skip (.keyDown x))
  | ⟨"SKNP", [.register x]⟩ => some (skip (.keyUp x))
  | ⟨"LD", [.register x, .byte b]⟩ => some (loadByte x b)
  | ⟨"LD", [.register x, .register y]⟩ => some (alu .copy x y)
  | ⟨"LD", [.register x, .delay]⟩ => some (readDelay x)
  | ⟨"LD", [.register x, .key]⟩ => some (waitKey x)
  | ⟨"LD", [.register x, .indirect]⟩ => some (loadBlock x)
  | ⟨"LD", [.index, .address a]⟩ => some (loadIndex a)
  | ⟨"LD", [.delay, .register x]⟩ => some (setDelay x)
  | ⟨"LD", [.sound, .register x]⟩ => some (setSound x)
  | ⟨"LD", [.glyph, .register x]⟩ => some (loadGlyph x)
  | ⟨"LD", [.decimal, .register x]⟩ => some (storeDecimal x)
  | ⟨"LD", [.indirect, .register x]⟩ => some (storeBlock x)
  | ⟨"ADD", [.register x, .byte b]⟩ => some (addByte x b)
  | ⟨"ADD", [.register x, .register y]⟩ => some (alu .add x y)
  | ⟨"ADD", [.index, .register x]⟩ => some (addIndex x)
  | ⟨"OR", [.register x, .register y]⟩ => some (alu .or x y)
  | ⟨"AND", [.register x, .register y]⟩ => some (alu .and x y)
  | ⟨"XOR", [.register x, .register y]⟩ => some (alu .xor x y)
  | ⟨"SUB", [.register x, .register y]⟩ => some (alu .sub x y)
  | ⟨"SHR", [.register x, .register y]⟩ => some (alu .shiftRight x y)
  | ⟨"SUBN", [.register x, .register y]⟩ => some (alu .subFrom x y)
  | ⟨"SHL", [.register x, .register y]⟩ => some (alu .shiftLeft x y)
  | ⟨"RND", [.register x, .byte b]⟩ => some (random x b)
  | ⟨"DRW", [.register x, .register y, .rows n]⟩ => some (draw x y n)
  | _ => none

theorem Instruction.ofStatement?_statement (dialect : Dialect) (i : Instruction) :
    ofStatement? (i.statement dialect) = some i := by
  cases i with
  | skip condition => cases condition <;> rfl
  | alu op x y => cases op <;> rfl
  | _ => rfl

end Chip8

import Chip8.Proofs.Machine.Boot
import Chip8.Proofs.Machine.Step

/-! Where dialects part. A step consults at most one of the switches of a dialect, and what comes of
it in another dialect differs in what the switch is about and in nothing else. -/

namespace Chip8

inductive Switch where
  | shift
  | jump
  | block
  | sum
  deriving DecidableEq, Repr

instance : Fintype Switch := ⟨{.shift, .jump, .block, .sum}, fun s => by cases s <;> decide⟩

def Dialect.has (d : Dialect) : Switch → Bool
  | .shift => d.shiftReadsY
  | .jump => d.jumpAddsX
  | .block => d.blockMovesIndex
  | .sum => d.indexFlagsOverflow

def Instruction.Settled : Instruction → Prop
  | .alu .shiftRight .. | .alu .shiftLeft .. | .jumpOffset _ | .addIndex _ | .storeBlock _
  | .loadBlock _ => False
  | _ => True

theorem Instruction.offsetRegister_address (d : Dialect) (w : Word) :
    offsetRegister d w.address = if d.jumpAddsX then w.x else 0 := by
  have hx : Fin.ofNat 16 (w.address.val / 256) = w.x := by
    simp only [Word.address, Word.x, Fin.ext_iff, Fin.val_ofNat]
    omega
  rw [offsetRegister, hx]

namespace Registers

theorem setWithFlag_setWithFlag (r : Registers) (x : Digit) (a b : Byte) (on off : Bool) :
    (r.setWithFlag x a on).setWithFlag x b off = r.setWithFlag x b off := by
  refine ext_get rfl fun k => ?_
  simp only [setWithFlag, setFlag, get_set]
  split_ifs <;> rfl

end Registers

theorem Alu.apply_congr {op : Alu} {d d' : Dialect} {a b : Byte}
    (h : (if d.shiftReadsY then b else a) = if d'.shiftReadsY then b else a) :
    op.apply d a b = op.apply d' a b := by
  unfold apply
  rw [h]

namespace Machine

def speaking (m : Machine) (d : Dialect) : Machine := { m with dialect := d }

/-- What the next step comes to depends on the switch. -/
def Consults (m : Machine) : Switch → Prop
  | .shift => m.word.t = 0x8 ∧ (m.word.n = 0x6 ∨ m.word.n = 0xE) ∧
      m.registers.get m.word.x ≠ m.registers.get m.word.y
  | .jump => m.word.t = 0xB ∧ m.registers.get 0 ≠ m.registers.get m.word.x
  | .block => m.word.t = 0xF ∧ (m.word.low = 0x55 ∨ m.word.low = 0x65)
  | .sum => m.word.t = 0xF ∧ m.word.low = 0x1E

instance (m : Machine) : (s : Switch) → Decidable (m.Consults s)
  | .shift => inferInstanceAs (Decidable (_ ∧ (_ ∨ _) ∧ _ ≠ _))
  | .jump => inferInstanceAs (Decidable (_ ∧ _ ≠ _))
  | .block => inferInstanceAs (Decidable (_ ∧ (_ ∨ _)))
  | .sum => inferInstanceAs (Decidable (_ ∧ _))

def PartsOver (m : Machine) (d : Dialect) (s : Switch) : Prop :=
  m.Consults s ∧ m.dialect.has s ≠ d.has s

instance (m : Machine) (d : Dialect) (s : Switch) : Decidable (m.PartsOver d s) :=
  inferInstanceAs (Decidable (_ ∧ _))

/-- What the step from `m` that comes to `n` can come to in another dialect. -/
inductive Renders (m : Machine) (d : Dialect) (n : Machine) : Machine → Prop
  | same : Renders m d n (n.speaking d)
  | shift (parts : m.PartsOver d .shift) (value : Byte) (on : Bool) :
    Renders m d n
      { n.speaking d with registers := n.registers.setWithFlag m.word.x value on }
  | jump (parts : m.PartsOver d .jump) (a : Word) : Renders m d n { n.speaking d with pc := a }
  | block (parts : m.PartsOver d .block) :
    Renders m d n
      { n.speaking d with
        registers := n.registers.setIndex
          (if d.blockMovesIndex then n.registers.index + UInt16.ofNat (m.word.x.val + 1)
          else n.registers.index - UInt16.ofNat (m.word.x.val + 1)) }
  | sum (parts : m.PartsOver d .sum) (f : Byte) :
    Renders m d n { n.speaking d with registers := n.registers.set Registers.flag f }

variable {m : Machine} {d : Dialect}

theorem execute_speaking {i : Instruction} (h : i.Settled) (m : Machine) (d : Dialect)
    (keys : Keypad) (address : Word) :
    (m.speaking d).execute keys address i =
      ((m.execute keys address i).1.speaking d, (m.execute keys address i).2) := by
  cases i with
  | ret =>
    simp only [execute, ret, speaking]
    split <;> rfl
  | call target =>
    simp only [execute, call, speaking]
    split <;> rfl
  | skip condition =>
    have hholds : condition.holds keys (m.speaking d).registers =
        condition.holds keys m.registers := rfl
    rw [execute, execute, hholds]
    cases condition.holds keys m.registers <;> rfl
  | waitKey x =>
    simp only [execute, waitKey, speaking]
    split <;> rfl
  | alu op x y =>
    cases op with
    | shiftRight | shiftLeft => exact h.elim
    | _ => rfl
  | jumpOffset | addIndex | storeBlock | loadBlock => exact h.elim
  | _ => rfl

theorem applyAlu_speaking {op : Alu} {x y : Digit}
    (h : op.apply d (m.registers.get x) (m.registers.get y) =
      op.apply m.dialect (m.registers.get x) (m.registers.get y)) :
    (m.speaking d).applyAlu op x y = (m.applyAlu op x y).speaking d := by
  have hspeaking : op.apply (m.speaking d).dialect ((m.speaking d).registers.get x)
      ((m.speaking d).registers.get y) =
      op.apply m.dialect (m.registers.get x) (m.registers.get y) := h
  unfold applyAlu
  rw [hspeaking]
  split <;> rfl

theorem addIndex_speaking (h : m.dialect.indexFlagsOverflow = d.indexFlagsOverflow) (x : Digit) :
    (m.speaking d).addIndex x = (m.addIndex x).speaking d := by
  have hspeaking : (m.speaking d).dialect.indexFlagsOverflow = m.dialect.indexFlagsOverflow :=
    h.symm
  unfold addIndex
  rw [hspeaking]
  rfl

theorem indexAfterBlock_speaking (h : m.dialect.blockMovesIndex = d.blockMovesIndex) (x : Digit) :
    (m.speaking d).indexAfterBlock x = m.indexAfterBlock x := by
  have hspeaking : (m.speaking d).dialect.blockMovesIndex = m.dialect.blockMovesIndex := h.symm
  unfold indexAfterBlock
  rw [hspeaking]
  rfl

theorem indexAfterBlock_speaking_of_ne (h : m.dialect.blockMovesIndex ≠ d.blockMovesIndex)
    (x : Digit) :
    (m.speaking d).indexAfterBlock x =
      if d.blockMovesIndex then m.indexAfterBlock x + UInt16.ofNat (x.val + 1)
      else m.indexAfterBlock x - UInt16.ofNat (x.val + 1) := by
  unfold indexAfterBlock speaking
  dsimp only
  cases hm : m.dialect.blockMovesIndex <;> cases hd : d.blockMovesIndex
  · exact absurd (hm.trans hd.symm) h
  · rfl
  · simp
  · exact absurd (hm.trans hd.symm) h

namespace Renders

theorem of_eq {n o : Machine} (h : o = n.speaking d) : Renders m d n o := h ▸ .same

theorem setWithFlag (parts : m.PartsOver d .shift) (n : Machine) (a b : Byte) (on off : Bool) :
    Renders m d { n with registers := n.registers.setWithFlag m.word.x a on }
      { n.speaking d with registers := n.registers.setWithFlag m.word.x b off } := by
  have h := @shift m d { n with registers := n.registers.setWithFlag m.word.x a on } parts b off
  dsimp only at h
  rwa [Registers.setWithFlag_setWithFlag] at h

variable {op : Alu} {a : Word}

theorem applyAlu (ht : m.word.t = 0x8) (hn : m.word.n = 0x6 ∨ m.word.n = 0xE)
    (hop : op = .shiftRight ∨ op = .shiftLeft) :
    Renders m d ({ m with pc := a }.applyAlu op m.word.x m.word.y)
      (({ m with pc := a }.speaking d).applyAlu op m.word.x m.word.y) := by
  by_cases hshifted : (if d.shiftReadsY then m.registers.get m.word.y
      else m.registers.get m.word.x) =
      if m.dialect.shiftReadsY then m.registers.get m.word.y else m.registers.get m.word.x
  · exact of_eq (applyAlu_speaking (Alu.apply_congr hshifted))
  · have hparts : m.PartsOver d .shift := by
      refine ⟨⟨ht, hn, fun hvalues => hshifted ?_⟩, fun hswitch => hshifted ?_⟩
      · rw [hvalues, ite_self, ite_self]
      · rw [show m.dialect.shiftReadsY = d.shiftReadsY from hswitch]
    rcases hop with rfl | rfl
    · exact setWithFlag hparts { m with pc := a } ..
    · exact setWithFlag hparts { m with pc := a } ..

theorem jumpOffset (ht : m.word.t = 0xB) :
    Renders m d
      { m with
        pc := UInt16.ofNat (m.word.address.val +
          (m.registers.get (Instruction.offsetRegister m.dialect m.word.address)).toNat) }
      { m.speaking d with
        pc := UInt16.ofNat (m.word.address.val +
          (m.registers.get (Instruction.offsetRegister d m.word.address)).toNat) } := by
  rw [Instruction.offsetRegister_address, Instruction.offsetRegister_address]
  by_cases hoffset : m.registers.get (if d.jumpAddsX then m.word.x else 0) =
      m.registers.get (if m.dialect.jumpAddsX then m.word.x else 0)
  · rw [hoffset]
    exact .same
  · refine .jump ⟨⟨ht, fun hvalues => hoffset ?_⟩, fun hswitch => hoffset ?_⟩ _
    · split_ifs
      exacts [rfl, hvalues.symm, hvalues, rfl]
    · rw [show m.dialect.jumpAddsX = d.jumpAddsX from hswitch]

theorem setIndex (ht : m.word.t = 0xF) (hlow : m.word.low = 0x55 ∨ m.word.low = 0x65) (n : Machine)
    (r : Registers) :
    Renders m d { n with registers := r.setIndex (m.indexAfterBlock m.word.x) }
      { n.speaking d with
        registers := r.setIndex ((m.speaking d).indexAfterBlock m.word.x) } := by
  by_cases hswitch : m.dialect.blockMovesIndex = d.blockMovesIndex
  · rw [indexAfterBlock_speaking hswitch]
    exact .same
  · rw [indexAfterBlock_speaking_of_ne hswitch]
    exact block ⟨⟨ht, hlow⟩, hswitch⟩

theorem setFlag (parts : m.PartsOver d .sum) (n : Machine) (on flags flags' : Bool) :
    Renders m d { n with registers := if flags then n.registers.setFlag on else n.registers }
      { n.speaking d with
        registers := if flags' then n.registers.setFlag on else n.registers } := by
  cases flags <;> cases flags'
  · exact .same
  · exact .sum parts _
  · -- the flag goes back to what it was
    have h := @sum m d { n with registers := n.registers.setFlag on } parts
      (n.registers.get Registers.flag)
    dsimp only [Registers.setFlag] at h
    rw [Registers.set_set, Registers.set_get] at h
    exact h
  · exact .same

theorem addIndex (ht : m.word.t = 0xF) (hlow : m.word.low = 0x1E) :
    Renders m d ({ m with pc := a }.addIndex m.word.x)
      (({ m with pc := a }.speaking d).addIndex m.word.x) := by
  by_cases hswitch : m.dialect.indexFlagsOverflow = d.indexFlagsOverflow
  · exact of_eq (addIndex_speaking (m := { m with pc := a }) hswitch _)
  · have hparts : m.PartsOver d .sum := ⟨⟨ht, hlow⟩, hswitch⟩
    let sum := m.registers.index.toNat + (m.registers.get m.word.x).toNat
    exact setFlag hparts
      { m with pc := a, registers := m.registers.setIndex (UInt16.ofNat sum) } _ _ _

theorem eq_speaking {n o : Machine} (h : Renders m d n o) (hparts : ∀ s, ¬m.PartsOver d s) :
    o = n.speaking d := by
  cases h with
  | same => rfl
  | shift parts => exact absurd parts (hparts _)
  | jump parts => exact absurd parts (hparts _)
  | block parts => exact absurd parts (hparts _)
  | sum parts => exact absurd parts (hparts _)

end Renders

theorem step_renders (m : Machine) (d : Dialect) (keys : Keypad) :
    ((m.speaking d).step keys).2 = (m.step keys).2 ∧
      Renders m d (m.step keys).1 ((m.speaking d).step keys).1 := by
  cases hw : Instruction.ofWord? m.word with
  | none =>
    have hspeaking : Instruction.ofWord? (m.speaking d).word = none := hw
    rw [step_of_ofWord?_eq_none hw, step_of_ofWord?_eq_none hspeaking]
    exact ⟨rfl, .same⟩
  | some i =>
    have hspeaking : Instruction.ofWord? (m.speaking d).word = some i := hw
    have hword : m.word = i.word := Instruction.ofWord?_eq_some_iff.1 hw
    have hbehind : { m.speaking d with pc := (m.speaking d).pc + 2 } =
        { m with pc := m.pc + 2 }.speaking d := rfl
    rw [step_of_ofWord? hw, step_of_ofWord? hspeaking, hbehind]
    by_cases hsettled : i.Settled
    · rw [show (m.speaking d).pc = m.pc from rfl, execute_speaking hsettled]
      exact ⟨rfl, .same⟩
    · cases i with
      | alu op x y =>
        obtain ⟨ht, rfl, rfl, hn⟩ := (Instruction.eq_digitWord_iff (t := 0x8)).1 hword
        cases op with
        | shiftRight => exact ⟨rfl, .applyAlu ht (.inl hn) (.inl rfl)⟩
        | shiftLeft => exact ⟨rfl, .applyAlu ht (.inr hn) (.inr rfl)⟩
        | _ => exact absurd trivial hsettled
      | jumpOffset base =>
        obtain ⟨ht, rfl⟩ := (Instruction.eq_addressWord_iff (t := 0xB)).1 hword
        exact ⟨rfl, .jumpOffset ht⟩
      | addIndex x =>
        obtain ⟨ht, hlow, rfl⟩ := (Instruction.eq_byteWord_iff (t := 0xF)).1 hword
        exact ⟨rfl, .addIndex ht hlow⟩
      | storeBlock x =>
        obtain ⟨ht, hlow, rfl⟩ := (Instruction.eq_byteWord_iff (t := 0xF)).1 hword
        exact ⟨rfl, .setIndex ht (.inl hlow) ({ m with pc := m.pc + 2 }.storeBlock m.word.x)
          m.registers⟩
      | loadBlock x =>
        obtain ⟨ht, hlow, rfl⟩ := (Instruction.eq_byteWord_iff (t := 0xF)).1 hword
        exact ⟨rfl, .setIndex ht (.inr hlow) { m with pc := m.pc + 2 } _⟩
      | _ => exact absurd trivial hsettled

theorem step_speaking (h : ∀ s, ¬m.PartsOver d s) (keys : Keypad) :
    (m.speaking d).step keys = ((m.step keys).1.speaking d, (m.step keys).2) := by
  obtain ⟨hresult, hrenders⟩ := step_renders m d keys
  exact Prod.ext (hrenders.eq_speaking h) hresult

theorem boot_speaking (c : Config) (d : Dialect) (glyphs program : Array Byte)
    (entropy : Random.Key) :
    boot { c with dialect := d } glyphs program entropy =
      (boot c glyphs program entropy).map fun m => m.speaking d := by
  by_cases h : 0 < c.memorySize
  · have hspeaking : 0 < { c with dialect := d }.memorySize := h
    rw [boot_eq _ hspeaking, boot_eq c h]
    dsimp only
    split_ifs <;> rfl
  · unfold boot
    dsimp only
    rw [dif_neg h, dif_neg h]
    rfl

end Machine

end Chip8

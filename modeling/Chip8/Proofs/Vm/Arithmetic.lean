import Chip8.Proofs.Machine.Step
import Chip8.Proofs.Vm.Fits

/-! Arithmetic with a flag. The result and the flag of an operation together tell the exact sum,
difference or product, also when `VX` and `VY` are the same register or one of them is the flag. -/

namespace Chip8

theorem toNat_decide (p : Prop) [Decidable p] : (decide p).toNat = if p then 1 else 0 :=
  Bool.cond_decide ..

namespace Alu

def setsFlag : Alu → Bool
  | add | sub | shiftRight | subFrom | shiftLeft => true
  | copy | or | and | xor => false

/-- How the result `r` and the flag `f` belong to the values `a` of `VX` and `b` of `VY`. The flag
of a difference tells that nothing was borrowed. -/
def Law (dialect : Dialect) (a b r f : Nat) : Alu → Prop
  | copy => r = b
  | or => r = a ||| b
  | and => r = a &&& b
  | xor => r = a ^^^ b
  | add => a + b = r + 256 * f
  | sub => a + 256 * (1 - f) = b + r
  | subFrom => b + 256 * (1 - f) = a + r
  | shiftRight => (if dialect.shiftReadsY then b else a) = 2 * r + f
  | shiftLeft => 2 * (if dialect.shiftReadsY then b else a) = r + 256 * f

theorem add_law (a b : Byte) :
    a.toNat + b.toNat = (a + b).toNat + 256 * (decide (256 ≤ a.toNat + b.toNat)).toNat := by
  have ha := a.toNat_lt
  have hb := b.toNat_lt
  rw [UInt8.toNat_add, toNat_decide]
  split <;> omega

theorem sub_law (a b : Byte) :
    a.toNat + 256 * (1 - (decide (b.toNat ≤ a.toNat)).toNat) = b.toNat + (a - b).toNat := by
  have ha := a.toNat_lt
  have hb := b.toNat_lt
  rw [UInt8.toNat_sub, toNat_decide]
  split <;> omega

theorem shiftRight_law (b : Byte) :
    b.toNat = 2 * (UInt8.ofNat (b.toNat / 2)).toNat + (decide (b.toNat % 2 = 1)).toNat := by
  have hb := b.toNat_lt
  rw [UInt8.toNat_ofNat', toNat_decide]
  split <;> omega

theorem shiftLeft_law (b : Byte) :
    2 * b.toNat = (UInt8.ofNat (2 * b.toNat)).toNat + 256 * (decide (128 ≤ b.toNat)).toNat := by
  have hb := b.toNat_lt
  rw [UInt8.toNat_ofNat', toNat_decide]
  split <;> omega

theorem law_apply (op : Alu) (dialect : Dialect) (a b : Byte) :
    op.Law dialect a.toNat b.toNat (op.apply dialect a b).1.toNat
      ((op.apply dialect a b).2.getD false).toNat := by
  cases op with
  | copy => rfl
  | or => exact UInt8.toNat_or a b
  | and => exact UInt8.toNat_and a b
  | xor => exact UInt8.toNat_xor a b
  | add => exact add_law a b
  | sub => exact sub_law a b
  | subFrom => exact sub_law b a
  | shiftRight =>
    unfold Law apply
    dsimp only
    split
    · exact shiftRight_law b
    · exact shiftRight_law a
  | shiftLeft =>
    unfold Law apply
    dsimp only
    split
    · exact shiftLeft_law b
    · exact shiftLeft_law a

end Alu

theorem Registers.get_setWithFlag (r : Registers) (x : Digit) (value : Byte) (on : Bool)
    (k : Digit) :
    (r.setWithFlag x value on).get k =
      if flag = k then if on then 1 else 0 else if x = k then value else r.get k := by
  rw [setWithFlag, setFlag, get_set, get_set]

namespace Machine

variable {m : Machine} {op : Alu}

theorem applyAlu_of_setsFlag (h : op.setsFlag = true) (m : Machine) (x y : Digit) :
    let result := op.apply m.dialect (m.registers.get x) (m.registers.get y)
    m.applyAlu op x y =
      { m with registers := m.registers.setWithFlag x result.1 (result.2.getD false) } := by
  cases op with
  | add | sub | shiftRight | subFrom | shiftLeft => rfl
  | copy | or | and | xor => cases h

theorem applyAlu_of_not_setsFlag (h : op.setsFlag = false) (m : Machine) (x y : Digit) :
    m.applyAlu op x y =
      { m with
        registers := m.registers.set x
          (op.apply m.dialect (m.registers.get x) (m.registers.get y)).1 } := by
  cases op with
  | add | sub | shiftRight | subFrom | shiftLeft => cases h
  | copy | or | and | xor => rfl

variable {x y : Digit}

theorem step_of_setsFlag (hop : op.setsFlag = true)
    (hword : m.word = (Instruction.alu op x y).word) (keys : Keypad) :
    ∃ n r f, m.step keys = (n, .ok .ok) ∧ r < 256 ∧ f ≤ 1 ∧
      op.Law m.dialect (m.registers.get x).toNat (m.registers.get y).toNat r f ∧
      (n.registers.get 0xF).toNat = f ∧ (x ≠ 0xF → (n.registers.get x).toNat = r) ∧
      n.registers.index = m.registers.index ∧
      ∀ k, k ≠ x → k ≠ 0xF → n.registers.get k = m.registers.get k := by
  have hstep := step_of_word hword keys
  rw [execute, applyAlu_of_setsFlag hop] at hstep
  have hlaw := op.law_apply m.dialect (m.registers.get x) (m.registers.get y)
  refine ⟨_, _, _, hstep, UInt8.toNat_lt _, Bool.toNat_le _, hlaw, ?_, fun hx => ?_, rfl,
    fun k hkx hk => ?_⟩
  · rw [Registers.get_setWithFlag]
    generalize Option.getD _ false = on
    cases on <;> rfl
  · rw [Registers.get_setWithFlag]
    exact congrArg UInt8.toNat ((if_neg hx.symm).trans (if_pos rfl))
  · rw [Registers.get_setWithFlag]
    exact (if_neg hk.symm).trans (if_neg hkx.symm)

theorem step_of_not_setsFlag (hop : op.setsFlag = false)
    (hword : m.word = (Instruction.alu op x y).word) (keys : Keypad) :
    ∃ n, m.step keys = (n, .ok .ok) ∧ n.registers.index = m.registers.index ∧
      ∀ k ≠ x, n.registers.get k = m.registers.get k := by
  have hstep := step_of_word hword keys
  rw [execute, applyAlu_of_not_setsFlag hop] at hstep
  refine ⟨_, hstep, rfl, fun k hk => ?_⟩
  rw [Registers.get_set, if_neg hk.symm]

theorem step_of_addByte {byte : Byte} (hword : m.word = (Instruction.addByte x byte).word)
    (keys : Keypad) :
    ∃ n, m.step keys = (n, .ok .ok) ∧ n.registers.index = m.registers.index ∧
      ∀ k ≠ x, n.registers.get k = m.registers.get k := by
  refine ⟨_, step_of_word hword keys, rfl, fun k hk => ?_⟩
  rw [Registers.get_set, if_neg hk.symm]

theorem step_of_addIndex (hword : m.word = (Instruction.addIndex x).word) (keys : Keypad) :
    ∃ n, m.step keys = (n, .ok .ok) ∧
      n.registers.index.toNat = (m.registers.index.toNat + (m.registers.get x).toNat) % 65536 ∧
      (m.dialect.indexFlagsOverflow = true →
        n.registers.get 0xF =
          (if m.memory.capacity ≤ m.registers.index.toNat + (m.registers.get x).toNat then 1
          else 0) ∧
        ∀ k ≠ 0xF, n.registers.get k = m.registers.get k) ∧
      (m.dialect.indexFlagsOverflow = false → ∀ k, n.registers.get k = m.registers.get k) := by
  refine ⟨_, step_of_word hword keys, ?_, fun hflags => ⟨?_, fun k hk => ?_⟩, fun hflags k => ?_⟩
  · unfold addIndex
    dsimp only
    split <;> exact UInt16.toNat_ofNat'
  · simp only [addIndex, hflags, if_true, Registers.setFlag, Registers.get_set, decide_eq_true_eq]
    exact if_pos rfl
  · simp only [addIndex, hflags, if_true, Registers.setFlag, Registers.get_set]
    exact if_neg hk.symm
  · simp only [addIndex, hflags]
    rfl

end Machine

namespace Vm

variable {vm : Vm} {m : Machine}

/-- Result and flag of `8XY4` to `8XYE` together are exact, `VF` holds the flag in any case and `VX`
the result unless it is `VF`; the other operations and `7XNN` write to `VX` alone. `FX1E` wraps `I`
around at its sixteen bits, but the flag, where it sets one, tells whether the sum as it stands is
past the end of memory. -/
theorem arithmetic_exact {c : Config} {source : GlyphSource} {actions : List Action}
    (hvm : vm = ((new c source).undergo actions).1) (hm : vm.machine? = some m) (keys : Keypad) :
    (∀ op x y, op.setsFlag = true → m.word = (Instruction.alu op x y).word →
      ∃ n r f, m.step keys = (n, .ok .ok) ∧ r < 256 ∧ f ≤ 1 ∧
        op.Law c.dialect (m.registers.get x).toNat (m.registers.get y).toNat r f ∧
        (n.registers.get 0xF).toNat = f ∧ (x ≠ 0xF → (n.registers.get x).toNat = r) ∧
        n.registers.index = m.registers.index ∧
        ∀ k, k ≠ x → k ≠ 0xF → n.registers.get k = m.registers.get k) ∧
    (∀ op x y, op.setsFlag = false → m.word = (Instruction.alu op x y).word →
      ∃ n, m.step keys = (n, .ok .ok) ∧ n.registers.index = m.registers.index ∧
        ∀ k ≠ x, n.registers.get k = m.registers.get k) ∧
    (∀ x byte, m.word = (Instruction.addByte x byte).word →
      ∃ n, m.step keys = (n, .ok .ok) ∧ n.registers.index = m.registers.index ∧
        ∀ k ≠ x, n.registers.get k = m.registers.get k) ∧
    ∀ x, m.word = (Instruction.addIndex x).word →
      ∃ n, m.step keys = (n, .ok .ok) ∧
        n.registers.index.toNat = (m.registers.index.toNat + (m.registers.get x).toNat) % 65536 ∧
        (c.dialect.indexFlagsOverflow = true →
          n.registers.get 0xF =
            (if c.memorySize ≤ m.registers.index.toNat + (m.registers.get x).toNat then 1
            else 0) ∧
          ∀ k ≠ 0xF, n.registers.get k = m.registers.get k) ∧
        (c.dialect.indexFlagsOverflow = false →
          ∀ k, n.registers.get k = m.registers.get k) := by
  have hfits : m.Fits c := fits_of_undergo hvm hm
  rw [← hfits.dialect, ← hfits.capacity]
  exact ⟨fun op x y hop hword => Machine.step_of_setsFlag hop hword keys,
    fun op x y hop hword => Machine.step_of_not_setsFlag hop hword keys,
    fun x byte hword => Machine.step_of_addByte hword keys,
    fun x hword => Machine.step_of_addIndex hword keys⟩

/-- The flag register added to itself: the carry takes the place of the sum. -/
theorem arithmetic_exact_in_flag :
    let small : Config := { memorySize := 86, fontStart := 0, programStart := 80, seed := some 7 }
    let vm := (new small).after [.load #[0x6F, 0xFF, 0x8F, 0xF4] default, .step]
    ∃ m n, vm.machine? = some m ∧ m.word = (Instruction.alu .add 0xF 0xF).word ∧
      m.registers.get 0xF = 255 ∧ m.step vm.keys = (n, .ok .ok) ∧ n.registers.get 0xF = 1 := by
  intro small vm
  obtain ⟨m, hm, hfacts⟩ : ∃ m, vm.machine? = some m ∧
      (m.word, m.registers.get 0xF) = ((Instruction.alu .add 0xF 0xF).word, 255) :=
    Option.map_eq_some_iff.1 (by decide +kernel)
  obtain ⟨hword, hfull⟩ := Prod.mk.inj hfacts
  obtain ⟨n, r, f, hstep, hr, hf, hlaw, hflag, -⟩ :=
    (arithmetic_exact (undergo_plain _ _).symm hm vm.keys).1 .add 0xF 0xF rfl hword
  refine ⟨m, n, hm, hword, hfull, hstep, UInt8.toNat_inj.1 (hflag.trans ?_)⟩
  rw [hfull] at hlaw
  change 255 + 255 = r + 256 * f at hlaw
  change f = 1
  omega

end Vm

end Chip8

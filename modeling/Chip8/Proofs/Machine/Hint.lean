import Chip8.Proofs.Machine.Step

/-! Hints. What a step tells the host bounds what it has changed, and a step that neither jumps nor
waits goes on behind its instruction, or behind the next one if it skips that. -/

namespace Chip8

/-- Between `m` and `n` nothing has changed but what the hint stands for. -/
def Flow.Bounds (m n : Machine) : Flow → Prop
  | .ok =>
    n =
      { m with
        pc := n.pc
        registers := n.registers
        timers := { m.timers with delay := n.timers.delay }
        memory := n.memory
        random := n.random }
  | .jump => n = { m with pc := n.pc, stack := n.stack }
  | .draw =>
    n =
      { m with
        pc := n.pc
        registers := m.registers.set Registers.flag (n.registers.get Registers.flag)
        screen := n.screen }
  | .sound => n = { m with pc := n.pc, timers := { m.timers with sound := n.timers.sound } }
  | .keyWait => n = m

def Flow.GoesOn : Flow → Prop
  | .ok | .draw | .sound => True
  | .jump | .keyWait => False

namespace Machine

inductive Skips (m : Machine) (keys : Keypad) : Prop
  | equalsByte (word : m.word.t = 0x3) (holds : m.registers.get m.word.x = m.word.low)
  | differsByte (word : m.word.t = 0x4) (holds : m.registers.get m.word.x ≠ m.word.low)
  | equals (word : m.word.t = 0x5 ∧ m.word.n = 0x0)
    (holds : m.registers.get m.word.x = m.registers.get m.word.y)
  | differs (word : m.word.t = 0x9 ∧ m.word.n = 0x0)
    (holds : m.registers.get m.word.x ≠ m.registers.get m.word.y)
  | keyDown (word : m.word.t = 0xE ∧ m.word.low = 0x9E)
    (holds : keys.isPressed (m.registers.get m.word.x).toNat = true)
  | keyUp (word : m.word.t = 0xE ∧ m.word.low = 0xA1)
    (holds : keys.isPressed (m.registers.get m.word.x).toNat = false)

def nextPc (m : Machine) (keys : Keypad) : Instruction → Word
  | .skip condition => if condition.holds keys m.registers then m.pc + 4 else m.pc + 2
  | _ => m.pc + 2

variable {m n : Machine} {i : Instruction} {keys : Keypad} {flow : Flow}

theorem skips_iff :
    m.Skips keys ↔
      ∃ condition, m.word = (Instruction.skip condition).word ∧
        condition.holds keys m.registers = true := by
  constructor
  · intro h
    cases h with
    | equalsByte word holds =>
      exact ⟨.equalsByte m.word.x m.word.low,
        (Instruction.eq_byteWord_iff (t := 0x3)).2 ⟨word, rfl, rfl⟩, beq_iff_eq.2 holds⟩
    | differsByte word holds =>
      exact ⟨.differsByte m.word.x m.word.low,
        (Instruction.eq_byteWord_iff (t := 0x4)).2 ⟨word, rfl, rfl⟩, bne_iff_ne.2 holds⟩
    | equals word holds =>
      exact ⟨.equals m.word.x m.word.y,
        (Instruction.eq_digitWord_iff (t := 0x5)).2 ⟨word.1, rfl, rfl, word.2⟩,
        beq_iff_eq.2 holds⟩
    | differs word holds =>
      exact ⟨.differs m.word.x m.word.y,
        (Instruction.eq_digitWord_iff (t := 0x9)).2 ⟨word.1, rfl, rfl, word.2⟩,
        bne_iff_ne.2 holds⟩
    | keyDown word holds =>
      exact ⟨.keyDown m.word.x,
        (Instruction.eq_byteWord_iff (t := 0xE)).2 ⟨word.1, word.2, rfl⟩, holds⟩
    | keyUp word holds =>
      exact ⟨.keyUp m.word.x,
        (Instruction.eq_byteWord_iff (t := 0xE)).2 ⟨word.1, word.2, rfl⟩,
        congrArg Bool.not holds⟩
  · rintro ⟨condition, hword, hholds⟩
    cases condition with
    | equalsByte x byte =>
      obtain ⟨ht, rfl, rfl⟩ := (Instruction.eq_byteWord_iff (t := 0x3)).1 hword
      exact .equalsByte ht (beq_iff_eq.1 hholds)
    | differsByte x byte =>
      obtain ⟨ht, rfl, rfl⟩ := (Instruction.eq_byteWord_iff (t := 0x4)).1 hword
      exact .differsByte ht (bne_iff_ne.1 hholds)
    | equals x y =>
      obtain ⟨ht, rfl, rfl, hn⟩ := (Instruction.eq_digitWord_iff (t := 0x5)).1 hword
      exact .equals ⟨ht, hn⟩ (beq_iff_eq.1 hholds)
    | differs x y =>
      obtain ⟨ht, rfl, rfl, hn⟩ := (Instruction.eq_digitWord_iff (t := 0x9)).1 hword
      exact .differs ⟨ht, hn⟩ (bne_iff_ne.1 hholds)
    | keyDown x =>
      obtain ⟨ht, hlow, rfl⟩ := (Instruction.eq_byteWord_iff (t := 0xE)).1 hword
      exact .keyDown ⟨ht, hlow⟩ hholds
    | keyUp x =>
      obtain ⟨ht, hlow, rfl⟩ := (Instruction.eq_byteWord_iff (t := 0xE)).1 hword
      exact .keyUp ⟨ht, hlow⟩ (Bool.not_inj hholds)

theorem step_of_skip {condition : Condition}
    (h : Instruction.ofWord? m.word = some (.skip condition)) (keys : Keypad) :
    m.step keys = ({ m with pc := m.nextPc keys (.skip condition) }, .ok .ok) := by
  have hfour : m.pc + 2 + 2 = m.pc + 4 := UInt16.add_assoc m.pc 2 2
  rw [step_of_ofWord? h, execute, skipIf, nextPc, hfour]
  dsimp only
  cases condition.holds keys m.registers <;> rfl

theorem bounds_of_ofWord? (hw : Instruction.ofWord? m.word = some i)
    (h : m.step keys = (n, .ok flow)) :
    flow.Bounds m n ∧ (flow.GoesOn → n.pc = m.nextPc keys i) := by
  rw [step_of_ofWord? hw] at h
  cases i with
  | clearScreen =>
    cases h
    refine ⟨?_, fun _ => rfl⟩
    simp only [Flow.Bounds, Registers.set_get]
  | ret =>
    simp only [execute, ret] at h
    split at h <;> cases h
    exact ⟨rfl, False.elim⟩
  | jump target =>
    cases h
    exact ⟨rfl, False.elim⟩
  | call target =>
    simp only [execute, call] at h
    split at h <;> cases h
    exact ⟨rfl, False.elim⟩
  | skip condition =>
    rw [← step_of_ofWord? hw, step_of_skip hw] at h
    cases h
    exact ⟨rfl, fun _ => rfl⟩
  | alu op x y =>
    simp only [execute, applyAlu] at h
    split at h <;> cases h <;> exact ⟨rfl, fun _ => rfl⟩
  | jumpOffset base =>
    cases h
    exact ⟨rfl, False.elim⟩
  | draw x y rows =>
    cases h
    refine ⟨?_, fun _ => rfl⟩
    simp only [Flow.Bounds, drawSprite, Registers.setFlag, Registers.get_set, if_true]
  | waitKey x =>
    simp only [execute, waitKey] at h
    split at h <;> cases h
    · exact ⟨rfl, fun _ => rfl⟩
    · refine ⟨?_, False.elim⟩
      simp only [Flow.Bounds, UInt16.add_sub_cancel]
  | _ =>
    cases h
    exact ⟨rfl, fun _ => rfl⟩

theorem pc_add_two_ne (a : Word) : a + 2 ≠ a + 4 :=
  fun h => absurd ((UInt16.add_right_inj a).1 h) (by decide)

theorem nextPc_cases (hw : Instruction.ofWord? m.word = some i) :
    (m.nextPc keys i = m.pc + 2 ∨ m.nextPc keys i = m.pc + 4) ∧
      (m.nextPc keys i = m.pc + 4 ↔ m.Skips keys) := by
  have hskips : m.Skips keys ↔
      ∃ condition, i = .skip condition ∧ condition.holds keys m.registers = true := by
    rw [skips_iff]
    refine exists_congr fun condition => and_congr_left fun _ => ?_
    rw [← Instruction.ofWord?_eq_some_iff, hw, Option.some.injEq]
  rw [hskips]
  cases i with
  | skip condition =>
    rw [nextPc]
    cases hholds : condition.holds keys m.registers with
    | true => exact ⟨.inr rfl, fun _ => ⟨condition, rfl, hholds⟩, fun _ => rfl⟩
    | false =>
      refine ⟨.inl rfl, fun hfour => absurd hfour (pc_add_two_ne _), ?_⟩
      rintro ⟨_, ⟨⟩, htrue⟩
      cases hholds.symm.trans htrue
  | _ =>
    refine ⟨.inl rfl, fun hfour => absurd hfour (pc_add_two_ne _), ?_⟩
    rintro ⟨condition, ⟨⟩, -⟩

theorem bounds_of_step (h : m.step keys = (n, .ok flow)) :
    flow.Bounds m n ∧
      (flow.GoesOn →
        (n.pc = m.pc + 2 ∨ n.pc = m.pc + 4) ∧ (n.pc = m.pc + 4 ↔ m.Skips keys)) := by
  cases hw : Instruction.ofWord? m.word with
  | none =>
    rw [step_of_ofWord?_eq_none hw] at h
    cases h
  | some i =>
    obtain ⟨hbounds, hpc⟩ := bounds_of_ofWord? hw h
    refine ⟨hbounds, fun hgoes => ?_⟩
    rw [hpc hgoes]
    exact nextPc_cases hw

end Machine

end Chip8

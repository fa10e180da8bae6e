import Chip8.Machine.Execute
import Chip8.Proofs.Instruction.Pattern

/-! What a step can come to. Calls and returns alone touch the call stack, and only they and words
that are no instructions can fail; a step that fails moves the counter and nothing else. -/

namespace Chip8

/-- The instructions that leave the call stack alone. -/
def Instruction.Flat : Instruction → Prop
  | .call _ | .ret => False
  | _ => True

namespace Machine

variable {m : Machine}

inductive Faults (m : Machine) : Fault → Prop
  | unsupported (word : ∀ p ∈ Pattern.all, ¬p.Matches m.word) :
    Faults m (.unsupported m.word m.pc)
  | overflow (word : m.word.t = 0x2) (full : m.stack.depth = m.stack.capacity) :
    Faults m (.stackOverflow m.pc m.stack.capacity)
  | underflow (word : m.word = 0x00EE) (empty : m.stack.depth = 0) :
    Faults m (.stackUnderflow m.pc)

inductive Outcome (m : Machine) : Machine × Except Fault Flow → Prop
  | flat {n : Machine} {flow : Flow} (no_call : m.word.t ≠ 0x2) (no_ret : m.word ≠ 0x00EE)
    (stack : n.stack = m.stack) : Outcome m (n, .ok flow)
  | called {n : Machine} (word : m.word.t = 0x2) (pc : n.pc = UInt16.ofNat m.word.address.val)
    (stack : n.stack.toList = m.stack.toList ++ [m.pc + 2]) : Outcome m (n, .ok .jump)
  | returned {n : Machine} (word : m.word = 0x00EE)
    (stack : m.stack.toList = n.stack.toList ++ [n.pc]) : Outcome m (n, .ok .jump)
  | failed {f : Fault} (why : m.Faults f) : Outcome m ({ m with pc := m.pc + 2 }, .error f)

theorem execute_of_flat {i : Instruction} (h : i.Flat) (m : Machine) (keys : Keypad)
    (address : Word) :
    ∃ n flow, m.execute keys address i = (n, .ok flow) ∧ n.stack = m.stack := by
  cases i with
  | call target => exact h.elim
  | ret => exact h.elim
  | skip condition =>
    refine ⟨_, _, rfl, ?_⟩
    unfold skipIf
    split <;> rfl
  | alu op x y =>
    refine ⟨_, _, rfl, ?_⟩
    unfold applyAlu
    split <;> rfl
  | waitKey x =>
    rw [execute, waitKey]
    split <;> exact ⟨_, _, rfl, rfl⟩
  | loadBlock x => exact ⟨_, _, rfl, by rw [loadBlock]⟩
  | _ => exact ⟨_, _, rfl, rfl⟩

theorem step_of_ofWord? {i : Instruction} (h : Instruction.ofWord? m.word = some i)
    (keys : Keypad) : m.step keys = { m with pc := m.pc + 2 }.execute keys m.pc i := by
  unfold step
  dsimp only
  rw [h]

theorem step_of_ofWord?_eq_none (h : Instruction.ofWord? m.word = none) (keys : Keypad) :
    m.step keys = ({ m with pc := m.pc + 2 }, .error (.unsupported m.word m.pc)) := by
  unfold step
  dsimp only
  rw [h]

theorem step_of_word {i : Instruction} (h : m.word = i.word) (keys : Keypad) :
    m.step keys = { m with pc := m.pc + 2 }.execute keys m.pc i :=
  step_of_ofWord? (Instruction.ofWord?_eq_some_iff.2 h) keys

theorem step_of_call (word : m.word.t = 0x2) (room : m.stack.depth < m.stack.capacity)
    (keys : Keypad) :
    ∃ stack : CallStack, stack.toList = m.stack.toList ++ [m.pc + 2] ∧
      m.step keys =
        ({ m with pc := UInt16.ofNat m.word.address.val, stack := stack }, .ok .jump) := by
  rw [step_of_ofWord? (Instruction.ofWord?_of_t_eq_two word), execute, call]
  dsimp only
  cases hp : m.stack.push? (m.pc + 2) with
  | none =>
    have hfull := (m.stack.push?_eq_none_iff _).1 hp
    exact absurd hfull (Nat.ne_of_lt room)
  | some stack => exact ⟨stack, (CallStack.toList_push? hp).1, rfl⟩

theorem step_of_ret (word : m.word = 0x00EE) (nonempty : m.stack.depth ≠ 0) (keys : Keypad) :
    ∃ back stack, m.stack.toList = CallStack.toList stack ++ [back] ∧
      m.step keys = ({ m with pc := back, stack := stack }, .ok .jump) := by
  rw [step_of_word (i := .ret) word, execute, ret]
  dsimp only
  cases hp : m.stack.pop? with
  | none =>
    have hempty := m.stack.pop?_eq_none_iff.1 hp
    exact absurd (congrArg List.length hempty) nonempty
  | some popped =>
    obtain ⟨back, stack⟩ := popped
    exact ⟨back, stack, (CallStack.toList_pop? hp).1, rfl⟩

theorem call_of_full (address : Word) (target : ShortAddress)
    (h : m.stack.depth = m.stack.capacity) :
    m.call address target = (m, .error (.stackOverflow address m.stack.capacity)) := by
  unfold call
  rw [(m.stack.push?_eq_none_iff m.pc).2 h]

theorem call_and_return (call : m.word.t = 0x2) (room : m.stack.depth < m.stack.capacity)
    (ret : m.memory.fetch (UInt16.ofNat m.word.address.val).toNat = 0x00EE) (keys : Keypad) :
    ∃ n stack, m.step keys = (n, .ok .jump) ∧ n.stack.toList = m.stack.toList ++ [m.pc + 2] ∧
      n.step keys = ({ m with pc := m.pc + 2, stack := stack }, .ok .jump) ∧
      stack.toList = m.stack.toList := by
  obtain ⟨stack, hstack, hcall⟩ := step_of_call call room keys
  have hnonempty : stack.depth ≠ 0 := by
    have hlength := congrArg List.length hstack
    rw [List.length_append] at hlength
    exact fun h => Nat.succ_ne_zero _ (hlength.symm.trans h)
  obtain ⟨back, rest, hrest, hret⟩ := step_of_ret
    (m := { m with pc := UInt16.ofNat m.word.address.val, stack := stack }) ret hnonempty keys
  obtain ⟨hbelow, hback⟩ := List.append_inj' (hstack.symm.trans hrest) rfl
  cases hback
  exact ⟨_, rest, hcall, hstack, hret, hbelow.symm⟩

theorem ret_of_empty (address : Word) (h : m.stack.depth = 0) :
    m.ret address = (m, .error (.stackUnderflow address)) := by
  unfold ret
  rw [m.stack.pop?_eq_none_iff.2 (List.eq_nil_of_length_eq_zero h)]

theorem Faults.step {f : Fault} (h : m.Faults f) (keys : Keypad) :
    m.step keys = ({ m with pc := m.pc + 2 }, .error f) := by
  cases h with
  | unsupported word => exact step_of_ofWord?_eq_none ((Instruction.ofWord?_eq_none_iff _).2 word) _
  | overflow word full =>
    rw [step_of_ofWord? (Instruction.ofWord?_of_t_eq_two word)]
    exact call_of_full (m := { m with pc := m.pc + 2 }) m.pc m.word.address full
  | underflow word empty =>
    rw [step_of_word (i := .ret) word]
    exact ret_of_empty (m := { m with pc := m.pc + 2 }) m.pc empty

theorem step_outcome (m : Machine) (keys : Keypad) : m.Outcome (m.step keys) := by
  cases hw : Instruction.ofWord? m.word with
  | none =>
    have why : m.Faults (.unsupported m.word m.pc) :=
      .unsupported ((Instruction.ofWord?_eq_none_iff m.word).1 hw)
    rw [why.step]
    exact .failed why
  | some i =>
    by_cases hflat : i.Flat
    · obtain ⟨n, flow, he, hs⟩ := execute_of_flat hflat { m with pc := m.pc + 2 } keys m.pc
      rw [step_of_ofWord? hw, he]
      refine .flat (fun hcall => ?_) (fun hret => ?_) hs
      · rw [Instruction.ofWord?_of_t_eq_two hcall] at hw
        cases hw
        exact hflat
      · cases (Instruction.ofWord?_eq_some_iff (i := .ret)).2 hret ▸ hw
        exact hflat
    · cases i with
      | call target =>
        have word := Instruction.t_eq_two_of_call hw
        by_cases hfull : m.stack.depth = m.stack.capacity
        · have why : m.Faults _ := .overflow word hfull
          rw [why.step]
          exact .failed why
        · have hroom : m.stack.depth < m.stack.capacity := Nat.lt_of_le_of_ne m.stack.depth_le hfull
          obtain ⟨stack, hs, hcall⟩ := step_of_call word hroom keys
          rw [hcall]
          exact .called word rfl hs
      | ret =>
        have word : m.word = 0x00EE := Instruction.ofWord?_eq_some_iff.1 hw
        by_cases hempty : m.stack.depth = 0
        · have why : m.Faults _ := .underflow word hempty
          rw [why.step]
          exact .failed why
        · obtain ⟨back, stack, hs, hret⟩ := step_of_ret word hempty keys
          rw [hret]
          exact .returned word hs
      | _ => exact absurd trivial hflat

end Machine

end Chip8

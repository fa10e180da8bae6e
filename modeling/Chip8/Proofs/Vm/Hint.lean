import Chip8.Proofs.Machine.Hint
import Chip8.Proofs.Vm.Invariant
import Chip8.Proofs.Vm.Reload

/-! What a host can rely on. Each part of the machine changes only in steps with the hint that
stands for it, so a host that draws, beeps or yields only when a hint tells it to misses nothing. -/

namespace Chip8

inductive Part where
  | screen
  | sound
  | stack
  | memory
  | index
  | delay
  | random
  | register (x : Digit)
  deriving DecidableEq, Repr

namespace Part

def Value : Part → Type
  | screen => Screen
  | sound | delay | register _ => Byte
  | stack => CallStack
  | memory => Memory
  | index => Word
  | random => Keystream

def hint : Part → Flow
  | screen => .draw
  | sound => .sound
  | stack => .jump
  | memory | index | delay | random | register _ => .ok

def flag : Part := register Registers.flag

end Part

def Machine.part (m : Machine) : (p : Part) → p.Value
  | .screen => m.screen
  | .sound => m.timers.sound
  | .stack => m.stack
  | .memory => m.memory
  | .index => m.registers.index
  | .delay => m.timers.delay
  | .random => m.random
  | .register x => m.registers.get x

theorem Flow.Bounds.part_eq {m n : Machine} {flow : Flow} (h : flow.Bounds m n) {p : Part}
    (hp : flow ≠ p.hint) (hflag : flow = .draw → p ≠ .flag) : n.part p = m.part p := by
  cases flow with
  | ok =>
    have hpart := congrArg (fun m => m.part p) h
    cases p with
    | screen | sound | stack => exact hpart
    | _ => exact absurd rfl hp
  | jump =>
    have hpart := congrArg (fun m => m.part p) h
    cases p with
    | stack => exact absurd rfl hp
    | _ => exact hpart
  | draw =>
    have hpart := congrArg (fun m => m.part p) h
    cases p with
    | screen => exact absurd rfl hp
    | register x =>
      have hx : Registers.flag ≠ x := fun heq => hflag rfl (congrArg Part.register heq.symm)
      refine hpart.trans ?_
      rw [Machine.part, Machine.part, Registers.get_set, if_neg hx]
    | _ => exact hpart
  | sound =>
    have hpart := congrArg (fun m => m.part p) h
    cases p with
    | sound => exact absurd rfl hp
    | _ => exact hpart
  | keyWait => exact congrArg (fun m => m.part p) h

namespace Vm

/-- A part of the machine changes only in a step with the hint that stands for it, `VF` also when
the screen is drawn to. A jump changes nothing but the counter and the stack, a wait nothing at all,
and all other steps go on behind their instruction, or behind the next one if and only if they skip
it. -/
theorem hints_bound_changes {vm next : Vm} {m : Machine} {flow : Flow} (hm : vm.machine? = some m)
    (h : vm.step = (next, .ok flow)) :
    ∃ n, next = { vm with machine? := some n } ∧
      (∀ p, n.part p ≠ m.part p → flow = p.hint ∨ (p = .flag ∧ flow = .draw)) ∧
      (flow = .jump → n = { m with pc := n.pc, stack := n.stack }) ∧
      (flow = .keyWait → n = m) ∧
      (flow.GoesOn →
        (n.pc = m.pc + 2 ∨ n.pc = m.pc + 4) ∧ (n.pc = m.pc + 4 ↔ m.Skips vm.keys)) := by
  obtain ⟨m', n, hready, hstep, hnext⟩ := machine_of_step_ok h
  cases hm.symm.trans (machine?_of_ready hready)
  obtain ⟨hbounds, hpc⟩ := Machine.bounds_of_step hstep
  refine ⟨n, hnext, fun p hchanged => ?_, ?_, ?_, hpc⟩
  · by_contra hhint
    obtain ⟨hp, hflag⟩ := not_or.1 hhint
    exact hchanged (hbounds.part_eq hp fun hdraw heq => hflag ⟨heq, hdraw⟩)
  · rintro rfl
    exact hbounds
  · rintro rfl
    exact hbounds

theorem hints_bound_changes_of_skip :
    ∃ vm m next, vm = (new { seed := some 7 }).after [.load #[0x30, 0x00] default] ∧
      vm.machine? = some m ∧ vm.step = (next, .ok .ok) ∧
      ∃ n, next = { vm with machine? := some n } ∧ n.pc = 0x204 ∧ n.screen = m.screen := by
  have ha : (new { seed := some 7 }).Accepts #[0x30, 0x00] Glyphs.chip48 :=
    .standard rfl rfl (by decide)
  obtain ⟨vm, m, hvm, hstarts, hready⟩ := ha.ready_after rfl
  obtain ⟨ht, hm⟩ := ready_eq_ok_iff.1 hready
  have hword : m.word = Instruction.word (.skip (.equalsByte 0 0)) := hstarts.word_eq rfl
  have hpc : m.pc = 0x200 := hstarts.pc_eq
  have hskips : m.Skips vm.keys :=
    Machine.skips_iff.2 ⟨_, hword, beq_iff_eq.2 (hstarts.registers 0)⟩
  have hstep := step_ok_of_ready hready
    (Machine.step_of_skip (Instruction.ofWord?_eq_some_iff.2 hword) vm.keys)
  obtain ⟨n, hnext, hparts, -, -, hgoes⟩ := hints_bound_changes hm hstep
  refine ⟨vm, m, _, hvm, hm, hstep, n, hnext, ?_, ?_⟩
  · rw [(hgoes trivial).2.2 hskips, hpc]
    rfl
  · by_contra hscreen
    obtain hhint | ⟨hflag, -⟩ := hparts .screen hscreen
    · cases hhint
    · cases hflag

end Vm

end Chip8

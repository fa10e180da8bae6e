import Chip8.Proofs.Machine.Step
import Chip8.Proofs.Vm.Invariant
import Chip8.Proofs.Vm.Reload

/-! When a step fails: only at a word that is no instruction, at a call that the stack has no room
for, and at a return without a call. -/

namespace Chip8

namespace Machine

theorem toNat_word (m : Machine) :
    m.word.toNat = 256 * (m.memory.cells.getD (m.pc.toNat % m.memory.capacity) 0).toNat +
      (m.memory.cells.getD ((m.pc.toNat + 1) % m.memory.capacity) 0).toNat := by
  have hread (a : Nat) : m.memory.read a = m.memory.cells.getD (a % m.memory.capacity) 0 := by
    rw [Memory.read, Array.getD_eq_getD_getElem?, Memory.capacity,
      Array.getElem?_eq_getElem (m.memory.mod_capacity_lt a), Option.getD_some]
  rw [word, Memory.fetch, Word.toNat_ofBytes, hread, hread]

theorem step_error_iff {m : Machine} {keys : Keypad} {f : Fault} :
    (m.step keys).2 = .error f ↔ m.Faults f := by
  constructor
  · intro h
    have ho := m.step_outcome keys
    generalize m.step keys = result at h ho
    cases ho with
    | failed why =>
      cases h
      exact why
    | _ => cases h
  · intro h
    rw [h.step]

end Machine

namespace Vm

variable {vm : Vm} {m : Machine}

theorem step_of_fault (hr : vm.ready = .ok m) {f : Fault} (h : m.Faults f) :
    vm.step = ({ vm with machine? := some { m with pc := m.pc + 2 }, trap? := some f },
      .error (.fault f)) := by
  rw [step, hr]
  dsimp only
  rw [h.step]

theorem faults_of_step_error (hr : vm.ready = .ok m) {e : Error} (h : vm.step.2 = .error e) :
    ∃ f, m.Faults f ∧ e = .fault f := by
  rw [step, hr] at h
  dsimp only at h
  rcases hs : m.step vm.keys with ⟨n, f | flow⟩
  · rw [hs] at h
    cases h
    exact ⟨f, Machine.step_error_iff.1 (congrArg Prod.snd hs), rfl⟩
  · rw [hs] at h
    cases h

/-- A step fails exactly for one of the three reasons, and then nothing is changed but the counter,
which stands behind the word, and the trap. -/
theorem step_fails_iff (hm : vm.machine? = some m) (ht : vm.trap? = none) :
    m.word.toNat = 256 * (m.memory.cells.getD (m.pc.toNat % m.memory.capacity) 0).toNat +
        (m.memory.cells.getD ((m.pc.toNat + 1) % m.memory.capacity) 0).toNat ∧
      (∀ e, vm.step.2 = .error e ↔ ∃ f, m.Faults f ∧ e = .fault f) ∧
      ∀ f, m.Faults f →
        vm.step.1 = { vm with machine? := some { m with pc := m.pc + 2 }, trap? := some f } := by
  have hr : vm.ready = .ok m := ready_eq_ok_iff.2 ⟨ht, hm⟩
  refine ⟨m.toNat_word, fun e => ⟨faults_of_step_error hr, ?_⟩, fun f h => ?_⟩
  · rintro ⟨f, h, rfl⟩
    rw [step_of_fault hr h]
  · rw [step_of_fault hr h]

theorem step_fails_at_return :
    ∃ vm m, vm = (new { seed := some 7 }).after [.load #[0x00, 0xEE] default] ∧
      vm.machine? = some m ∧ vm.trap? = none ∧
      vm.step.2 = .error (.fault (.stackUnderflow 0x200)) ∧
      vm.step.1 = { vm with
        machine? := some { m with pc := m.pc + 2 }, trap? := some (.stackUnderflow 0x200) } := by
  have ha : (new { seed := some 7 }).Accepts #[0x00, 0xEE] Glyphs.chip48 :=
    .standard rfl rfl (by decide)
  obtain ⟨vm, m, hvm, hstarts, hready⟩ := ha.ready_after rfl
  obtain ⟨ht, hm⟩ := ready_eq_ok_iff.1 hready
  have hpc : m.pc = 0x200 := hstarts.pc_eq
  have hf : m.Faults (.stackUnderflow 0x200) :=
    hpc ▸ .underflow (hstarts.word_eq rfl) (congrArg List.length hstarts.stack)
  obtain ⟨-, hfails, hkeeps⟩ := step_fails_iff hm ht
  exact ⟨vm, m, hvm, hm, ht, (hfails _).2 ⟨_, hf, rfl⟩, hkeeps _ hf⟩

end Vm

end Chip8

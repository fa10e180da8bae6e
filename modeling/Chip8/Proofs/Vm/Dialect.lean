import Chip8.Proofs.Machine.Dialect
import Chip8.Proofs.Vm.Reload
import Chip8.Proofs.Vm.Simulation

/-! A dialect is heard only where it matters. Two virtual machines in different dialects go on alike
as long as no step consults a switch on which the dialects differ. -/

namespace Chip8.Vm

def speaking (vm : Vm) (d : Dialect) : Vm :=
  { vm with
    config := { vm.config with dialect := d }
    machine? := vm.machine?.map fun m => m.speaking d }

variable {vm : Vm} {m : Machine} {d : Dialect}

theorem ready_speaking (vm : Vm) (d : Dialect) :
    (vm.speaking d).ready = vm.ready.map fun m => m.speaking d := by
  obtain ⟨config, source, machine?, keys, frequency, trap?⟩ := vm
  cases trap? <;> cases machine? <;> rfl

theorem ready_speaking_of_ok (h : vm.ready = .ok m) :
    (vm.speaking d).ready = .ok (m.speaking d) := by
  rw [ready_speaking, h]
  rfl

theorem ready_speaking_of_error {e : Error} (h : vm.ready = .error e) :
    (vm.speaking d).ready = .error e := by
  rw [ready_speaking, h]
  rfl

theorem mapMachine_speaking {f : Machine → Machine}
    (hf : ∀ m, f (m.speaking d) = (f m).speaking d) (vm : Vm) :
    (vm.speaking d).mapMachine f = (vm.mapMachine f).speaking d := by
  obtain ⟨config, source, machine?, keys, frequency, trap?⟩ := vm
  cases machine? with
  | none => rfl
  | some m => simp only [mapMachine, speaking, Option.map_some, hf]

theorem step_speaking (hr : vm.ready = .ok m) (h : ∀ s, ¬m.PartsOver d s) :
    (vm.speaking d).step = (vm.step.1.speaking d, vm.step.2) := by
  have hkeys : (vm.speaking d).keys = vm.keys := rfl
  unfold step
  rw [hr, ready_speaking_of_ok hr, hkeys]
  dsimp only
  rw [Machine.step_speaking h]
  rcases m.step vm.keys with ⟨n, f | flow⟩ <;> rfl

theorem load_speaking (vm : Vm) (d : Dialect) (program : Array Byte) (entropy : Random.Key) :
    (vm.speaking d).load program entropy =
      ((vm.load program entropy).1.speaking d, (vm.load program entropy).2) := by
  have hglyphs : (vm.speaking d).glyphsFor program.size = vm.glyphsFor program.size := rfl
  have hconfig : (vm.speaking d).config = { vm.config with dialect := d } := rfl
  unfold load
  rw [hglyphs, hconfig]
  cases vm.glyphsFor program.size with
  | error e => rfl
  | ok glyphs =>
    dsimp only
    rw [Machine.boot_speaking]
    cases Machine.boot vm.config glyphs program entropy with
    | error e => rfl
    | ok m => rfl

def dialects (d : Dialect) : Simulation where
  vms vm other := other = vm.speaking d
  machines m n := n = m.speaking d
  errors := Eq
  changes := Eq
  alike p _ := ∀ s, ¬p.machine.PartsOver d s
  ready := by
    rintro vm _ rfl
    cases hr : vm.ready with
    | error e => exact .inr ⟨e, e, rfl, ready_speaking_of_error hr, rfl⟩
    | ok m => exact .inl ⟨m, m.speaking d, rfl, ready_speaking_of_ok hr, rfl⟩
  frequency := by
    rintro vm _ rfl
    rfl
  setFrequency := by
    rintro vm _ f rfl
    rfl
  setKey := by
    rintro vm _ key down rfl
    rfl
  clearKeys := by
    rintro vm _ rfl
    rfl
  unmark := by
    rintro vm _ rfl
    exact mapMachine_speaking (fun _ => rfl) vm
  tick := by
    rintro vm _ rfl
    exact mapMachine_speaking (fun _ => rfl) vm
  changeKeys := by
    rintro vm _ change _ rfl rfl
    rfl
  step := by
    rintro vm _ m n rfl hm - halike
    have hstep := step_speaking hm halike
    exact ⟨congrArg Prod.fst hstep, .of_eq (congrArg Prod.snd hstep).symm⟩
  load := by
    rintro vm _ program entropy rfl
    have hload := load_speaking vm d program entropy
    exact ⟨congrArg Prod.fst hload, .of_eq (congrArg Prod.snd hload).symm⟩

/-- The same step in two dialects has the same result, and it comes to machines that differ,
dialects apart, only if it consults a switch on which they differ, and only in what that switch is
about. What a host does to two virtual machines without such a step comes to the same. -/
theorem dialects_part_over_switches (d : Dialect) :
    (∀ (m : Machine) (keys : Keypad),
        ((m.speaking d).step keys).2 = (m.step keys).2 ∧
        m.Renders d (m.step keys).1 ((m.speaking d).step keys).1 ∧
        ((∀ s, ¬m.PartsOver d s) → ((m.speaking d).step keys).1 = (m.step keys).1.speaking d)) ∧
      ∀ (vm : Vm) (actions : List Action),
        (∀ moment ∈ vm.executed actions, ∀ s, ¬moment.machine.PartsOver d s) →
          (vm.speaking d).undergo actions =
            ((vm.undergo actions).1.speaking d, (vm.undergo actions).2) := by
  refine ⟨fun m keys => ?_, fun vm actions h => ?_⟩
  · obtain ⟨hresult, hrenders⟩ := m.step_renders d keys
    exact ⟨hresult, hrenders, hrenders.eq_speaking⟩
  · obtain ⟨hvms, hanswers, -⟩ := (dialects d).undergo rfl
      (Simulation.actions_self (fun _ => rfl) actions)
      fun pair hpair => h pair.1 (List.of_mem_zip hpair).1
    exact Prod.ext hvms (eq_of_answers hanswers).symm

/-- A shift of `V0` by itself and a jump by `V0`, in the default dialect and in the one that has
every switch on. -/
theorem dialects_part_over_switches_not_here :
    let vm := (new { memorySize := 86, fontStart := 0, programStart := 80, seed := some 7 }).after
      [.load #[0x80, 0x06, 0xB0, 0x50] default]
    let d : Dialect := ⟨true, true, true, true⟩
    let actions : List Action := [.plain (.run 2), .plain (.update 0.0)]
    (∀ moment ∈ vm.executed actions, ∀ s, ¬moment.machine.PartsOver d s) ∧
      (vm.speaking d).undergo actions =
        ((vm.undergo actions).1.speaking d, (vm.undergo actions).2) := by
  intro vm d actions
  have hparts : ∀ moment ∈ vm.executed actions, ∀ s, ¬moment.machine.PartsOver d s := by
    decide +kernel
  exact ⟨hparts, (dialects_part_over_switches d).2 vm actions hparts⟩

end Chip8.Vm

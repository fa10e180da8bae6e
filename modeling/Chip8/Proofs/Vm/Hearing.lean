import Chip8.Proofs.Machine.Step
import Chip8.Proofs.Vm.Reload
import Chip8.Proofs.Vm.Simulation

/-! Where the keys are heard. Only the instructions `EX9E`, `EXA1` and `FX0A` ask about keys, so two
runs in which they get the same answers are the same run, whatever the keys are in between. -/

namespace Chip8

@[mk_iff]
structure Moment.HearsAlike (p q : Moment) : Prop where
  pressed : p.machine.word.t = 0xE → p.machine.word.low = 0x9E ∨ p.machine.word.low = 0xA1 →
    p.keys.isPressed (p.machine.registers.get p.machine.word.x).toNat =
      q.keys.isPressed (q.machine.registers.get q.machine.word.x).toNat
  first : p.machine.word.t = 0xF → p.machine.word.low = 0x0A → p.keys.first? = q.keys.first?

instance (p q : Moment) : Decidable (p.HearsAlike q) :=
  decidable_of_iff _ (Moment.hearsAlike_iff p q).symm

theorem Machine.step_congr_keys {m : Machine} {keys keys' : Keypad}
    (h : Moment.HearsAlike ⟨m, keys⟩ ⟨m, keys'⟩) : m.step keys' = m.step keys := by
  cases hw : Instruction.ofWord? m.word with
  | none => rw [step_of_ofWord?_eq_none hw, step_of_ofWord?_eq_none hw]
  | some i =>
    have hword : m.word = i.word := Instruction.ofWord?_eq_some_iff.1 hw
    rw [step_of_ofWord? hw, step_of_ofWord? hw]
    cases i with
    | skip condition =>
      rw [execute, execute]
      cases condition with
      | keyDown x =>
        obtain ⟨ht, hlow, rfl⟩ := (Instruction.eq_byteWord_iff (t := 0xE)).1 hword
        rw [Condition.holds, Condition.holds, h.pressed ht (.inl hlow)]
      | keyUp x =>
        obtain ⟨ht, hlow, rfl⟩ := (Instruction.eq_byteWord_iff (t := 0xE)).1 hword
        rw [Condition.holds, Condition.holds, h.pressed ht (.inr hlow)]
      | _ => rfl
    | waitKey x =>
      obtain ⟨ht, hlow, -⟩ := (Instruction.eq_byteWord_iff (t := 0xF)).1 hword
      rw [execute, execute, waitKey, waitKey, h.first ht hlow]
    | _ => rfl

namespace Vm

def withKeys (vm : Vm) (keys : Keypad) : Vm := { vm with keys := keys }

variable {vm : Vm} {m : Machine} {keys : Keypad}

theorem step_withKeys (hr : vm.ready = .ok m) (h : Moment.HearsAlike ⟨m, vm.keys⟩ ⟨m, keys⟩) :
    (vm.withKeys keys).step = (vm.step.1.withKeys keys, vm.step.2) := by
  have hready : (vm.withKeys keys).ready = .ok m := hr
  have hstep : m.step (vm.withKeys keys).keys = m.step vm.keys := Machine.step_congr_keys h
  unfold step
  rw [hr, hready]
  dsimp only
  rw [hstep]
  rcases m.step vm.keys with ⟨n, f | flow⟩ <;> rfl

theorem load_withKeys (vm : Vm) (keys : Keypad) (program : Array Byte) (entropy : Random.Key) :
    ∃ keys', (vm.withKeys keys).load program entropy =
      ((vm.load program entropy).1.withKeys keys', (vm.load program entropy).2) := by
  have hglyphs : (vm.withKeys keys).glyphsFor program.size = vm.glyphsFor program.size := rfl
  have hconfig : (vm.withKeys keys).config = vm.config := rfl
  unfold load
  rw [hglyphs, hconfig]
  cases vm.glyphsFor program.size with
  | error e => exact ⟨keys, rfl⟩
  | ok glyphs =>
    dsimp only
    cases Machine.boot vm.config glyphs program entropy with
    | error e => exact ⟨{}, rfl⟩
    | ok m => exact ⟨{}, rfl⟩

def hearing : Simulation where
  vms vm other := ∃ keys, other = vm.withKeys keys
  machines := Eq
  errors := Eq
  changes _ _ := True
  alike := Moment.HearsAlike
  ready := by
    rintro vm _ ⟨keys, rfl⟩
    cases hr : vm.ready with
    | error e => exact .inr ⟨e, e, rfl, hr, rfl⟩
    | ok m => exact .inl ⟨m, m, rfl, hr, rfl⟩
  frequency := by
    rintro vm _ ⟨keys, rfl⟩
    rfl
  setFrequency := by
    rintro vm _ f ⟨keys, rfl⟩
    exact ⟨keys, rfl⟩
  setKey := by
    rintro vm _ key down ⟨keys, rfl⟩
    exact ⟨keys.set key down, rfl⟩
  clearKeys := by
    rintro vm _ ⟨keys, rfl⟩
    exact ⟨{}, rfl⟩
  unmark := by
    rintro vm _ ⟨keys, rfl⟩
    exact ⟨keys, rfl⟩
  tick := by
    rintro vm _ ⟨keys, rfl⟩
    exact ⟨keys, rfl⟩
  changeKeys := by
    rintro vm _ change change' ⟨keys, rfl⟩ -
    exact ⟨change' keys, rfl⟩
  step := by
    rintro vm _ m n ⟨keys, rfl⟩ hm hn halike
    cases hm.symm.trans hn
    have hstep := step_withKeys hm halike
    exact ⟨⟨keys, congrArg Prod.fst hstep⟩, .of_eq (congrArg Prod.snd hstep).symm⟩
  load := by
    rintro vm _ program entropy ⟨keys, rfl⟩
    obtain ⟨keys', hload⟩ := load_withKeys vm keys program entropy
    exact ⟨⟨keys', congrArg Prod.fst hload⟩, .of_eq (congrArg Prod.snd hload).symm⟩

/-- Two runs of the same operations, with keys that differ before and change differently in between,
come to the same, keys apart, and answer the same, by steps from the same machines, as long as the
instructions on keys hear the same at the same places. -/
theorem keys_heard_alike {actions actions' : List Action}
    (ho : actions.map Action.operation = actions'.map Action.operation)
    (h : ∀ pair ∈ (vm.executed actions).zip ((vm.withKeys keys).executed actions'),
      pair.1.HearsAlike pair.2) :
    (vm.undergo actions).2 = ((vm.withKeys keys).undergo actions').2 ∧
      (∃ keys', ((vm.withKeys keys).undergo actions').1 = (vm.undergo actions).1.withKeys keys') ∧
      (vm.executed actions).map Moment.machine =
        ((vm.withKeys keys).executed actions').map Moment.machine := by
  have hactions : List.Forall₂ hearing.Actions actions actions' := by
    rw [← List.forall₂_eq_eq_eq, List.forall₂_map_left_iff, List.forall₂_map_right_iff] at ho
    exact ho.imp fun a a' hoperation => ⟨hoperation, fun _ => trivial⟩
  obtain ⟨hvms, hanswers, hmachines⟩ := hearing.undergo ⟨keys, rfl⟩ hactions h
  refine ⟨eq_of_answers hanswers, hvms, ?_⟩
  rw [← List.forall₂_eq_eq_eq, List.forall₂_map_left_iff, List.forall₂_map_right_iff]
  exact hmachines

/-- One more key is down in the second run, but the first key that is down is the same, and key 0 is
up in both. -/
theorem keys_heard_alike_with_two_keys :
    let vm := (new { memorySize := 86, fontStart := 0, programStart := 80, seed := some 7 }).after
      [.load #[0xF0, 0x0A, 0xE1, 0x9E, 0x12, 0x00] default]
    let actions : List Action :=
      [⟨.step, fun _ keys => keys.set 5 true⟩, .plain (.update 0.0)]
    let actions' : List Action :=
      [⟨.step, fun _ keys => (keys.set 9 true).set 5 true⟩, .plain (.update 0.0)]
    (∀ pair ∈ (vm.executed actions).zip ((vm.withKeys ⟨0⟩).executed actions'),
        pair.1.HearsAlike pair.2) ∧
      (vm.undergo actions).2 = ((vm.withKeys ⟨0⟩).undergo actions').2 ∧
      ∃ keys', ((vm.withKeys ⟨0⟩).undergo actions').1 = (vm.undergo actions).1.withKeys keys' := by
  intro vm actions actions'
  have hkeys : ∀ pair ∈ (vm.executed actions).zip ((vm.withKeys ⟨0⟩).executed actions'),
      pair.1.HearsAlike pair.2 := by
    decide +kernel
  obtain ⟨hanswers, hvms, -⟩ := keys_heard_alike rfl hkeys
  exact ⟨hkeys, hanswers, hvms⟩

end Vm

end Chip8

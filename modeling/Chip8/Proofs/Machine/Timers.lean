import Chip8.Proofs.Machine.Frame
import Chip8.Proofs.Machine.Step

/-! The timers and the steps: a step stores a register in one of them, if its instruction is there
for it, and else leaves both as they are. No step counts down. -/

namespace Chip8

inductive Timer where
  | delay
  | sound
  deriving DecidableEq, Repr

namespace Timers

def get (ts : Timers) : Timer → Byte
  | .delay => ts.delay
  | .sound => ts.sound

def set (ts : Timers) (value : Byte) : Timer → Timers
  | .delay => { ts with delay := value }
  | .sound => { ts with sound := value }

theorem get_set (ts : Timers) (value : Byte) (t other : Timer) :
    (ts.set value t).get other = if t = other then value else ts.get other := by
  cases t <;> cases other <;> rfl

theorem toNat_get_tick (ts : Timers) (t : Timer) :
    (ts.tick.get t).toNat = (ts.get t).toNat - 1 := by
  cases t with
  | delay => exact toNat_countDown ts.delay
  | sound => exact toNat_countDown ts.sound

end Timers

namespace Machine

/-- The timer that the next step stores a register in, and the value: `FX15` is for the delay timer
and `FX18` for the sound timer. -/
def stored? (m : Machine) : Option (Timer × Byte) :=
  if m.word.t = 0xF ∧ m.word.low = 0x15 then some (.delay, m.registers.get m.word.x)
  else if m.word.t = 0xF ∧ m.word.low = 0x18 then some (.sound, m.registers.get m.word.x)
  else none

theorem timers_step (m : Machine) (keys : Keypad) :
    (m.step keys).1.timers =
      match m.stored? with
      | some (t, value) => m.timers.set value t
      | none => m.timers := by
  unfold stored?
  split_ifs with hdelay hsound
  · rw [step_of_ofWord? (Instruction.ofWord?_eq_setDelay_iff.2 ⟨hdelay.1, hdelay.2, rfl⟩)]
    rfl
  · rw [step_of_ofWord? (Instruction.ofWord?_eq_setSound_iff.2 ⟨hsound.1, hsound.2, rfl⟩)]
    rfl
  · cases hw : Instruction.ofWord? m.word with
    | none => rw [step_of_ofWord?_eq_none hw]
    | some i =>
      rw [step_of_ofWord? hw, timers_execute]
      cases i with
      | setDelay x =>
        obtain ⟨ht, hlow, -⟩ := Instruction.ofWord?_eq_setDelay_iff.1 hw
        exact absurd ⟨ht, hlow⟩ hdelay
      | setSound x =>
        obtain ⟨ht, hlow, -⟩ := Instruction.ofWord?_eq_setSound_iff.1 hw
        exact absurd ⟨ht, hlow⟩ hsound
      | _ => rfl

end Machine

end Chip8

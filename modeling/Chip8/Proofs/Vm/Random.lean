import Chip8.Proofs.Machine.Frame
import Chip8.Proofs.Machine.Step
import Chip8.Proofs.Vm.Effect
import Chip8.Proofs.Vm.Reload

/-! Random bytes. The stream of a machine moves by one word with every instruction `CXNN` and with
nothing else, so what a program draws is told by the seed and by how often it has drawn before. -/

namespace Chip8

namespace Keystream

def skip (s : Keystream) (count : Nat) : Keystream := { s with taken := s.taken + count }

theorem skip_next (s : Keystream) (count : Nat) : s.next.skip count = s.skip (count + 1) := by
  rw [skip, skip, next, Nat.add_right_comm, Nat.add_assoc]

end Keystream

namespace Machine

variable {m : Machine}

theorem step_of_random (h : m.word.t = 0xC) (keys : Keypad) :
    m.step keys = ({ m with pc := m.pc + 2 }.takeRandom m.word.x m.word.low, .ok .ok) :=
  step_of_ofWord? (Instruction.ofWord?_eq_random_iff.2 ⟨h, rfl, rfl⟩) keys

theorem random_step (m : Machine) (keys : Keypad) :
    (m.step keys).1.random = if m.word.t = 0xC then m.random.next else m.random := by
  split_ifs with hword
  · rw [step_of_random hword]
    rfl
  · cases hw : Instruction.ofWord? m.word with
    | none => rw [step_of_ofWord?_eq_none hw]
    | some i =>
      rw [step_of_ofWord? hw, random_execute]
      cases i with
      | random x mask => exact absurd (Instruction.ofWord?_eq_random_iff.1 hw).1 hword
      | _ => rfl

end Machine

def draws (moments : List Moment) : List Moment :=
  moments.filter fun moment => moment.machine.word.t = 0xC

theorem draws_cons (moment : Moment) (rest : List Moment) :
    draws (moment :: rest) =
      if moment.machine.word.t = 0xC then moment :: draws rest else draws rest := by
  split_ifs with h
  · exact List.filter_cons_of_pos (by simpa using h)
  · exact List.filter_cons_of_neg (by simpa using h)

theorem Leads.random {m n : Machine} {effects : List Effect} (h : Leads m effects n) :
    n.random = m.random.skip (draws (effects.filterMap Effect.moment?)).length ∧
      ∀ k moment, (draws (effects.filterMap Effect.moment?))[k]? = some moment →
        moment.machine.word.t = 0xC ∧ moment.machine.random = m.random.skip k := by
  induction h with
  | nil => exact ⟨rfl, fun k moment hk => nomatch hk⟩
  | unmark _ ih => exact ih
  | tick _ ih => exact ih
  | @step moment n rest _ ih =>
    change n.random = moment.machine.random.skip (draws (moment :: _)).length ∧
      ∀ k other, (draws (moment :: _))[k]? = some other → _
    rw [Moment.next, Machine.random_step] at ih
    rw [draws_cons]
    split_ifs at ih ⊢ with hword
    · obtain ⟨hlast, hdraws⟩ := ih
      rw [Keystream.skip_next] at hlast
      refine ⟨hlast, fun k other hk => ?_⟩
      cases k with
      | zero =>
        cases hk
        exact ⟨hword, rfl⟩
      | succ k =>
        rw [← Keystream.skip_next]
        exact hdraws k other hk
    · exact ih

namespace Vm

variable {vm : Vm} {program : Array Byte} {entropy : Random.Key}

/-- Since a load with a seed, whatever else is done in between, the instruction `CXNN` that comes
after `k` others takes word `k` of the stream that the seed stands for, counted from zero in blocks
of sixteen, and the masked low byte of it goes to `VX`. Nothing else takes a word. -/
theorem draws_take_words {seed : UInt64} {later : List Action} (hseed : vm.config.seed = some seed)
    (hload : (vm.load program entropy).2 = .ok ())
    (hlater : (vm.load program entropy).1.Throughout (fun vm a => ¬vm.Loads a.operation) later) :
    let now := ((vm.load program entropy).1.undergo later).1
    let drawn := draws ((vm.load program entropy).1.executed later)
    (∀ k moment, drawn[k]? = some moment →
        let word :=
          (Random.block (Random.keyOfSeed seed) (UInt64.ofNat (k / 16))).get (Fin.ofNat 16 k)
        moment.next.registers = moment.machine.registers.set moment.machine.word.x
          (word.toUInt8 &&& moment.machine.word.low)) ∧
      ∃ m, now.machine? = some m ∧
        m.random = { key := Random.keyOfSeed seed, taken := drawn.length } := by
  intro now drawn
  obtain ⟨glyphs, ha, -⟩ := load_of_ok hload
  obtain ⟨fresh, hstarts, hl⟩ := ha.load_starts hseed
  have hfresh : (vm.load program entropy).1.machine? = some fresh :=
    congrArg (fun r => r.1.machine?) hl
  have hstream (k : Nat) : fresh.random.skip k = { key := Random.keyOfSeed seed, taken := k } := by
    rw [Keystream.skip, hstarts.key, hstarts.taken, Nat.zero_add]
  obtain ⟨n, hn, hleads⟩ := leads_undergo hlater hfresh
  obtain ⟨hlast, hdraws⟩ := hleads.random
  rw [← executed_eq] at hlast hdraws
  refine ⟨fun k moment hk => ?_, n, hn, hlast.trans (hstream _)⟩
  obtain ⟨hword, hrandom⟩ := hdraws k moment hk
  rw [hstream] at hrandom
  rw [Moment.next, Machine.step_of_random hword, Machine.takeRandom]
  dsimp only
  rw [hrandom]
  rfl

/-- A draw before the load, then two draws in a loop after it. The second of these takes the word
`0x07c2dee9`, of which the mask `0x0F` leaves 9. -/
theorem draws_take_words_in_loop :
    let vm := (new { memorySize := 86, fontStart := 0, programStart := 80, seed := some 7 }).after
      [.load #[0xC0, 0xFF] default, .step]
    let program : Array Byte := #[0xC1, 0x0F, 0x10, 0x50]
    let later : List Action := [.plain .step, .plain (.update 0.0), .plain (.run 1)]
    (vm.load program default).2 = .ok () ∧
      (vm.load program default).1.Throughout (fun vm a => ¬vm.Loads a.operation) later ∧
      ∃ moment m, (draws ((vm.load program default).1.executed later))[1]? = some moment ∧
        moment.machine.word = 0xC10F ∧
        moment.next.registers = moment.machine.registers.set 1 9 ∧
        ((vm.load program default).1.undergo later).1.machine? = some m ∧ m.random.taken = 2 := by
  intro vm program later
  have ha : vm.Accepts program Glyphs.chip48 :=
    ⟨Config.describes_of_check rfl, rfl, rfl, by decide, by decide⟩
  have hload : (vm.load program default).2 = .ok () := by rw [load_of_accepts ha]
  have hlater :
      (vm.load program default).1.Throughout (fun vm a => ¬vm.Loads a.operation) later := by
    refine ⟨?_, ?_, ?_, trivial⟩ <;> rintro ⟨program, entropy, ⟨⟩, -⟩
  have hwords : (draws ((vm.load program default).1.executed later)).map
      (fun moment => moment.machine.word) = [0xC10F, 0xC10F] := by decide +kernel
  have hlength : (draws ((vm.load program default).1.executed later)).length = 2 := by
    simpa using congrArg List.length hwords
  have hlt : 1 < (draws ((vm.load program default).1.executed later)).length := by
    rw [hlength]
    exact Nat.one_lt_two
  obtain ⟨moment, hsecond⟩ : ∃ moment,
      (draws ((vm.load program default).1.executed later))[1]? = some moment :=
    ⟨_, List.getElem?_eq_getElem hlt⟩
  have hword : moment.machine.word = 0xC10F := by
    have h := congrArg (fun words => words[1]?) hwords
    rw [List.getElem?_map, hsecond] at h
    exact Option.some.inj h
  obtain ⟨hdraws, m, hm, hrandom⟩ := draws_take_words rfl hload hlater
  have hx : moment.machine.word.x = 1 := by rw [hword]; rfl
  have hlow : moment.machine.word.low = 0x0F := by rw [hword]; rfl
  have hblock : Random.block (Random.keyOfSeed 7) (UInt64.ofNat (1 / 16)) = _ := Random.block_seven
  have hdrawn := hdraws 1 moment hsecond
  rw [hx, hlow, hblock] at hdrawn
  refine ⟨hload, hlater, moment, m, hsecond, hword, hdrawn, hm, ?_⟩
  rw [hrandom]
  dsimp only
  rw [hlength]

end Vm

end Chip8

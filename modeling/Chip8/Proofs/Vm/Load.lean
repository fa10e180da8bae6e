import Chip8.Proofs.Config.Check
import Chip8.Proofs.Machine.Boot
import Chip8.Vm.Operation

/-! The three ways a load ends: refused before anything was touched, refused because a range does
not fit when the keys are already released, or done with a fresh machine. -/

namespace Chip8

def Config.HasRoom (c : Config) (length : Nat) : Prop :=
  c.fontStart + Limits.fontLength ≤ c.memorySize ∧ c.programStart + length ≤ c.memorySize

namespace Vm

def started (vm : Vm) (m : Machine) : Vm :=
  { vm with keys := {}, machine? := some m, frequency := vm.config.frequency, trap? := none }

theorem glyphsFor_eq_ok {vm : Vm} {length : Nat} {glyphs : Array Byte}
    (h : vm.glyphsFor length = .ok glyphs) :
    vm.config.Describes length ∧ vm.glyphSource vm.config.font = .ok glyphs ∧
      glyphs.size = Limits.fontLength := by
  unfold glyphsFor at h
  split at h
  · cases h
  · rename_i hcheck
    split at h
    · cases h
    · rename_i found hfound
      split at h
      · rename_i hsize
        cases h
        exact ⟨Config.describes_of_check hcheck, hfound, hsize⟩
      · cases h

structure Accepts (vm : Vm) (program glyphs : Array Byte) : Prop where
  describes : vm.config.Describes program.size
  glyphs_eq : vm.glyphSource vm.config.font = .ok glyphs
  glyphs_size : glyphs.size = Limits.fontLength
  font_fits : vm.config.fontStart + Limits.fontLength ≤ vm.config.memorySize
  program_fits : vm.config.programStart + program.size ≤ vm.config.memorySize

theorem glyphsFor_of_accepts {vm : Vm} {program glyphs : Array Byte}
    (h : vm.Accepts program glyphs) : vm.glyphsFor program.size = .ok glyphs := by
  unfold glyphsFor
  rw [Config.check_of_describes h.describes]
  dsimp only
  rw [h.glyphs_eq]
  exact if_pos h.glyphs_size

theorem load_of_accepts {vm : Vm} {program glyphs : Array Byte} {entropy : Random.Key}
    (h : vm.Accepts program glyphs) :
    vm.load program entropy =
      (vm.started (.fresh vm.config h.describes.memory_pos glyphs program entropy), .ok ()) := by
  have hfont : vm.config.fontStart + glyphs.size ≤ vm.config.memorySize :=
    h.glyphs_size ▸ h.font_fits
  unfold load
  rw [glyphsFor_of_accepts h]
  dsimp only
  rw [Machine.boot_eq _ h.describes.memory_pos, if_pos hfont, if_pos h.program_fits]
  rfl

theorem load_of_glyphsFor_error {vm : Vm} {program : Array Byte} {entropy : Random.Key} {e : Error}
    (h : vm.glyphsFor program.size = .error e) : vm.load program entropy = (vm, .error e) := by
  rw [load, h]

theorem load_congr_key {vm : Vm} {entropy entropy' : Random.Key}
    (h : vm.config.randomKey entropy' = vm.config.randomKey entropy) (program : Array Byte) :
    vm.load program entropy' = vm.load program entropy := by
  unfold load
  cases vm.glyphsFor program.size with
  | error e => rfl
  | ok glyphs =>
    dsimp only
    rw [Machine.boot_congr h]

theorem keys_load_of_glyphsFor {vm : Vm} {program glyphs : Array Byte} {entropy : Random.Key}
    (h : vm.glyphsFor program.size = .ok glyphs) : (vm.load program entropy).1.keys = {} := by
  rw [load, h]
  dsimp only
  cases Machine.boot vm.config glyphs program entropy <;> rfl

theorem load_cases (vm : Vm) (program : Array Byte) (entropy : Random.Key) :
    (∃ e, vm.glyphsFor program.size = .error e ∧ vm.load program entropy = (vm, .error e)) ∨
      (∃ glyphs e, vm.glyphsFor program.size = .ok glyphs ∧ ¬vm.config.HasRoom program.size ∧
        vm.load program entropy = (vm.clearKeys, .error e)) ∨
      ∃ glyphs, ∃ h : vm.Accepts program glyphs, vm.load program entropy =
        (vm.started (.fresh vm.config h.describes.memory_pos glyphs program entropy), .ok ()) := by
  cases hg : vm.glyphsFor program.size with
  | error e => exact .inl ⟨e, rfl, load_of_glyphsFor_error hg⟩
  | ok glyphs =>
    obtain ⟨hd, hs, hl⟩ := glyphsFor_eq_ok hg
    by_cases hroom : vm.config.HasRoom program.size
    · have ha : vm.Accepts program glyphs := ⟨hd, hs, hl, hroom.1, hroom.2⟩
      exact .inr (.inr ⟨glyphs, ha, load_of_accepts ha⟩)
    · -- the keys are released before either range is measured
      have hfail : ∃ e, vm.load program entropy = (vm.clearKeys, .error e) := by
        unfold load
        rw [hg]
        dsimp only
        rw [Machine.boot_eq _ hd.memory_pos]
        by_cases hfont : vm.config.fontStart + glyphs.size ≤ vm.config.memorySize
        · have hprogram : ¬vm.config.programStart + program.size ≤ vm.config.memorySize :=
            fun hp => hroom ⟨hl ▸ hfont, hp⟩
          rw [if_pos hfont, if_neg hprogram]
          exact ⟨_, rfl⟩
        · rw [if_neg hfont]
          exact ⟨_, rfl⟩
      obtain ⟨e, he⟩ := hfail
      exact .inr (.inl ⟨glyphs, e, rfl, hroom, he⟩)

theorem load_of_ok {vm : Vm} {program : Array Byte} {entropy : Random.Key}
    (h : (vm.load program entropy).2 = .ok ()) :
    ∃ glyphs, ∃ ha : vm.Accepts program glyphs, vm.load program entropy =
      (vm.started (.fresh vm.config ha.describes.memory_pos glyphs program entropy), .ok ()) := by
  rcases vm.load_cases program entropy with ⟨e, -, hl⟩ | ⟨glyphs, e, -, -, hl⟩ | hdone
  · rw [hl] at h
    cases h
  · rw [hl] at h
    cases h
  · exact hdone

/-- A load that fails touches nothing but the keys. It releases them when only the room for the
font or for the program is missing, and leaves them as they are in every other case. -/
theorem load_failure (vm : Vm) (program : Array Byte) (entropy : Random.Key) :
    (∀ e, (vm.load program entropy).2 = .error e →
        ∃ keys, (vm.load program entropy).1 = { vm with keys := keys } ∧
          (keys = vm.keys ∨ keys = {})) ∧
      ((∀ e, (vm.load program entropy).2 = .error e → (vm.load program entropy).1 = vm) ↔
        vm.keys = {} ∨ (∃ e, vm.glyphsFor program.size = .error e) ∨
          vm.config.HasRoom program.size) := by
  rcases vm.load_cases program entropy with
    ⟨e, he, hl⟩ | ⟨glyphs, e, hg, hroom, hl⟩ | ⟨glyphs, ha, hl⟩
  · rw [hl]
    exact ⟨fun _ _ => ⟨vm.keys, rfl, .inl rfl⟩, fun _ => .inr (.inl ⟨e, he⟩), fun _ _ _ => rfl⟩
  · rw [hl]
    refine ⟨fun _ _ => ⟨{}, rfl, .inr rfl⟩, ?_, ?_⟩
    · intro h
      have hk : vm.clearKeys.keys = vm.keys := congrArg keys (h e rfl)
      exact .inl hk.symm
    · rintro (hk | ⟨e', he'⟩ | hroom')
      · intro _ _
        change { vm with keys := {} } = vm
        rw [← hk]
      · rw [hg] at he'
        cases he'
      · exact absurd hroom' hroom
  · rw [hl]
    have hroom : vm.config.HasRoom program.size := ⟨ha.font_fits, ha.program_fits⟩
    exact ⟨fun _ h => (nomatch h), fun _ => .inr (.inr hroom), fun _ _ h => (nomatch h)⟩

/-- Memory of 82 bytes has room for the font and a program of one instruction, not of three bytes.
The key that was held before such a load is up after it. -/
theorem load_releases_keys :
    let vm := (new { memorySize := 82, fontStart := 0, programStart := 80 }).after [.setKey 5 true]
    let program : Array Byte := #[0x00, 0xE0, 0x00]
    (vm.load program default).2 = .error (.outOfMemory .program 80 3 82) ∧
      (vm.load program default).1 ≠ vm := by
  intro vm program
  have hg : vm.glyphsFor program.size = .ok (Glyphs.builtin .chip48) := rfl
  have hload : vm.load program default =
      (vm.clearKeys, .error (.outOfMemory .program 80 3 82)) := by
    unfold load
    rw [hg]
    dsimp only
    rw [Machine.boot_eq _ (Nat.succ_pos 81), if_pos (by decide), if_neg (by decide)]
    rfl
  rw [hload]
  refine ⟨rfl, fun h => ?_⟩
  have hk : vm.clearKeys.keys = vm.keys := congrArg keys h
  have hne : vm.clearKeys.keys ≠ vm.keys := by decide
  exact hne hk

end Vm

end Chip8

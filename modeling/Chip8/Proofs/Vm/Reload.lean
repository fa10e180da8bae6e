import Chip8.Proofs.Machine.Fresh
import Chip8.Proofs.Vm.Load

/-! A load that succeeds leaves nothing of what was before: the virtual machine after it is known
from its configuration, its glyphs and the program. -/

namespace Chip8.Vm

def answers (vm : Vm) : List Operation → List Answer
  | [] => []
  | o :: rest => (o.perform vm).2 :: (o.perform vm).1.answers rest

variable {vm other : Vm} {program glyphs : Array Byte} {entropy : Random.Key}

namespace Accepts

theorem apart (h : vm.Accepts program glyphs) :
    program.size = 0 ∨ vm.config.fontStart + glyphs.size ≤ vm.config.programStart ∨
      vm.config.programStart + program.size ≤ vm.config.fontStart := by
  have hover := h.describes.apart
  rw [h.glyphs_size]
  unfold Config.Overlaps Config.fontStop Config.programStop at hover
  omega

theorem filled (h : vm.Accepts program glyphs) :
    (Memory.filled vm.config h.describes.memory_pos glyphs program).Filled vm.config glyphs
      program := by
  have hfont : vm.config.fontStart + glyphs.size ≤ vm.config.memorySize :=
    h.glyphs_size ▸ h.font_fits
  exact Memory.filled_filled _ hfont h.program_fits h.apart

theorem starts {seed : UInt64} (h : vm.Accepts program glyphs)
    (hseed : vm.config.seed = some seed) :
    (Machine.fresh vm.config h.describes.memory_pos glyphs program entropy).Starts vm.config seed
      glyphs program := by
  have hpc : vm.config.programStart < UInt16.size :=
    Nat.lt_of_lt_of_le h.describes.program_lt h.describes.memory_le
  exact Machine.fresh_starts _ hseed hpc h.filled

theorem load_starts {seed : UInt64} (h : vm.Accepts program glyphs)
    (hseed : vm.config.seed = some seed) :
    ∃ m : Machine, m.Starts vm.config seed glyphs program ∧
      vm.load program entropy = (vm.started m, .ok ()) :=
  ⟨_, h.starts hseed, load_of_accepts h⟩

theorem ready_after {seed : UInt64} (h : vm.Accepts program glyphs)
    (hseed : vm.config.seed = some seed) :
    ∃ next m, next = vm.after [.load program entropy] ∧ m.Starts vm.config seed glyphs program ∧
      next.ready = .ok m := by
  obtain ⟨m, hstarts, hl⟩ := h.load_starts hseed
  exact ⟨vm.started m, m, (congrArg Prod.fst hl).symm, hstarts, rfl⟩

theorem congr (h : vm.Accepts program glyphs) (hc : other.config = vm.config)
    (hs : other.glyphSource = vm.glyphSource) : other.Accepts program glyphs where
  describes := hc ▸ h.describes
  glyphs_eq := hc ▸ hs ▸ h.glyphs_eq
  glyphs_size := h.glyphs_size
  font_fits := hc ▸ h.font_fits
  program_fits := hc ▸ h.program_fits

theorem standard {seed : Option UInt64} (hc : vm.config = { seed := seed })
    (hs : vm.glyphSource = GlyphSource.builtin) (h : program.size ≤ 3584) :
    vm.Accepts program Glyphs.chip48 where
  describes := by
    have hempty : vm.config.Describes 0 := Config.describes_of_check (by rw [hc]; rfl)
    refine { hempty with apart := fun ho => ?_ }
    obtain ⟨-, -, hlt⟩ := ho
    rw [hc] at hlt
    change 512 < 80 + 80 at hlt
    omega
  glyphs_eq := by
    rw [hc, hs]
    rfl
  glyphs_size := rfl
  font_fits := by
    rw [hc]
    change 80 + 80 ≤ 4096
    omega
  program_fits := by
    rw [hc]
    exact Nat.add_le_add_left h 512

theorem load_congr (h : vm.Accepts program glyphs) (hc : other.config = vm.config)
    (hs : other.glyphSource = vm.glyphSource) {entropy' : Random.Key}
    (hkey : vm.config.randomKey entropy' = vm.config.randomKey entropy) :
    other.load program entropy' = vm.load program entropy := by
  have hother : other.Accepts program glyphs := h.congr hc hs
  rw [load_of_accepts hother, load_of_accepts h]
  obtain ⟨config, source, machine?, keys, frequency, trap?⟩ := vm
  obtain ⟨config', source', machine?', keys', frequency', trap?'⟩ := other
  cases hc
  cases hs
  rw [Machine.fresh, hkey]
  rfl

end Accepts

/-- After a load that succeeds the machine is the one that starts with the glyphs and the program,
and all else is as the configuration has it. Whatever was done before cannot be told from it. -/
theorem load_forgets {seed : UInt64} (hseed : vm.config.seed = some seed)
    (h : (vm.load program entropy).2 = .ok ()) :
    ∃ glyphs m,
      vm.glyphSource vm.config.font = .ok glyphs ∧ glyphs.size = 80 ∧
      (program.size = 0 ∨ vm.config.fontStart + 80 ≤ vm.config.programStart ∨
        vm.config.programStart + program.size ≤ vm.config.fontStart) ∧
      (vm.load program entropy).1 =
        { config := vm.config, glyphSource := vm.glyphSource, machine? := some m, keys := ⟨0⟩,
          frequency := vm.config.frequency, trap? := none } ∧
      m.Starts vm.config seed glyphs program ∧
      (∀ n, n.Starts vm.config seed glyphs program → n = m) ∧
      ∀ (other : Vm) (entropy' : Random.Key),
        other.config = vm.config → other.glyphSource = vm.glyphSource →
        other.load program entropy' = vm.load program entropy ∧
        ∀ later,
          (other.load program entropy').1.answers later =
            (vm.load program entropy).1.answers later ∧
          (other.load program entropy').1.after later =
            (vm.load program entropy).1.after later := by
  obtain ⟨glyphs, ha, -⟩ := load_of_ok h
  obtain ⟨m, hstarts, hl⟩ := ha.load_starts hseed
  have hsize : glyphs.size = 80 := ha.glyphs_size
  refine ⟨glyphs, m, ha.glyphs_eq, hsize, hsize ▸ ha.apart, ?_, hstarts,
    fun n hn => hn.unique hstarts, fun other entropy' hc hs => ?_⟩
  · rw [hl]
    rfl
  · have hkey := Config.randomKey_of_seed hseed
    have hload := ha.load_congr hc hs ((hkey entropy').trans (hkey entropy).symm)
    rw [hload]
    exact ⟨rfl, fun _ => ⟨rfl, rfl⟩⟩

theorem load_forgets_keys :
    let vm := (new { seed := some 7 }).after [.setKey 5 true, .setFrequency ⟨1⟩, .step]
    let program : Array Byte := #[0x12, 0x00]
    vm.config.seed = some 7 ∧ (vm.load program default).2 = .ok () ∧ ∃ glyphs m,
      (vm.load program default).1 =
        { config := vm.config, glyphSource := vm.glyphSource, machine? := some m, keys := ⟨0⟩,
          frequency := vm.config.frequency, trap? := none } ∧
      m.Starts vm.config 7 glyphs program := by
  intro vm program
  have ha : vm.Accepts program Glyphs.chip48 := .standard rfl rfl (by decide)
  have hok : (vm.load program default).2 = .ok () := by rw [load_of_accepts ha]
  obtain ⟨glyphs, m, -, -, -, hl, hstarts, -, -⟩ := load_forgets rfl hok
  exact ⟨rfl, hok, glyphs, m, hl, hstarts⟩

end Chip8.Vm

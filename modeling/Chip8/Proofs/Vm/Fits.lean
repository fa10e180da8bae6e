import Chip8.Proofs.Vm.Invariant
import Chip8.Proofs.Vm.Load

/-! Every machine that a host can bring about has the sizes that its configuration asks for, and
these lie within the limits. The check alone does not see to it: that the font ends inside memory is
found out when it is loaded. -/

namespace Chip8

structure Config.Sized (c : Config) : Prop where
  memory_ge : Limits.fontLength ≤ c.memorySize
  memory_le : c.memorySize ≤ Limits.memorySize
  font_fits : c.fontStart + Limits.fontLength ≤ c.memorySize
  program_lt : c.programStart < c.memorySize
  stack_pos : 0 < c.stackSize
  stack_le : c.stackSize ≤ Limits.stackSize
  width_pos : 0 < c.screenWidth
  width_le : c.screenWidth ≤ Limits.screenSide
  height_pos : 0 < c.screenHeight
  height_le : c.screenHeight ≤ Limits.screenSide

structure Machine.Fits (m : Machine) (c : Config) : Prop extends c.Sized where
  capacity : m.memory.capacity = c.memorySize
  fontStart : m.memory.fontStart = c.fontStart
  programStart : m.memory.programStart = c.programStart
  depth_le : m.stack.depth ≤ m.stack.capacity
  stack : m.stack.capacity = c.stackSize
  pixels : m.screen.pixels.size = m.screen.width * m.screen.height
  width : m.screen.width = c.screenWidth
  height : m.screen.height = c.screenHeight
  dialect : m.dialect = c.dialect

namespace Machine

theorem fits_iff {m : Machine} {c : Config} : m.Fits c ↔ c.Sized ∧ m.shape = c.shape := by
  constructor
  · intro h
    refine ⟨h.toSized, ?_⟩
    simp only [shape, Config.shape, h.capacity, h.fontStart, h.programStart, h.stack, h.width,
      h.height, h.dialect]
  · rintro ⟨hs, h⟩
    injection h with capacity fontStart programStart stack width height dialect
    exact ⟨hs, capacity, fontStart, programStart, m.stack.depth_le, stack, m.screen.size_pixels,
      width, height, dialect⟩

theorem Fits.of_shape {m n : Machine} {c : Config} (h : m.Fits c) (he : n.shape = m.shape) :
    n.Fits c :=
  have ⟨hs, hm⟩ := fits_iff.1 h
  fits_iff.2 ⟨hs, he.trans hm⟩

theorem Fits.step {m : Machine} {c : Config} (h : m.Fits c) (keys : Keypad) :
    (m.step keys).1.Fits c := h.of_shape (m.shape_step keys)

end Machine

namespace Vm

theorem Accepts.sized {vm : Vm} {program glyphs : Array Byte} (h : vm.Accepts program glyphs) :
    vm.config.Sized where
  memory_ge := Nat.le_trans (Nat.le_add_left ..) h.font_fits
  memory_le := h.describes.memory_le
  font_fits := h.font_fits
  program_lt := h.describes.program_lt
  stack_pos := h.describes.stack_pos
  stack_le := h.describes.stack_le
  width_pos := h.describes.width_pos
  width_le := h.describes.width_le
  height_pos := h.describes.height_pos
  height_le := h.describes.height_le

def Fits (c : Config) (vm : Vm) : Prop :=
  vm.config = c ∧ ∀ m, vm.machine? = some m → m.Fits c

theorem fits_new (c : Config) (source : GlyphSource) : (new c source).Fits c :=
  ⟨rfl, fun _ h => nomatch h⟩

theorem Accepts.fits_started {vm : Vm} {program glyphs : Array Byte} {entropy : Random.Key}
    (h : vm.Accepts program glyphs) :
    (vm.started (.fresh vm.config h.describes.memory_pos glyphs program entropy)).Fits
      vm.config := by
  refine ⟨rfl, fun m hm => ?_⟩
  cases hm
  exact Machine.fits_iff.2 ⟨h.sized, Machine.shape_fresh ..⟩

theorem Fits.load {c : Config} {vm : Vm} (h : vm.Fits c) (program : Array Byte)
    (entropy : Random.Key) : (vm.load program entropy).1.Fits c := by
  rcases vm.load_cases program entropy with ⟨e, -, hl⟩ | ⟨glyphs, e, -, -, hl⟩ | ⟨glyphs, ha, hl⟩
  · rw [hl]
    exact h
  · rw [hl]
    exact h
  · obtain ⟨rfl, -⟩ := h
    rw [hl]
    exact ha.fits_started

theorem Fits.step {c : Config} {vm : Vm} (h : vm.Fits c) : vm.step.1.Fits c := by
  obtain ⟨hc, hm⟩ := h
  unfold Vm.step
  split
  · exact ⟨hc, hm⟩
  · rename_i m hready
    have hf : m.Fits c := hm m (machine?_of_ready hready)
    have hs := hf.step vm.keys
    split
    · rename_i heq
      rw [heq] at hs
      exact ⟨hc, fun _ hn => by cases hn; exact hs⟩
    · rename_i heq
      rw [heq] at hs
      exact ⟨hc, fun _ hn => by cases hn; exact hs⟩

theorem Fits.mapMachine {c : Config} {vm : Vm} (h : vm.Fits c) {f : Machine → Machine}
    (hf : ∀ m, (f m).shape = m.shape) : (vm.mapMachine f).Fits c := by
  refine ⟨h.1, fun n hn => ?_⟩
  obtain ⟨m, hm, rfl⟩ := Option.map_eq_some_iff.1 hn
  exact (h.2 m hm).of_shape (hf m)

theorem invariant_fits (c : Config) : Invariant (Fits c) where
  load _ program entropy h := h.load program entropy
  step _ h := h.step
  unmark _ h := h.mapMachine fun _ => rfl
  tick _ h := h.mapMachine fun _ => rfl
  setFrequency _ _ h := h
  setKey _ _ _ h := h
  clearKeys _ h := h

theorem Fits.changeKeys {c : Config} {vm : Vm} (h : vm.Fits c) (change : Keypad → Keypad) :
    (vm.changeKeys change).Fits c := h

theorem Fits.act {c : Config} {vm : Vm} (h : vm.Fits c) (a : Action) : (a.perform vm).1.Fits c := by
  have hi := invariant_fits c
  obtain ⟨o, changes⟩ := a
  have hkeys (i : Nat) (vm : Vm) (h : vm.Fits c) := h.changeKeys (changes i)
  cases o with
  | step => exact (h.changeKeys (changes 0)).step
  | run count => exact runFromAmid_keeps hkeys hi.step count .ok vm h
  | update milliseconds =>
    exact updateAmid_keeps hkeys hi.step hi.unmark hi.tick milliseconds vm h
  | _ => exact hi.perform vm _ h

theorem fits_after (c : Config) (source : GlyphSource) (operations : List Operation) :
    ((new c source).after operations).Fits c :=
  (invariant_fits c).after operations _ (fits_new c source)

theorem Fits.undergo {c : Config} {vm : Vm} (h : vm.Fits c) (actions : List Action) :
    (vm.undergo actions).1.Fits c := by
  induction actions generalizing vm with
  | nil => exact h
  | cons a rest ih => exact ih (h.act a)

theorem fits_undergo (c : Config) (source : GlyphSource) (actions : List Action) :
    ((new c source).undergo actions).1.Fits c := (fits_new c source).undergo actions

theorem fits_of_undergo {c : Config} {source : GlyphSource} {actions : List Action} {vm : Vm}
    {m : Machine} (hvm : vm = ((new c source).undergo actions).1) (hm : vm.machine? = some m) :
    m.Fits c :=
  have hfits : vm.Fits c := hvm ▸ fits_undergo c source actions
  hfits.2 m hm

end Vm

end Chip8

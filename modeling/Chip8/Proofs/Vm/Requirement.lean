import Chip8.Proofs.Vm.Load
import Mathlib

/-! What a load asks for, as a list in which the first thing that is missing decides the error. A
program that is too long for its place below the font overlaps it before it is too long for memory.
-/

namespace Chip8

structure Requirement where
  met : Bool
  error : Error

namespace Requirement

def firstUnmet? (l : List Requirement) : Option Error := (l.find? fun r => !r.met).map error

theorem firstUnmet?_cons (p : Prop) [Decidable p] (e : Error) (l : List Requirement) :
    firstUnmet? (⟨p, e⟩ :: l) = if p then firstUnmet? l else some e := by
  by_cases h : p <;> simp [firstUnmet?, h]

theorem firstUnmet?_append (l more : List Requirement) :
    firstUnmet? (l ++ more) = (firstUnmet? l).or (firstUnmet? more) := by
  simp [firstUnmet?, List.find?_append, Option.map_or]

end Requirement

def Error.field? : Error → Option String
  | config cause => some cause.field
  | _ => none

open Requirement

namespace Config

def requirements (c : Config) (length : Nat) : List Requirement := [
  ⟨1 ≤ c.memorySize ∧ c.memorySize ≤ 65536, .config (.memorySize c.memorySize)⟩,
  ⟨c.programStart < c.memorySize, .config (.programStart c.programStart c.memorySize)⟩,
  ⟨c.fontStart < c.memorySize, .config (.fontStart c.fontStart c.memorySize)⟩,
  ⟨1 ≤ c.stackSize ∧ c.stackSize ≤ 256, .config (.stackSize c.stackSize)⟩,
  ⟨1 ≤ c.screenWidth ∧ c.screenWidth ≤ 256,
    .config (.screenSide .width c.screenWidth c.screenHeight)⟩,
  ⟨1 ≤ c.screenHeight ∧ c.screenHeight ≤ 256,
    .config (.screenSide .height c.screenWidth c.screenHeight)⟩,
  ⟨length = 0 ∨ c.fontStart + 80 ≤ c.programStart ∨ c.programStart + length ≤ c.fontStart,
    .config (.overlap c.fontStart (c.fontStart + 80) c.programStart (c.programStart + length))⟩]

def roomRequirements (c : Config) (length : Nat) : List Requirement := [
  ⟨c.fontStart + 80 ≤ c.memorySize, .outOfMemory .font c.fontStart 80 c.memorySize⟩,
  ⟨c.programStart + length ≤ c.memorySize,
    .outOfMemory .program c.programStart length c.memorySize⟩]

end Config

def GlyphSource.requirements (source : GlyphSource) (font : Font) : List Requirement :=
  match source font with
  | .error e => [⟨false, e⟩]
  | .ok glyphs => [⟨glyphs.size = 80, .config (.fontLength glyphs.size)⟩]

def Config.loadRequirements (c : Config) (source : GlyphSource) (length : Nat) :
    List Requirement :=
  c.requirements length ++ source.requirements c.font ++ c.roomRequirements length

structure Config.Loadable (c : Config) (source : GlyphSource) (length : Nat) : Prop where
  memory : c.memorySize ∈ Set.Icc 1 65536
  program_start : c.programStart < c.memorySize
  stack : c.stackSize ∈ Set.Icc 1 256
  width : c.screenWidth ∈ Set.Icc 1 256
  height : c.screenHeight ∈ Set.Icc 1 256
  glyphs : ∃ glyphs, source c.font = .ok glyphs ∧ glyphs.size = 80
  font_room : c.fontStart + 80 ≤ c.memorySize
  program_room : c.programStart + length ≤ c.memorySize
  apart : length = 0 ∨ Disjoint (Set.Ico c.fontStart (c.fontStart + 80))
    (Set.Ico c.programStart (c.programStart + length))

namespace Config

theorem overlaps_iff (c : Config) (length : Nat) :
    c.Overlaps length ↔
      ¬(length = 0 ∨ c.fontStart + 80 ≤ c.programStart ∨ c.programStart + length ≤ c.fontStart) := by
  unfold Overlaps fontStop programStop
  change 0 < length ∧ c.fontStart < c.programStart + length ∧ c.programStart < c.fontStart + 80 ↔ _
  omega

theorem apart_iff (c : Config) (length : Nat) :
    length = 0 ∨ Disjoint (Set.Ico c.fontStart (c.fontStart + 80))
        (Set.Ico c.programStart (c.programStart + length)) ↔
      ¬c.Overlaps length := by
  rw [overlaps_iff, not_not, Set.Ico_disjoint_Ico]
  omega

theorem firstUnmet?_requirements (c : Config) (length : Nat) :
    firstUnmet? (c.requirements length) =
      match c.check length with
      | .error cause => some (.config cause)
      | .ok () => none := by
  -- the check asks for the opposite of each condition
  have hside (n limit : Nat) : n = 0 ∨ limit < n ↔ ¬(1 ≤ n ∧ n ≤ limit) := by omega
  have hstart (start : Nat) : c.memorySize ≤ start ↔ ¬start < c.memorySize := Nat.not_lt.symm
  simp only [check, requirements, firstUnmet?_cons, hside, hstart, overlaps_iff, ite_not,
    Limits.memorySize, Limits.stackSize, Limits.screenSide]
  split_ifs <;> rfl

end Config

theorem Machine.boot_error_iff {c : Config} (h : 0 < c.memorySize) {glyphs program : Array Byte}
    (hg : glyphs.size = 80) (entropy : Random.Key) (e : Error) :
    boot c glyphs program entropy = .error e ↔
      firstUnmet? (c.roomRequirements program.size) = some e := by
  rw [boot_eq c h, hg, Config.roomRequirements, firstUnmet?_cons, firstUnmet?_cons]
  split_ifs <;> simp [firstUnmet?]

namespace Vm

theorem glyphsFor_error_iff (vm : Vm) (length : Nat) (e : Error) :
    vm.glyphsFor length = .error e ↔
      firstUnmet? (vm.config.requirements length ++ vm.glyphSource.requirements vm.config.font) =
        some e := by
  rw [firstUnmet?_append, Config.firstUnmet?_requirements, glyphsFor]
  cases hc : vm.config.check length with
  | error cause => simp
  | ok =>
    simp only [Option.none_or, GlyphSource.requirements]
    cases hs : vm.glyphSource vm.config.font with
    | error e => simp [firstUnmet?]
    | ok glyphs =>
      simp only [firstUnmet?_cons]
      by_cases hsize : glyphs.size = 80
      · simp [hsize, Limits.fontLength, Limits.glyphHeight, Limits.glyphCount, firstUnmet?]
      · simp [hsize, Limits.fontLength, Limits.glyphHeight, Limits.glyphCount]

theorem load_error_iff (vm : Vm) (program : Array Byte) (entropy : Random.Key) (e : Error) :
    (vm.load program entropy).2 = .error e ↔
      firstUnmet? (vm.config.loadRequirements vm.glyphSource program.size) = some e := by
  have hfirst := vm.glyphsFor_error_iff program.size
  rw [Config.loadRequirements, firstUnmet?_append]
  cases hg : vm.glyphsFor program.size with
  | error e' =>
    rw [(hfirst e').1 hg, load_of_glyphsFor_error hg]
    simp
  | ok glyphs =>
    obtain ⟨hd, -, hsize⟩ := glyphsFor_eq_ok hg
    have hnone : firstUnmet? (vm.config.requirements program.size ++
        vm.glyphSource.requirements vm.config.font) = none := by
      refine Option.eq_none_iff_forall_ne_some.2 fun e' he' => ?_
      rw [← hfirst, hg] at he'
      cases he'
    rw [hnone, Option.none_or, ← Machine.boot_error_iff hd.memory_pos hsize entropy,
      load, hg]
    dsimp only
    split <;> simp [*]

theorem loadable_iff_accepts (vm : Vm) (program : Array Byte) :
    vm.config.Loadable vm.glyphSource program.size ↔ ∃ glyphs, vm.Accepts program glyphs := by
  constructor
  · intro h
    obtain ⟨glyphs, hglyphs, hsize⟩ := h.glyphs
    have hfont := h.font_room
    refine ⟨glyphs, ?_, hglyphs, hsize, hfont, h.program_room⟩
    exact {
      memory_pos := h.memory.1
      memory_le := h.memory.2
      program_lt := h.program_start
      font_lt := by omega
      stack_pos := h.stack.1
      stack_le := h.stack.2
      width_pos := h.width.1
      width_le := h.width.2
      height_pos := h.height.1
      height_le := h.height.2
      apart := (vm.config.apart_iff program.size).1 h.apart }
  · rintro ⟨glyphs, h⟩
    have hd := h.describes
    exact {
      memory := ⟨hd.memory_pos, hd.memory_le⟩
      program_start := hd.program_lt
      stack := ⟨hd.stack_pos, hd.stack_le⟩
      width := ⟨hd.width_pos, hd.width_le⟩
      height := ⟨hd.height_pos, hd.height_le⟩
      glyphs := ⟨glyphs, h.glyphs_eq, h.glyphs_size⟩
      font_room := h.font_fits
      program_room := h.program_fits
      apart := (vm.config.apart_iff program.size).2 hd.apart }

/-- A load succeeds if and only if the font is there and everything fits; otherwise its error is
that of the first requirement that is not met. What was loaded before has no part in it. -/
theorem load_first_unmet (vm : Vm) (program : Array Byte) (entropy : Random.Key) :
    ((vm.load program entropy).2 = .ok () ↔ vm.config.Loadable vm.glyphSource program.size) ∧
      (∀ e, (vm.load program entropy).2 = .error e ↔
        firstUnmet? (vm.config.loadRequirements vm.glyphSource program.size) = some e) ∧
      (vm.config.requirements program.size).map (fun r => r.error.field?) =
        ["memory_size", "program_start", "font_start", "stack_size", "display_width",
          "display_height", "font_start"].map some := by
  refine ⟨?_, vm.load_error_iff program entropy, rfl⟩
  rw [loadable_iff_accepts]
  constructor
  · intro h
    obtain ⟨glyphs, ha, -⟩ := load_of_ok h
    exact ⟨glyphs, ha⟩
  · rintro ⟨glyphs, ha⟩
    rw [load_of_accepts ha]

end Vm

/-- A program of 5000 bytes at 512 does not fit into 4096 bytes, but it meets the font first. -/
example : firstUnmet? (({ fontStart := 1000 } : Config).loadRequirements .builtin 5000) =
    some (.config (.overlap 1000 1080 512 5512)) := by
  decide

end Chip8

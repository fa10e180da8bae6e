import Chip8.Config.Basic
import Mathlib.Tactic.SplitIfs

/-! The configurations that pass the check, said at once instead of test by test. -/

namespace Chip8.Config

structure Describes (c : Config) (length : Nat) : Prop where
  memory_pos : 0 < c.memorySize
  memory_le : c.memorySize ≤ Limits.memorySize
  program_lt : c.programStart < c.memorySize
  font_lt : c.fontStart < c.memorySize
  stack_pos : 0 < c.stackSize
  stack_le : c.stackSize ≤ Limits.stackSize
  width_pos : 0 < c.screenWidth
  width_le : c.screenWidth ≤ Limits.screenSide
  height_pos : 0 < c.screenHeight
  height_le : c.screenHeight ≤ Limits.screenSide
  apart : ¬ c.Overlaps length

theorem describes_of_check {c : Config} {length : Nat} (h : c.check length = .ok ()) :
    c.Describes length := by
  unfold check at h
  split at h
  · cases h
  split at h
  · cases h
  split at h
  · cases h
  split at h
  · cases h
  split at h
  · cases h
  split at h
  · cases h
  split at h
  · cases h
  rename_i memory program font stack width height apart
  constructor <;> first | exact apart | omega

theorem check_of_describes {c : Config} {length : Nat} (h : c.Describes length) :
    c.check length = .ok () := by
  have hm := h.memory_pos
  have hm' := h.memory_le
  have hp := h.program_lt
  have hf := h.font_lt
  have hs := h.stack_pos
  have hs' := h.stack_le
  have hw := h.width_pos
  have hw' := h.width_le
  have hh := h.height_pos
  have hh' := h.height_le
  unfold check
  rw [if_neg (by omega), if_neg (by omega), if_neg (by omega), if_neg (by omega),
    if_neg (by omega), if_neg (by omega), if_neg h.apart]

theorem not_overlaps_zero (c : Config) : ¬c.Overlaps 0 := fun h => Nat.lt_irrefl 0 h.1

theorem check_eq_zero (c : Config) (length : Nat) :
    c.check length = match c.check 0 with
      | .error cause => .error cause
      | .ok () =>
        if c.Overlaps length then
          .error (.overlap c.fontStart c.fontStop c.programStart (c.programStop length))
        else .ok () := by
  unfold check
  rw [if_neg c.not_overlaps_zero]
  split_ifs <;> rfl

end Chip8.Config

import Chip8.Dialect
import Chip8.Glyphs
import Chip8.Pace

/-! Configurations: the sizes of a machine, where its memory is filled, and how it behaves. Not
every configuration describes a machine; `Config.check` finds the first thing wrong with one. -/

namespace Chip8

structure Config where
  memorySize : Nat := 4096
  programStart : Nat := 512
  fontStart : Nat := 80
  stackSize : Nat := 16
  screenWidth : Nat := 64
  screenHeight : Nat := 32
  frequency : Frequency := ⟨700⟩
  font : Font := .chip48
  dialect : Dialect := {}
  -- without a seed the random bytes differ from load to load
  seed : Option UInt64 := none
  deriving DecidableEq, Repr

namespace Config

def fontStop (c : Config) : Nat := c.fontStart + Limits.fontLength

def programStop (c : Config) (length : Nat) : Nat := c.programStart + length

def Overlaps (c : Config) (length : Nat) : Prop :=
  0 < length ∧ c.fontStart < c.programStop length ∧ c.programStart < c.fontStop

instance (c : Config) (length : Nat) : Decidable (c.Overlaps length) := by
  unfold Overlaps
  infer_instance

/-- Checks that the configuration describes a machine that can hold a program of the given length
beside its font. That both fit into memory is not checked here but on loading. -/
def check (c : Config) (length : Nat) : Except ConfigError Unit :=
  if c.memorySize = 0 ∨ Limits.memorySize < c.memorySize then
    .error (.memorySize c.memorySize)
  else if c.memorySize ≤ c.programStart then
    .error (.programStart c.programStart c.memorySize)
  else if c.memorySize ≤ c.fontStart then
    .error (.fontStart c.fontStart c.memorySize)
  else if c.stackSize = 0 ∨ Limits.stackSize < c.stackSize then
    .error (.stackSize c.stackSize)
  else if c.screenWidth = 0 ∨ Limits.screenSide < c.screenWidth then
    .error (.screenSide .width c.screenWidth c.screenHeight)
  else if c.screenHeight = 0 ∨ Limits.screenSide < c.screenHeight then
    .error (.screenSide .height c.screenWidth c.screenHeight)
  else if c.Overlaps length then
    .error (.overlap c.fontStart c.fontStop c.programStart (c.programStop length))
  else .ok ()

end Config

end Chip8

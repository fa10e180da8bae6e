import Chip8.Proofs.Machine.Shape

/-! The machine before its first step. Booting has two checks of its own, one for each range that
is filled, and beyond them the machine is given outright. -/

namespace Chip8

namespace Memory

def filled (c : Config) (h : 0 < c.memorySize) (glyphs program : Array Byte) : Memory :=
  ((zeros c.memorySize h c.fontStart c.programStart).writeBlock c.fontStart
    glyphs.toList).writeBlock c.programStart program.toList

theorem capacity_zeros (n : Nat) (h : 0 < n) (fontStart programStart : Nat) :
    (zeros n h fontStart programStart).capacity = n := by
  simp [zeros, capacity]

theorem capacity_filled (c : Config) (h : 0 < c.memorySize) (glyphs program : Array Byte) :
    (filled c h glyphs program).capacity = c.memorySize := by
  simp only [filled, capacity_writeBlock, capacity_zeros]

theorem capacity_load {m n : Memory} {region : Region} {offset : Nat} {bytes : Array Byte}
    (h : m.load region offset bytes = .ok n) : n.capacity = m.capacity := by
  unfold load at h
  split at h
  · cases h
    rw [capacity_writeBlock]
  · cases h

theorem starts_filled (c : Config) (h : 0 < c.memorySize) (glyphs program : Array Byte) :
    (filled c h glyphs program).fontStart = c.fontStart ∧
      (filled c h glyphs program).programStart = c.programStart := by
  obtain ⟨hf, hp⟩ := starts_writeBlock
    ((zeros c.memorySize h c.fontStart c.programStart).writeBlock c.fontStart glyphs.toList)
    c.programStart program.toList
  obtain ⟨hf', hp'⟩ := starts_writeBlock (zeros c.memorySize h c.fontStart c.programStart)
    c.fontStart glyphs.toList
  exact ⟨hf.trans hf', hp.trans hp'⟩

end Memory

namespace Machine

def fresh (c : Config) (h : 0 < c.memorySize) (glyphs program : Array Byte)
    (entropy : Random.Key) : Machine :=
  { pc := UInt16.ofNat c.programStart
    memory := Memory.filled c h glyphs program
    stack := .empty c.stackSize
    screen := .dark c.screenWidth c.screenHeight
    random := { key := c.randomKey entropy }
    dialect := c.dialect }

theorem shape_fresh (c : Config) (h : 0 < c.memorySize) (glyphs program : Array Byte)
    (entropy : Random.Key) : (fresh c h glyphs program entropy).shape = c.shape := by
  obtain ⟨hf, hp⟩ := Memory.starts_filled c h glyphs program
  simp only [shape, Config.shape, fresh, CallStack.empty, Screen.dark, Memory.capacity_filled, hf,
    hp]

theorem boot_congr {c : Config} {entropy entropy' : Random.Key}
    (h : c.randomKey entropy' = c.randomKey entropy) (glyphs program : Array Byte) :
    boot c glyphs program entropy' = boot c glyphs program entropy := by
  unfold boot
  rw [h]

theorem boot_eq (c : Config) (h : 0 < c.memorySize) (glyphs program : Array Byte)
    (entropy : Random.Key) :
    boot c glyphs program entropy =
      if c.fontStart + glyphs.size ≤ c.memorySize then
        if c.programStart + program.size ≤ c.memorySize then
          .ok (fresh c h glyphs program entropy)
        else .error (.outOfMemory .program c.programStart program.size c.memorySize)
      else .error (.outOfMemory .font c.fontStart glyphs.size c.memorySize) := by
  have hp : ((Memory.zeros c.memorySize h c.fontStart c.programStart).writeBlock c.fontStart
      glyphs.toList).programStart = c.programStart := (Memory.starts_writeBlock ..).2
  have hf : (Memory.zeros c.memorySize h c.fontStart c.programStart).fontStart = c.fontStart := rfl
  unfold boot Memory.loadFont Memory.loadProgram Memory.load
  rw [dif_pos h, hf, Memory.capacity_zeros]
  by_cases hfont : c.fontStart + glyphs.size ≤ c.memorySize
  · simp only [if_pos hfont, bind, Except.bind, hp, Memory.capacity_writeBlock,
      Memory.capacity_zeros]
    by_cases hprogram : c.programStart + program.size ≤ c.memorySize
    · simp only [if_pos hprogram]
      rfl
    · simp only [if_neg hprogram]
  · simp only [if_neg hfont]
    rfl

end Machine

end Chip8

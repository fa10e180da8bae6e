import Chip8.Proofs.Checked.Parts
import Chip8.Proofs.Vm.Load

/-! Loading in partial operations. The ends of the font and of the program are sums, which are made
after the tests on their parts; a range is filled cell by cell, with no address reduced. -/

namespace Chip8.Checked

def check (c : Config) (length : Nat) : Option (Except ConfigError Unit) :=
  match c.check 0 with
  | .error cause => some (.error cause)
  | .ok () => do
    let fontStop ← add 64 c.fontStart Limits.fontLength
    let programStop ← add 64 c.programStart length
    if 0 < length ∧ c.fontStart < programStop ∧ c.programStart < fontStop then
      some (.error (.overlap c.fontStart fontStop c.programStart programStop))
    else some (.ok ())

def fill (m : Memory) (a : Nat) : List Byte → Option Memory
  | [] => some m
  | b :: rest =>
    if h : a < m.cells.size then
      fill { m with cells := m.cells.set a b h, capacity_pos := by simpa using m.capacity_pos }
        (a + 1) rest
    else none

/-- An end that is no word is past every capacity. -/
def loadRange (m : Memory) (region : Region) (offset : Nat) (bytes : Array Byte) :
    Option (Except Error Memory) :=
  match add 64 offset bytes.size with
  | some stop =>
    if stop ≤ m.capacity then (fill m offset bytes.toList).map .ok
    else some (.error (.outOfMemory region offset bytes.size m.capacity))
  | none => some (.error (.outOfMemory region offset bytes.size m.capacity))

/-- The screen takes a pixel for each place, and their number must be a word. -/
def boot (c : Config) (glyphs program : Array Byte) (entropy : Random.Key) :
    Option (Except Error Machine) :=
  if h : 0 < c.memorySize then do
    let _ ← mul 64 c.screenWidth c.screenHeight
    let memory := Memory.zeros c.memorySize h c.fontStart c.programStart
    match ← loadRange memory .font memory.fontStart glyphs with
    | .error e => some (.error e)
    | .ok memory =>
      match ← loadRange memory .program memory.programStart program with
      | .error e => some (.error e)
      | .ok memory =>
        some (.ok
          { pc := UInt16.ofNat c.programStart
            memory := memory
            stack := .empty c.stackSize
            screen := .dark c.screenWidth c.screenHeight
            random := { key := c.randomKey entropy }
            dialect := c.dialect })
  else some (.error (.config (.memorySize c.memorySize)))

def loadVm (vm : Vm) (program : Array Byte) (entropy : Random.Key) :
    Option (Vm × Except Error Unit) := do
  match ← check vm.config program.size with
  | .error cause => some (vm, .error (.config cause))
  | .ok () =>
    match vm.glyphSource vm.config.font with
    | .error e => some (vm, .error e)
    | .ok glyphs =>
      if glyphs.size = Limits.fontLength then
        match ← boot vm.config glyphs program entropy with
        | .error e => some (vm.clearKeys, .error e)
        | .ok m => some (vm.started m, .ok ())
      else some (vm, .error (.config (.fontLength glyphs.size)))

theorem check_eq {c : Config} {length : Nat} (h : c.programStart + length < 2 ^ 64) :
    check c length = some (c.check length) := by
  unfold check
  rw [c.check_eq_zero length]
  cases hz : c.check 0 with
  | error cause => rfl
  | ok =>
    have hd := Config.describes_of_check hz
    have hm : c.memorySize ≤ 65536 := hd.memory_le
    have hf := hd.font_lt
    have hl : Limits.fontLength = 80 := rfl
    have hfont : c.fontStart + Limits.fontLength < 2 ^ 64 := by omega
    simp only [add_eq hfont, add_eq h, Option.bind_eq_bind, Option.bind_some]
    by_cases ho : c.Overlaps length
    · rw [if_pos ho]
      exact if_pos ho
    · rw [if_neg ho]
      exact if_neg ho

theorem fill_eq {m : Memory} {a : Nat} {bytes : List Byte} (h : a + bytes.length ≤ m.capacity) :
    fill m a bytes = some (m.writeBlock a bytes) := by
  induction bytes generalizing m a with
  | nil => rfl
  | cons b rest ih =>
    have hlen : a + 1 + rest.length ≤ m.capacity := by
      simp only [List.length_cons] at h
      omega
    have ha : a < m.cells.size := Nat.lt_of_lt_of_le (by omega) hlen
    have hw : m.write a b = { m with
        cells := m.cells.set a b ha, capacity_pos := by simpa using m.capacity_pos } := by
      simp only [Memory.write, Nat.mod_eq_of_lt ha]
    rw [fill, dif_pos ha, ← hw, Memory.writeBlock]
    exact ih (by rw [Memory.capacity_write]; exact hlen)

theorem loadRange_eq {m : Memory} (region : Region) (offset : Nat) (bytes : Array Byte)
    (h : m.capacity < 2 ^ 64) :
    loadRange m region offset bytes = some (m.load region offset bytes) := by
  unfold loadRange Memory.load add
  by_cases hfit : offset + bytes.size ≤ m.capacity
  · have hword : offset + bytes.size < 2 ^ 64 := by omega
    simp only [if_pos hword, if_pos hfit]
    rw [fill_eq (by simpa using hfit)]
    rfl
  · rw [if_neg hfit]
    by_cases hword : offset + bytes.size < 2 ^ 64
    · simp only [if_pos hword, if_neg hfit]
    · simp only [if_neg hword]

theorem boot_eq {c : Config} (glyphs program : Array Byte) (entropy : Random.Key)
    (hm : c.memorySize < 2 ^ 64)
    (hs : c.screenWidth * c.screenHeight < 2 ^ 64) :
    boot c glyphs program entropy = some (Machine.boot c glyphs program entropy) := by
  unfold boot Machine.boot
  by_cases h : 0 < c.memorySize
  · have hz : (Memory.zeros c.memorySize h c.fontStart c.programStart).capacity < 2 ^ 64 := by
      rw [Memory.capacity_zeros]
      exact hm
    simp only [dif_pos h, mul_eq hs, Option.bind_eq_bind, Option.bind_some, Memory.loadFont,
      loadRange_eq _ _ _ hz]
    cases hfont : (Memory.zeros c.memorySize h c.fontStart c.programStart).load .font
        (Memory.zeros c.memorySize h c.fontStart c.programStart).fontStart glyphs with
    | error e => rfl
    | ok memory =>
      have hn : memory.capacity < 2 ^ 64 := by
        rw [Memory.capacity_load hfont]
        exact hz
      simp only [Option.bind_some, loadRange_eq _ _ _ hn, bind, Except.bind, Memory.loadProgram]
      cases memory.load .program memory.programStart program with
      | error e => rfl
      | ok memory => rfl
  · simp only [dif_neg h]

theorem loadVm_eq (vm : Vm) {program : Array Byte} (entropy : Random.Key)
    (h : vm.config.programStart + program.size < 2 ^ 64) :
    loadVm vm program entropy = some (vm.load program entropy) := by
  unfold loadVm Vm.load Vm.glyphsFor
  simp only [check_eq h, Option.bind_eq_bind, Option.bind_some]
  cases hc : vm.config.check program.size with
  | error cause => rfl
  | ok =>
    have hd := Config.describes_of_check hc
    have hm : vm.config.memorySize ≤ 65536 := hd.memory_le
    have hw : vm.config.screenWidth ≤ 256 := hd.width_le
    have hh : vm.config.screenHeight ≤ 256 := hd.height_le
    have hs : vm.config.screenWidth * vm.config.screenHeight ≤ 256 * 256 := Nat.mul_le_mul hw hh
    have hcapacity : vm.config.memorySize < 2 ^ 64 := by omega
    have harea : vm.config.screenWidth * vm.config.screenHeight < 2 ^ 64 := by omega
    dsimp only
    cases vm.glyphSource vm.config.font with
    | error e => rfl
    | ok glyphs =>
      by_cases hg : glyphs.size = Limits.fontLength
      · simp only [if_pos hg, boot_eq glyphs program entropy hcapacity harea, Option.bind_some]
        cases Machine.boot vm.config glyphs program entropy with
        | error e => rfl
        | ok m => rfl
      · simp only [if_neg hg]

end Chip8.Checked

import Chip8.Proofs.Machine.Boot
import Chip8.Proofs.Memory.Block

/-! The machine after a load, known by its parts. Font and program lie apart, so each stands in
memory as it was given, and around them there is nothing but zeros. -/

namespace Chip8

attribute [ext] Registers Timers Memory CallStack Screen Keystream Machine

namespace Memory

def Holds (m : Memory) (start : Nat) (bytes : Array Byte) : Prop :=
  ∀ p, start ≤ p → p < start + bytes.size → bytes[p - start]? = some (m.read p)

theorem read_zeros (n : Nat) (h : 0 < n) (fontStart programStart a : Nat) :
    (zeros n h fontStart programStart).read a = 0 := by
  simp [zeros, read]

theorem holds_writeBlock {m : Memory} {start : Nat} {bytes : Array Byte}
    (h : start + bytes.size ≤ m.capacity) :
    (m.writeBlock start bytes.toList).Holds start bytes := by
  intro p hp hp'
  obtain ⟨k, rfl⟩ := Nat.exists_eq_add_of_le hp
  have hk : k < bytes.size := Nat.lt_of_add_lt_add_left hp'
  rw [← Array.length_toList] at h hk
  have hroom : bytes.toList.length ≤ m.capacity := Nat.le_trans (Nat.le_add_left ..) h
  rw [read_writeBlock hroom hk, Nat.add_sub_cancel_left, ← Array.getElem?_toList,
    List.getElem?_eq_getElem hk]

theorem Holds.fetch {m : Memory} {start k : Nat} {bytes : Array Byte} {w : Word}
    (h : m.Holds start bytes) (hw : Word.at? bytes k = some w) : m.fetch (start + k) = w := by
  obtain ⟨high, hhigh, low, hlow, hw⟩ : ∃ high, bytes[k]? = some high ∧
      ∃ low, bytes[k + 1]? = some low ∧ Word.ofBytes high low = w := by
    simpa [Word.at?, Option.bind_eq_some_iff] using hw
  obtain ⟨hk, -⟩ := Array.getElem?_eq_some_iff.1 hlow
  have hfirst := h (start + k) (by omega) (by omega)
  have hsecond := h (start + k + 1) (by omega) (by omega)
  rw [Nat.add_sub_cancel_left, hhigh] at hfirst
  rw [Nat.add_assoc, Nat.add_sub_cancel_left, hlow] at hsecond
  rw [Memory.fetch, ← Option.some.inj hfirst, Nat.add_assoc, ← Option.some.inj hsecond, hw]

theorem read_writeBlock_array_of_outside {m : Memory} {start p : Nat} {bytes : Array Byte}
    (h : start + bytes.size ≤ m.capacity) (hp : p < m.capacity)
    (ho : ¬(start ≤ p ∧ p < start + bytes.size)) :
    (m.writeBlock start bytes.toList).read p = m.read p := by
  rw [← Array.length_toList] at h ho
  exact read_writeBlock_of_outside h hp (by omega)

theorem Holds.writeBlock {m : Memory} {start other : Nat} {bytes more : Array Byte}
    (h : m.Holds start bytes) (hroom : start + bytes.size ≤ m.capacity)
    (hother : other + more.size ≤ m.capacity)
    (happart : more.size = 0 ∨ start + bytes.size ≤ other ∨ other + more.size ≤ start) :
    (m.writeBlock other more.toList).Holds start bytes := by
  intro p hp hp'
  have hout : ¬(other ≤ p ∧ p < other + more.size) := by omega
  rw [read_writeBlock_array_of_outside hother (Nat.lt_of_lt_of_le hp' hroom) hout]
  exact h p hp hp'

theorem eq_of_read {m n : Memory} (hc : m.capacity = n.capacity)
    (hread : ∀ p < m.capacity, m.read p = n.read p) (hf : m.fontStart = n.fontStart)
    (hp : m.programStart = n.programStart) : m = n := by
  refine Memory.ext (Array.ext hc fun i hi hi' => ?_) hf hp
  have hread := hread i hi
  simpa only [read, Nat.mod_eq_of_lt hi, Nat.mod_eq_of_lt hi'] using hread

structure Filled (m : Memory) (c : Config) (glyphs program : Array Byte) : Prop where
  glyphs_hold : m.Holds c.fontStart glyphs
  program_holds : m.Holds c.programStart program
  rest : ∀ p < c.memorySize, ¬(c.fontStart ≤ p ∧ p < c.fontStart + glyphs.size) →
    ¬(c.programStart ≤ p ∧ p < c.programStart + program.size) → m.read p = 0

variable {c : Config} {glyphs program : Array Byte}

theorem filled_filled (h : 0 < c.memorySize) (hfont : c.fontStart + glyphs.size ≤ c.memorySize)
    (hprogram : c.programStart + program.size ≤ c.memorySize)
    (happart : program.size = 0 ∨ c.fontStart + glyphs.size ≤ c.programStart ∨
      c.programStart + program.size ≤ c.fontStart) :
    (filled c h glyphs program).Filled c glyphs program := by
  unfold filled
  generalize hblank : zeros c.memorySize h c.fontStart c.programStart = blank
  have hcap : blank.capacity = c.memorySize := by rw [← hblank, capacity_zeros]
  have hzero : ∀ p, blank.read p = 0 := fun p => by rw [← hblank, read_zeros]
  rw [← hcap] at hfont hprogram
  generalize hglyphed : blank.writeBlock c.fontStart glyphs.toList = glyphed
  have hcap' : glyphed.capacity = blank.capacity := by rw [← hglyphed, capacity_writeBlock]
  have hhold : glyphed.Holds c.fontStart glyphs := hglyphed ▸ holds_writeBlock hfont
  refine ⟨hhold.writeBlock (hcap' ▸ hfont) (hcap' ▸ hprogram) happart,
    holds_writeBlock (hcap' ▸ hprogram), fun p hp hout hout' => ?_⟩
  rw [← hcap] at hp
  rw [read_writeBlock_array_of_outside (hcap' ▸ hprogram) (hcap' ▸ hp) hout', ← hglyphed,
    read_writeBlock_array_of_outside hfont hp hout, hzero]

theorem Filled.read_eq {m n : Memory} (hm : m.Filled c glyphs program)
    (hn : n.Filled c glyphs program) {p : Nat} (hp : p < c.memorySize) : m.read p = n.read p := by
  by_cases hfont : c.fontStart ≤ p ∧ p < c.fontStart + glyphs.size
  · refine Option.some.inj ?_
    rw [← hm.glyphs_hold p hfont.1 hfont.2, hn.glyphs_hold p hfont.1 hfont.2]
  by_cases hprogram : c.programStart ≤ p ∧ p < c.programStart + program.size
  · refine Option.some.inj ?_
    rw [← hm.program_holds p hprogram.1 hprogram.2, hn.program_holds p hprogram.1 hprogram.2]
  rw [hm.rest p hp hfont hprogram, hn.rest p hp hfont hprogram]

end Memory

namespace Machine

structure Starts (m : Machine) (c : Config) (seed : UInt64) (glyphs program : Array Byte) :
    Prop where
  pc : m.pc.toNat = c.programStart
  registers : ∀ x, m.registers.get x = 0
  index : m.registers.index = 0
  delay : m.timers.delay = 0
  sound : m.timers.sound = 0
  stack : m.stack.toList = []
  dark : m.screen.pixels = Array.replicate (c.screenWidth * c.screenHeight) false
  clean : m.screen.dirty = false
  key : m.random.key = Random.keyOfSeed seed
  taken : m.random.taken = 0
  memory : m.memory.Filled c glyphs program
  shape : m.shape = c.shape

variable {c : Config} {seed : UInt64} {glyphs program : Array Byte} {entropy : Random.Key}

theorem fresh_starts (h : 0 < c.memorySize) (hseed : c.seed = some seed)
    (hpc : c.programStart < UInt16.size)
    (hmemory : (Memory.filled c h glyphs program).Filled c glyphs program) :
    (fresh c h glyphs program entropy).Starts c seed glyphs program where
  pc := by
    change (UInt16.ofNat c.programStart).toNat = c.programStart
    rw [UInt16.toNat_ofNat', Nat.mod_eq_of_lt hpc]
  registers x := by simp [fresh, Registers.get]
  index := rfl
  delay := rfl
  sound := rfl
  stack := rfl
  dark := rfl
  clean := rfl
  key := Config.randomKey_of_seed hseed entropy
  taken := rfl
  memory := hmemory
  shape := shape_fresh c h glyphs program entropy

theorem Starts.pc_eq {m : Machine} (h : m.Starts c seed glyphs program) :
    m.pc = UInt16.ofNat c.programStart := by
  rw [← h.pc, UInt16.ofNat_toNat]

theorem Starts.word_eq {m : Machine} {w : Word} (h : m.Starts c seed glyphs program)
    (hw : Word.at? program 0 = some w) : m.word = w := by
  have hfetch := h.memory.program_holds.fetch hw
  rwa [Nat.add_zero, ← h.pc] at hfetch

theorem Starts.unique {m n : Machine} (hm : m.Starts c seed glyphs program)
    (hn : n.Starts c seed glyphs program) : m = n := by
  have hshape := hm.shape.trans hn.shape.symm
  have hcapacity : m.memory.capacity = c.memorySize := congrArg Shape.capacity hm.shape
  have hpc : m.pc = n.pc := UInt16.toNat_inj.1 (hm.pc.trans hn.pc.symm)
  have hregisters : m.registers = n.registers :=
    Registers.ext (Vector.ext fun k hk => (hm.registers ⟨k, hk⟩).trans (hn.registers ⟨k, hk⟩).symm)
      (hm.index.trans hn.index.symm)
  have htimers : m.timers = n.timers :=
    Timers.ext (hm.delay.trans hn.delay.symm) (hm.sound.trans hn.sound.symm)
  have hmemory : m.memory = n.memory :=
    Memory.eq_of_read (congrArg Shape.capacity hshape)
      (fun p hp => hm.memory.read_eq hn.memory (hcapacity ▸ hp))
      (congrArg Shape.fontStart hshape) (congrArg Shape.programStart hshape)
  have hstack : m.stack = n.stack :=
    CallStack.ext (congrArg Shape.stackCapacity hshape)
      (Array.toList_inj.1 (hm.stack.trans hn.stack.symm))
  have hscreen : m.screen = n.screen :=
    Screen.ext (congrArg Shape.width hshape) (congrArg Shape.height hshape)
      (hm.dark.trans hn.dark.symm) (hm.clean.trans hn.clean.symm)
  have hrandom : m.random = n.random :=
    Keystream.ext (hm.key.trans hn.key.symm) (hm.taken.trans hn.taken.symm)
  exact Machine.ext hpc hregisters htimers hmemory hstack hscreen hrandom
    (congrArg Shape.dialect hshape)

end Machine

end Chip8

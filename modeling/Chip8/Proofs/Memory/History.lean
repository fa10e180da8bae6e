import Chip8.Proofs.History
import Chip8.Proofs.Machine.Fresh

/-! Memory as a map on residues. A write means the cell of its address modulo the capacity, a load a
range of cells as they stand, or nothing if the range does not fit. Through any history of them a
cell has the byte that was stored in it last. -/

namespace Chip8

structure MemoryLayout where
  capacity : Nat
  fontStart : Nat
  programStart : Nat
  deriving DecidableEq, Repr

namespace MemoryLayout

def start (layout : MemoryLayout) : Region → Nat
  | .font => layout.fontStart
  | .program => layout.programStart

def loaded? (layout : MemoryLayout) (region : Region) (bytes : Array Byte) (p : Nat) :
    Option Byte :=
  let cell := p % layout.capacity
  if layout.start region + bytes.size ≤ layout.capacity ∧ layout.start region ≤ cell then
    bytes[cell - layout.start region]?
  else none

end MemoryLayout

inductive MemoryChange where
  | write (a : Nat) (b : Byte)
  | clear
  | load (region : Region) (bytes : Array Byte)
  deriving DecidableEq, Repr

namespace Memory

def layout (m : Memory) : MemoryLayout := ⟨m.capacity, m.fontStart, m.programStart⟩

def loadRegion (m : Memory) : Region → Array Byte → Except Error Memory
  | .font, glyphs => m.loadFont glyphs
  | .program, program => m.loadProgram program

end Memory

namespace MemoryChange

def apply (m : Memory) : MemoryChange → Memory
  | write a b => m.write a b
  | clear => m.clear
  | load region bytes =>
    match m.loadRegion region bytes with
    | .ok n => n
    | .error _ => m

def stored? (layout : MemoryLayout) (p : Nat) : MemoryChange → Option Byte
  | write a b => if a % layout.capacity = p % layout.capacity then some b else none
  | clear => some 0
  | load region bytes => layout.loaded? region bytes p

def lastStored? (layout : MemoryLayout) (p : Nat) (changes : List MemoryChange) : Option Byte :=
  (changes.filterMap (stored? layout p)).getLast?

end MemoryChange

namespace Memory

variable {m n : Memory} {region : Region} {bytes : Array Byte}

def after (m : Memory) (changes : List MemoryChange) : Memory :=
  changes.foldl MemoryChange.apply m

theorem loadRegion_eq (m : Memory) (region : Region) (bytes : Array Byte) :
    m.loadRegion region bytes = m.load region (m.layout.start region) bytes := by
  cases region <;> rfl

theorem layout_writeBlock (m : Memory) (a : Nat) (bytes : List Byte) :
    (m.writeBlock a bytes).layout = m.layout := by
  obtain ⟨hfont, hprogram⟩ := starts_writeBlock m a bytes
  rw [layout, layout, capacity_writeBlock, hfont, hprogram]

theorem loadRegion_cases (m : Memory) (region : Region) (bytes : Array Byte) :
    (m.layout.start region + bytes.size ≤ m.capacity ∧ m.loadRegion region bytes =
        .ok (m.writeBlock (m.layout.start region) bytes.toList)) ∨
      (m.capacity < m.layout.start region + bytes.size ∧ m.loadRegion region bytes =
        .error (.outOfMemory region (m.layout.start region) bytes.size m.capacity)) := by
  rw [loadRegion_eq, load]
  rcases Nat.lt_or_ge m.capacity (m.layout.start region + bytes.size) with hlong | hfits
  · exact .inr ⟨hlong, if_neg (Nat.not_le_of_lt hlong)⟩
  · exact .inl ⟨hfits, if_pos hfits⟩

theorem read_writeBlock_eq_loaded? (hfits : m.layout.start region + bytes.size ≤ m.capacity)
    (p : Nat) :
    (m.writeBlock (m.layout.start region) bytes.toList).read p =
      (m.layout.loaded? region bytes p).getD (m.read p) := by
  have hcell : p % m.capacity < m.capacity := m.mod_capacity_lt p
  rw [← read_mod, capacity_writeBlock, ← m.read_mod p, MemoryLayout.loaded?]
  have hcap : m.layout.capacity = m.capacity := rfl
  rw [hcap]
  generalize p % m.capacity = cell at hcell
  generalize m.layout.start region = start at hfits
  by_cases hin : start ≤ cell ∧ cell < start + bytes.size
  · have hholds := holds_writeBlock hfits cell hin.1 hin.2
    rw [if_pos ⟨hfits, hin.1⟩, hholds, Option.getD_some]
  · rw [read_writeBlock_array_of_outside hfits hcell hin]
    split
    · rename_i h
      have hpast : bytes.size ≤ cell - start := by omega
      rw [Array.getElem?_eq_none hpast, Option.getD_none]
    · rfl

end Memory

namespace MemoryChange

theorem layout_apply (m : Memory) (change : MemoryChange) : (change.apply m).layout = m.layout := by
  cases change with
  | write a b => exact Memory.layout_writeBlock m a [b]
  | clear => exact congrArg (MemoryLayout.mk · _ _) (Memory.capacity_zeros _ m.capacity_pos _ _)
  | load region bytes =>
    rcases m.loadRegion_cases region bytes with ⟨-, hload⟩ | ⟨-, hload⟩
    · rw [apply, hload]
      exact Memory.layout_writeBlock ..
    · rw [apply, hload]

theorem read_apply (m : Memory) (change : MemoryChange) (p : Nat) :
    (change.apply m).read p = (change.stored? m.layout p).getD (m.read p) := by
  cases change with
  | write a b =>
    rw [apply, stored?, Memory.read_write]
    change _ = Option.getD (if a % m.capacity = p % m.capacity then some b else none) _
    split <;> rfl
  | clear => exact m.read_clear p
  | load region bytes =>
    rcases m.loadRegion_cases region bytes with ⟨hfits, hload⟩ | ⟨hlong, hload⟩
    · rw [apply, hload]
      exact Memory.read_writeBlock_eq_loaded? hfits p
    · rw [apply, hload, stored?, MemoryLayout.loaded?, if_neg fun h => Nat.not_le_of_lt hlong h.1]
      rfl

end MemoryChange

namespace Memory

theorem layout_after (m : Memory) (changes : List MemoryChange) :
    (m.after changes).layout = m.layout :=
  List.foldlRecOn changes MemoryChange.apply (motive := fun n => layout n = m.layout) rfl
    fun n hn change _ => (change.layout_apply n).trans hn

theorem read_after (m : Memory) (changes : List MemoryChange) (p : Nat) :
    (m.after changes).read p =
      (MemoryChange.lastStored? m.layout p changes).getD (m.read p) := by
  refine view_foldl (P := fun n => layout n = m.layout) (f := fun n => read n p) rfl ?_
  intro n hn change _
  rw [← hn]
  exact ⟨change.layout_apply n, change.read_apply n p⟩

theorem loadRegion_exact (m : Memory) (region : Region) (bytes : Array Byte) :
    let start := m.layout.start region
    ((∃ n, m.loadRegion region bytes = .ok n) ↔ start + bytes.size ≤ m.capacity) ∧
      (∀ n, m.loadRegion region bytes = .ok n → n.Holds start bytes ∧
        ∀ p < m.capacity, ¬(start ≤ p ∧ p < start + bytes.size) → n.read p = m.read p) ∧
      ∀ e, m.loadRegion region bytes = .error e →
        (MemoryChange.load region bytes).apply m = m := by
  intro start
  rcases m.loadRegion_cases region bytes with ⟨hfits, hload⟩ | ⟨hlong, hload⟩
  · refine ⟨⟨fun _ => hfits, fun _ => ⟨_, hload⟩⟩, fun n hn => ?_, fun e he => ?_⟩
    · cases hload.symm.trans hn
      exact ⟨holds_writeBlock hfits, fun p => read_writeBlock_array_of_outside hfits⟩
    · cases hload.symm.trans he
  · refine ⟨⟨?_, fun hfits => absurd hfits (Nat.not_le_of_lt hlong)⟩, fun n hn => ?_,
      fun e _ => ?_⟩
    · rintro ⟨n, hn⟩
      cases hload.symm.trans hn
    · cases hload.symm.trans hn
    · rw [MemoryChange.apply, hload]

/-- Through any history a memory keeps its size and its two starts, and each cell has the byte that
was stored in it last, or zero. All addresses that are equal modulo the capacity mean the same cell,
also for the second byte of a word. A load is done exactly if its range ends inside memory; then the
range has the bytes that were given and the other cells keep theirs, else all of them do. -/
theorem reads_last_stored {capacity : Nat} (hpos : 0 < capacity) (fontStart programStart : Nat)
    (changes : List MemoryChange) :
    let layout : MemoryLayout := ⟨capacity, fontStart, programStart⟩
    let m := (zeros capacity hpos fontStart programStart).after changes
    (m.capacity = capacity ∧ m.fontStart = fontStart ∧ m.programStart = programStart) ∧
      (∀ p, m.read p = (MemoryChange.lastStored? layout p changes).getD 0 ∧
        (∀ q, p % capacity = q % capacity → m.read p = m.read q) ∧
        (m.fetch p).toNat = 256 * (m.read p).toNat + (m.read (p + 1)).toNat) ∧
      ∀ region bytes,
        let start := layout.start region
        ((∃ n, m.loadRegion region bytes = .ok n) ↔ start + bytes.size ≤ capacity) ∧
        (∀ n, m.loadRegion region bytes = .ok n → n.Holds start bytes ∧
          ∀ p < capacity, ¬(start ≤ p ∧ p < start + bytes.size) → n.read p = m.read p) ∧
        ∀ e, m.loadRegion region bytes = .error e →
          (MemoryChange.load region bytes).apply m = m := by
  intro layout m
  have hblank : (zeros capacity hpos fontStart programStart).layout = layout := by
    rw [Memory.layout, capacity_zeros]
    rfl
  have hlayout : m.layout = layout := (layout_after _ changes).trans hblank
  have hcap : m.capacity = capacity := congrArg MemoryLayout.capacity hlayout
  refine ⟨⟨hcap, congrArg MemoryLayout.fontStart hlayout,
    congrArg MemoryLayout.programStart hlayout⟩, fun p => ⟨?_, fun q hq => ?_, ?_⟩, ?_⟩
  · rw [← hblank, ← read_zeros capacity hpos fontStart programStart p]
    exact read_after _ changes p
  · rw [← m.read_mod p, ← m.read_mod q, hcap, hq]
  · exact Word.toNat_ofBytes ..
  · intro region bytes
    have hexact := m.loadRegion_exact region bytes
    rw [hlayout, hcap] at hexact
    exact hexact

/-- Seven cells, with writes around their end and a program that is one byte too long. -/
theorem reads_last_stored_around_end :
    let m := (zeros 7 (Nat.succ_pos 6) 2 5).after [.write 6 0x12, .write 7 0x34,
      .load .program #[1, 2, 3], .load .font #[0xAA, 0xBB], .write 16 0xCC]
    0 < 7 ∧ m.fetch 6 = 0x1234 ∧ m.read 13 = 0x12 ∧ m.read 2 = 0xCC ∧ m.read 3 = 0xBB ∧
      m.read 5 = 0 ∧ ¬∃ n, m.loadRegion .program #[1, 2, 3] = .ok n := by
  intro m
  obtain ⟨-, hread, hload⟩ := reads_last_stored (Nat.succ_pos 6) 2 5 [.write 6 0x12, .write 7 0x34,
    .load .program #[1, 2, 3], .load .font #[0xAA, 0xBB], .write 16 0xCC]
  obtain ⟨hlast, -, hfetch⟩ := hread 6
  refine ⟨Nat.succ_pos 6, ?_, (hread 13).1, (hread 2).1, (hread 3).1, (hread 5).1, ?_⟩
  · rw [hlast, (hread 7).1] at hfetch
    exact UInt16.toNat_inj.1 hfetch
  · rw [(hload .program #[1, 2, 3]).1]
    decide

end Memory

end Chip8

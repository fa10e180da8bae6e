import Chip8.Proofs.Machine.Frame
import Chip8.Proofs.Machine.Step
import Chip8.Proofs.Memory.Block

/-! Memory along a step. Two instructions store, `FX33` the digits of a register and `FX55` a block
of registers, both from `I` on and around the end of memory if it comes to that. No step does
anything else to memory. -/

namespace Chip8.Machine

variable {m : Machine} {x : Digit} {p : Nat}

def storedBytes (m : Machine) : List Byte :=
  match Instruction.ofWord? m.word with
  | some (.storeDecimal x) => decimalDigits (m.registers.get x)
  | some (.storeBlock x) => m.registers.upTo x
  | _ => []

def Writes (m : Machine) (p : Nat) : Prop :=
  ∃ x k, (m.word = (Instruction.storeDecimal x).word ∧ k < 3 ∨
      m.word = (Instruction.storeBlock x).word ∧ k ≤ x.val) ∧
    (m.registers.index.toNat + k) % m.memory.capacity = p % m.memory.capacity

theorem memory_step (m : Machine) (keys : Keypad) :
    (m.step keys).1.memory = m.memory.writeBlock m.registers.index.toNat m.storedBytes := by
  unfold storedBytes
  cases hw : Instruction.ofWord? m.word with
  | none =>
    rw [step_of_ofWord?_eq_none hw]
    rfl
  | some i =>
    rw [step_of_ofWord? hw, memory_execute]
    cases i <;> rfl

theorem storedBytes_of_storeDecimal (h : m.word = (Instruction.storeDecimal x).word) :
    m.storedBytes = decimalDigits (m.registers.get x) := by
  rw [storedBytes, Instruction.ofWord?_eq_some_iff.2 h]

theorem storedBytes_of_storeBlock (h : m.word = (Instruction.storeBlock x).word) :
    m.storedBytes = m.registers.upTo x := by
  rw [storedBytes, Instruction.ofWord?_eq_some_iff.2 h]

theorem writes_iff :
    m.Writes p ↔ ∃ k < m.storedBytes.length,
      (m.registers.index.toNat + k) % m.memory.capacity = p % m.memory.capacity := by
  constructor
  · rintro ⟨x, k, ⟨hword, hk⟩ | ⟨hword, hk⟩, hp⟩
    · exact ⟨k, by rwa [storedBytes_of_storeDecimal hword], hp⟩
    · refine ⟨k, ?_, hp⟩
      rw [storedBytes_of_storeBlock hword, Registers.length_upTo]
      exact Nat.lt_succ_of_le hk
  · rintro ⟨k, hk, hp⟩
    unfold storedBytes at hk
    split at hk
    · rename_i x hw
      exact ⟨x, k, .inl ⟨Instruction.ofWord?_eq_some_iff.1 hw, hk⟩, hp⟩
    · rename_i x hw
      rw [Registers.length_upTo] at hk
      exact ⟨x, k, .inr ⟨Instruction.ofWord?_eq_some_iff.1 hw, Nat.le_of_lt_succ hk⟩, hp⟩
    · exact absurd hk (Nat.not_lt_zero k)

instance (m : Machine) (p : Nat) : Decidable (m.Writes p) := decidable_of_iff' _ writes_iff

theorem read_step_of_not_writes (h : ¬m.Writes p) (keys : Keypad) :
    (m.step keys).1.memory.read p = m.memory.read p := by
  rw [memory_step]
  exact Memory.read_writeBlock_of_forall_ne fun k hk hp => h (writes_iff.2 ⟨k, hk, hp⟩)

theorem memory_step_of_ne (h : ∀ x, m.word ≠ (Instruction.storeDecimal x).word ∧
    m.word ≠ (Instruction.storeBlock x).word) (keys : Keypad) :
    (m.step keys).1.memory = m.memory := by
  rw [memory_step]
  cases hbytes : m.storedBytes with
  | nil => rfl
  | cons b rest =>
    have hlt : 0 < m.storedBytes.length := by
      rw [hbytes]
      exact Nat.succ_pos _
    obtain ⟨x, k, ⟨hword, -⟩ | ⟨hword, -⟩, -⟩ := writes_iff.2 ⟨0, hlt, rfl⟩
    · exact absurd hword (h x).1
    · exact absurd hword (h x).2

theorem read_step_of_lt_length {k : Nat} (hk : k < m.storedBytes.length)
    (hroom : m.storedBytes.length ≤ m.memory.capacity) (keys : Keypad) :
    (m.step keys).1.memory.read ((m.registers.index.toNat + k) % m.memory.capacity) =
      m.storedBytes[k] := by
  have hcap : (m.step keys).1.memory.capacity = m.memory.capacity := by
    rw [memory_step, Memory.capacity_writeBlock]
  rw [← hcap, Memory.read_mod, memory_step]
  exact Memory.read_writeBlock hroom hk

theorem decimalDigits_spec (b : Byte) :
    ∃ d₀ d₁ d₂ : Byte, decimalDigits b = [d₀, d₁, d₂] ∧
      d₀.toNat ≤ 9 ∧ d₁.toNat ≤ 9 ∧ d₂.toNat ≤ 9 ∧
      100 * d₀.toNat + 10 * d₁.toNat + d₂.toNat = b.toNat := by
  have hb := b.toNat_lt
  refine ⟨_, _, _, rfl, ?_⟩
  simp only [UInt8.toNat_ofNat']
  omega

theorem step_of_storeDecimal (hword : m.word = (Instruction.storeDecimal x).word)
    (hroom : 3 ≤ m.memory.capacity) (keys : Keypad) :
    ∃ d₀ d₁ d₂ : Byte, d₀.toNat ≤ 9 ∧ d₁.toNat ≤ 9 ∧ d₂.toNat ≤ 9 ∧
      100 * d₀.toNat + 10 * d₁.toNat + d₂.toNat = (m.registers.get x).toNat ∧
      (m.step keys).1.memory.read (m.registers.index.toNat % m.memory.capacity) = d₀ ∧
      (m.step keys).1.memory.read ((m.registers.index.toNat + 1) % m.memory.capacity) = d₁ ∧
      (m.step keys).1.memory.read ((m.registers.index.toNat + 2) % m.memory.capacity) = d₂ := by
  obtain ⟨d₀, d₁, d₂, hdigits, h₀, h₁, h₂, hsum⟩ := decimalDigits_spec (m.registers.get x)
  have hbytes : m.storedBytes = [d₀, d₁, d₂] := (storedBytes_of_storeDecimal hword).trans hdigits
  have hlength : m.storedBytes.length = 3 := congrArg List.length hbytes
  have hread (k : Nat) (hk : k < 3) :=
    read_step_of_lt_length (m := m) (k := k) (hlength ▸ hk) (hlength ▸ hroom) keys
  simp only [hbytes] at hread
  exact ⟨d₀, d₁, d₂, h₀, h₁, h₂, hsum, hread 0 (by decide), hread 1 (by decide),
    hread 2 (by decide)⟩

theorem step_of_storeBlock (hword : m.word = (Instruction.storeBlock x).word)
    (hroom : 16 ≤ m.memory.capacity) (keys : Keypad) {k : Digit} (hk : k ≤ x) :
    (m.step keys).1.memory.read ((m.registers.index.toNat + k.val) % m.memory.capacity) =
      m.registers.get k := by
  have hbytes := storedBytes_of_storeBlock hword
  have hlength : m.storedBytes.length = x.val + 1 := by rw [hbytes, Registers.length_upTo]
  have hlt : k.val < m.storedBytes.length := hlength ▸ Nat.lt_succ_of_le hk
  have hfits : m.storedBytes.length ≤ m.memory.capacity := by
    have hx := x.isLt
    omega
  rw [read_step_of_lt_length hlt hfits]
  simp only [hbytes, Registers.getElem_upTo]

end Chip8.Machine

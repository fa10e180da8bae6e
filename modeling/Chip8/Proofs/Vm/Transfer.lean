import Chip8.Proofs.Memory.Block
import Chip8.Proofs.Vm.Fits
import Mathlib.Tactic.SplitIfs

/-! Blocks of registers in memory. `FX55` and `FX65` go over the same registers and the same cells,
so what the one stores the other brings back, also when the block runs around the end of memory or
past the last address that `I` can hold. -/

namespace Chip8

namespace Machine

variable {m n : Machine} {x : Digit}

theorem toNat_indexAfterBlock (m : Machine) (x : Digit) :
    (m.indexAfterBlock x).toNat =
      if m.dialect.blockMovesIndex then (m.registers.index.toNat + (x.val + 1)) % 65536
      else m.registers.index.toNat := by
  have hx := x.isLt
  have hcount : (UInt16.ofNat (x.val + 1)).toNat = x.val + 1 := by
    rw [UInt16.toNat_ofNat', Nat.mod_eq_of_lt (by omega)]
  unfold indexAfterBlock
  split
  · rw [UInt16.toNat_add, hcount]
  · rfl

theorem get_loadBlock (m : Machine) (x k : Digit) :
    (m.loadBlock x).registers.get k =
      if k ≤ x then m.memory.read (m.registers.index.toNat + k.val) else m.registers.get k := by
  change (m.registers.setBlock _).get k = _
  rw [Registers.get_setBlock, List.getD_eq_getElem?_getD]
  split_ifs with hk
  · have hlt : k.val < (m.memory.readBlock m.registers.index.toNat (x.val + 1)).length := by
      rw [Memory.length_readBlock]
      exact Nat.lt_succ_of_le hk
    rw [List.getElem?_eq_getElem hlt, Memory.getElem_readBlock, Option.getD_some]
  · have hge : (m.memory.readBlock m.registers.index.toNat (x.val + 1)).length ≤ k.val := by
      rw [Memory.length_readBlock]
      exact Nat.succ_le_of_lt (Nat.lt_of_not_le hk)
    rw [List.getElem?_eq_none hge, Option.getD_none]

theorem get_loadBlock_of_stored (hroom : 16 ≤ m.memory.capacity)
    (hmemory : n.memory = (m.storeBlock x).memory)
    (hindex : n.registers.index = m.registers.index) {k : Digit} (hk : k ≤ x) :
    (n.loadBlock x).registers.get k = m.registers.get k := by
  have hlt : k.val < (m.registers.upTo x).length := by
    rw [Registers.length_upTo]
    exact Nat.lt_succ_of_le hk
  have hfits : (m.registers.upTo x).length ≤ m.memory.capacity := by
    have hx := x.isLt
    rw [Registers.length_upTo]
    omega
  calc (n.loadBlock x).registers.get k
      = n.memory.read (n.registers.index.toNat + k.val) := by rw [get_loadBlock, if_pos hk]
    _ = (m.storeBlock x).memory.read (m.registers.index.toNat + k.val) := by rw [hmemory, hindex]
    _ = (m.registers.upTo x)[k.val] := Memory.read_writeBlock hfits hlt
    _ = m.registers.get k := m.registers.getElem_upTo hlt

theorem memory_storeBlock_of_loaded (hmemory : n.memory = m.memory)
    (hindex : n.registers.index = m.registers.index)
    (hloaded : ∀ k ≤ x, n.registers.get k = (m.loadBlock x).registers.get k) :
    (n.storeBlock x).memory = m.memory := by
  -- the registers are the block read in order, so each cell gets the byte that it has
  have hbytes : n.registers.upTo x = m.memory.readBlock m.registers.index.toNat (x.val + 1) := by
    refine List.ext_getElem ?_ fun k hk hk' => ?_
    · rw [Registers.length_upTo, Memory.length_readBlock]
    · rw [Registers.length_upTo] at hk
      have hx := x.isLt
      have hle : (⟨k, by omega⟩ : Digit) ≤ x := Nat.le_of_lt_succ hk
      rw [Memory.getElem_readBlock, Registers.getElem_upTo (k := ⟨k, by omega⟩), hloaded _ hle,
        get_loadBlock, if_pos hle]
  change n.memory.writeBlock n.registers.index.toNat (n.registers.upTo x) = m.memory
  rw [hbytes, hmemory, hindex, Memory.writeBlock_readBlock]

end Machine

namespace Vm

variable {vm : Vm} {m : Machine}

/-- Wherever `I` points, `FX65` brings `V0` to `VX` back as `FX55` has stored them, no matter what
has happened to all but memory in between, and it touches neither the other registers nor memory.
The other way round, storing what was loaded from there leaves memory as it is. Either of the two
moves `I` behind the block, at sixteen bits, if the dialect says so, and else not at all. -/
theorem block_transfers_invert {c : Config} {source : GlyphSource} {actions : List Action}
    (hvm : vm = ((new c source).undergo actions).1) (hm : vm.machine? = some m) (x : Digit)
    (pc i address : Word) (keys : Keypad) :
    let before : Machine := { m with pc := pc, registers := m.registers.setIndex i }
    ∃ stored loaded,
      before.execute keys address (.storeBlock x) = (stored, .ok .ok) ∧
      before.execute keys address (.loadBlock x) = (loaded, .ok .ok) ∧
      (∀ k, stored.registers.get k = m.registers.get k) ∧ loaded.memory = m.memory ∧
      (∀ (changed : Machine) (address' : Word) (keys' : Keypad),
        changed.memory = stored.memory → changed.registers.index = i →
        ∃ restored, changed.execute keys' address' (.loadBlock x) = (restored, .ok .ok) ∧
          (∀ k ≤ x, restored.registers.get k = m.registers.get k) ∧
          (∀ k > x, restored.registers.get k = changed.registers.get k) ∧
          restored.memory = stored.memory) ∧
      (∀ (changed : Machine) (address' : Word) (keys' : Keypad),
        changed.memory = loaded.memory → changed.registers.index = i →
        (∀ k ≤ x, changed.registers.get k = loaded.registers.get k) →
        ∃ again, changed.execute keys' address' (.storeBlock x) = (again, .ok .ok) ∧
          again.memory = m.memory) ∧
      ∀ n, n = stored ∨ n = loaded → n.registers.index.toNat =
        if c.dialect.blockMovesIndex then (i.toNat + (x.val + 1)) % 65536 else i.toNat := by
  intro before
  have hfits : m.Fits c := fits_of_undergo hvm hm
  have hroom : 16 ≤ before.memory.capacity := by
    have hsize : 80 ≤ c.memorySize := hfits.memory_ge
    have hcap : before.memory.capacity = c.memorySize := hfits.capacity
    omega
  have hindex : (before.indexAfterBlock x).toNat =
      if c.dialect.blockMovesIndex then (i.toNat + (x.val + 1)) % 65536 else i.toNat := by
    rw [← hfits.dialect]
    exact before.toNat_indexAfterBlock x
  refine ⟨before.storeBlock x, before.loadBlock x, rfl, rfl, fun k => rfl, rfl,
    fun changed address' keys' hmemory hi => ?_,
    fun changed address' keys' hmemory hi hloaded => ?_, ?_⟩
  · refine ⟨changed.loadBlock x, rfl, fun k hk => ?_, fun k hk => ?_, hmemory⟩
    · exact Machine.get_loadBlock_of_stored (m := before) hroom hmemory hi hk
    · rw [Machine.get_loadBlock, if_neg (Fin.not_le.2 hk)]
  · exact ⟨changed.storeBlock x, rfl,
      Machine.memory_storeBlock_of_loaded (m := before) hmemory hi hloaded⟩
  · rintro n (rfl | rfl)
    · exact hindex
    · exact hindex

/-- All registers from the last address of `I` on, with memory of 86 bytes: the block runs past both
ends, and the 42 of `V0` comes back after all registers were cleared. -/
theorem block_transfers_invert_around_end :
    let small : Config :=
      { memorySize := 86, fontStart := 0, programStart := 80, seed := some 7
        dialect := { blockMovesIndex := true } }
    let vm := (new small).after [.load #[0x60, 0x2A] default, .step]
    ∃ m stored restored, vm.machine? = some m ∧ m.registers.get 0 = 42 ∧
      { m with pc := 80, registers := m.registers.setIndex 0xFFFF }.execute vm.keys 80
        (.storeBlock 0xF) = (stored, .ok .ok) ∧
      stored.registers.index.toNat = 15 ∧
      { stored with registers := { index := 0xFFFF } }.execute vm.keys 80 (.loadBlock 0xF) =
        (restored, .ok .ok) ∧
      restored.registers.get 0 = 42 ∧ restored.memory = stored.memory := by
  intro small vm
  obtain ⟨m, hm, hvalue⟩ : ∃ m, vm.machine? = some m ∧ m.registers.get 0 = 42 :=
    Option.map_eq_some_iff.1 (by decide +kernel)
  obtain ⟨stored, loaded, hstored, -, -, -, hback, -, hindex⟩ :=
    block_transfers_invert (undergo_plain _ _).symm hm 0xF 80 0xFFFF 80 vm.keys
  obtain ⟨restored, hrestored, hbelow, -, hmemory⟩ :=
    hback { stored with registers := { index := 0xFFFF } } 80 vm.keys rfl rfl
  refine ⟨m, stored, restored, hm, hvalue, hstored, ?_, hrestored, ?_, hmemory⟩
  · exact hindex stored (.inl rfl)
  · rw [hbelow 0 (by decide), hvalue]

end Vm

end Chip8

import Chip8.Proofs.Vm.Storage

/-! The sprites of the digits. The font ends inside memory and memory ends where `I` does, so `I`
can reach every digit, and its five rows are as they were loaded unless the program has stored over
them. -/

namespace Chip8

theorem Leads.holds {m n : Machine} {effects : List Effect} (h : Leads m effects n) {start : Nat}
    {bytes : Array Byte} (hm : m.memory.Holds start bytes)
    (hkept : ∀ moment ∈ effects.filterMap Effect.moment?,
      ∀ p, start ≤ p → p < start + bytes.size → ¬moment.machine.Writes p) :
    n.memory.Holds start bytes := by
  intro p hp hp'
  rw [h.read_memory fun moment hmem => hkept moment hmem p hp hp']
  exact hm p hp hp'

namespace Machine

variable {m : Machine} {c : Config} {x : Digit}

theorem toNat_glyphAddress (h : m.Fits c) (b : Byte) :
    (UInt16.ofNat (m.glyphAddress b)).toNat = c.fontStart + 5 * (b.toNat % 16) := by
  have hfont : c.fontStart + 80 ≤ c.memorySize := h.font_fits
  have hsize : c.memorySize ≤ 65536 := h.memory_le
  have haddress : m.glyphAddress b = c.fontStart + 5 * (b.toNat % 16) := by
    rw [glyphAddress, h.fontStart, Nat.mul_comm]
    rfl
  rw [haddress, UInt16.toNat_ofNat', Nat.mod_eq_of_lt (by omega)]

theorem step_of_loadGlyph (h : m.Fits c) (hword : m.word = (Instruction.loadGlyph x).word)
    (keys : Keypad) :
    ∃ o, m.step keys = (o, .ok .ok) ∧ o.memory = m.memory ∧
      o.registers.index.toNat = c.fontStart + 5 * ((m.registers.get x).toNat % 16) :=
  ⟨_, step_of_word hword keys, rfl, toNat_glyphAddress h (m.registers.get x)⟩

end Machine

namespace Vm

variable {vm : Vm} {program : Array Byte} {entropy : Random.Key} {later : List Action}

/-- After a load, through any run, `FX29` sets `I` to the first of the five rows of its digit, all
of them inside memory, and as long as no step has stored in the font they are the rows of the glyphs
that the load was given. -/
theorem glyphs_stay_in_reach (hload : (vm.load program entropy).2 = .ok ())
    (hlater : (vm.load program entropy).1.Throughout (fun vm a => ¬vm.Loads a.operation) later) :
    let c := vm.config
    ∃ glyphs n, vm.glyphSource c.font = .ok glyphs ∧ glyphs.size = 80 ∧
      ((vm.load program entropy).1.undergo later).1.machine? = some n ∧
      ∀ x keys, n.word = (Instruction.loadGlyph x).word →
        let digit := (n.registers.get x).toNat % 16
        ∃ o, n.step keys = (o, .ok .ok) ∧
          o.registers.index.toNat = c.fontStart + 5 * digit ∧
          (∀ k < 5, o.registers.index.toNat + k < c.memorySize) ∧
          ((∀ moment ∈ (vm.load program entropy).1.executed later,
              ∀ p, c.fontStart ≤ p → p < c.fontStart + 80 → ¬moment.machine.Writes p) →
            ∀ k < 5, glyphs[5 * digit + k]? =
              some (o.memory.read (o.registers.index.toNat + k))) := by
  intro c
  obtain ⟨glyphs, ha, hl⟩ := load_of_ok hload
  have hsize : glyphs.size = 80 := ha.glyphs_size
  have hfresh : (vm.load program entropy).1.Fits c := hl ▸ ha.fits_started
  obtain ⟨n, hn, hleads⟩ := leads_undergo hlater (congrArg (fun r => r.1.machine?) hl)
  have hfits : n.Fits c := (hfresh.undergo later).2 n hn
  have hfont : c.fontStart + 80 ≤ c.memorySize := hfits.font_fits
  refine ⟨glyphs, n, ha.glyphs_eq, hsize, hn, fun x keys hword => ?_⟩
  intro digit
  have hdigit : digit < 16 := Nat.mod_lt _ (by decide)
  obtain ⟨o, hstep, hmemory, hindex⟩ := Machine.step_of_loadGlyph hfits hword keys
  rw [executed_eq]
  refine ⟨o, hstep, hindex, fun k hk => ?_, fun hkept k hk => ?_⟩
  · rw [hindex]
    omega
  · have hholds : n.memory.Holds c.fontStart glyphs :=
      hleads.holds ha.filled.glyphs_hold (hsize ▸ hkept)
    have hrow := hholds (c.fontStart + (5 * digit + k)) (by omega) (by omega)
    rw [hmemory, hindex, Nat.add_assoc]
    rwa [Nat.add_sub_cancel_left] at hrow

/-- The font at the very end of the largest memory: the last row of the digit `F` is the last byte
there is. -/
theorem glyphs_stay_in_reach_of_last_digit :
    let vm := new { memorySize := 65536, fontStart := 65456, seed := some 7 }
    let program : Array Byte := #[0x60, 0x0F, 0xF0, 0x29]
    let later : List Action := [.plain .step]
    (vm.load program default).2 = .ok () ∧
      (vm.load program default).1.Throughout (fun vm a => ¬vm.Loads a.operation) later ∧
      ∃ n o, ((vm.load program default).1.undergo later).1.machine? = some n ∧
        n.word = (Instruction.loadGlyph 0).word ∧ n.step {} = (o, .ok .ok) ∧
        o.registers.index.toNat = 65531 ∧ o.memory.read 65535 = 0x80 := by
  intro vm program later
  have ha : vm.Accepts program Glyphs.chip48 :=
    ⟨Config.describes_of_check rfl, rfl, rfl, by decide, by decide⟩
  have hload : (vm.load program default).2 = .ok () := by rw [load_of_accepts ha]
  have hlater : (vm.load program default).1.Throughout (fun vm a => ¬vm.Loads a.operation) later :=
    ⟨by rintro ⟨other, entropy, ⟨⟩, -⟩, trivial⟩
  obtain ⟨m, hstarts, hl⟩ := ha.load_starts rfl
  have hfirst : m.word = (Instruction.loadByte 0 0x0F).word := hstarts.word_eq rfl
  -- `6XNN` stores nothing, so the font is whole
  have hbytes : m.storedBytes = [] := by
    rw [Machine.storedBytes, Instruction.ofWord?_eq_some_iff.2 hfirst]
  obtain ⟨glyphs, n, hglyphs, -, hn, hstep⟩ := glyphs_stay_in_reach hload hlater
  have hnext : ((vm.load program default).1.undergo later).1.machine? =
      some { m with pc := m.pc + 2, registers := m.registers.set 0 0x0F } := by
    have hready : (vm.started m).ready = .ok m := rfl
    have hstep := step_ok_of_ready hready (Machine.step_of_word hfirst _)
    rw [hl]
    exact congrArg (fun r => r.1.machine?) hstep
  have hsecond : m.memory.fetch (m.pc + 2).toNat = (Instruction.loadGlyph 0).word := by
    rw [hstarts.pc_eq]
    exact hstarts.memory.program_holds.fetch (k := 2) rfl
  cases hnext.symm.trans hn
  obtain ⟨o, ho, hindex, -, hrows⟩ := hstep 0 {} hsecond
  cases hglyphs.symm.trans (show vm.glyphSource vm.config.font = .ok Glyphs.chip48 from rfl)
  have hidle : ∀ moment ∈ (vm.load program default).1.executed later,
      ∀ p, ¬moment.machine.Writes p := by
    rw [hl]
    intro moment hmem p hwrites
    cases List.mem_singleton.1 (show moment ∈ [⟨m, {}⟩] from hmem)
    obtain ⟨k, hk, -⟩ := Machine.writes_iff.1 hwrites
    rw [hbytes] at hk
    exact Nat.not_lt_zero k hk
  have hrow := hrows (fun moment hmem p _ _ => hidle moment hmem p) 4 (by decide)
  have hdigit : ((m.registers.set 0 0x0F).get 0).toNat % 16 = 15 := by
    rw [Registers.get_set, if_pos rfl]
    rfl
  rw [hindex] at hrow
  rw [hdigit] at hindex hrow
  exact ⟨hload, hlater, _, o, hnext, hsecond, ho, hindex, (Option.some.inj hrow).symm⟩

end Vm

end Chip8

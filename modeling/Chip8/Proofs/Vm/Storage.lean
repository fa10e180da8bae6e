import Chip8.Proofs.Machine.Storage
import Chip8.Proofs.Vm.Effect
import Chip8.Proofs.Vm.Fits
import Chip8.Proofs.Vm.Reload

/-! Memory along a run. A program may store over its own instructions and over the font, but what it
does not store over is there as it was loaded, however long it runs. -/

namespace Chip8

theorem Leads.read_memory {m n : Machine} {effects : List Effect} (h : Leads m effects n) {p : Nat}
    (hp : ∀ moment ∈ effects.filterMap Effect.moment?, ¬moment.machine.Writes p) :
    n.memory.read p = m.memory.read p := by
  induction h with
  | nil => rfl
  | unmark _ ih => exact ih hp
  | tick _ ih => exact ih hp
  | step moment _ ih =>
    have hfirst := hp moment List.mem_cons_self
    rw [ih fun other hother => hp other (List.mem_cons_of_mem moment hother), Moment.next,
      Machine.read_step_of_not_writes hfirst]

namespace Vm

variable {vm : Vm}

/-- Memory changes with `FX33` and `FX55` only, and only where they store: the three digits of `VX`,
or the bytes `V0` to `VX`, at consecutive addresses that wrap around at the end of memory and are
never the same. So after a load, through any run, each cell that was not stored in has its byte of
the font or the program, or zero. -/
theorem memory_changes_where_stored {c : Config} {source : GlyphSource} {actions : List Action}
    (hvm : vm = ((new c source).undergo actions).1) :
    (∀ m keys, vm.machine? = some m →
      let n := (m.step keys).1
      (n.memory ≠ m.memory → ∃ x, m.word = (Instruction.storeDecimal x).word ∨
        m.word = (Instruction.storeBlock x).word) ∧
      (∀ x, m.word = (Instruction.storeDecimal x).word → ∃ d₀ d₁ d₂ : Byte,
        d₀.toNat ≤ 9 ∧ d₁.toNat ≤ 9 ∧ d₂.toNat ≤ 9 ∧
        100 * d₀.toNat + 10 * d₁.toNat + d₂.toNat = (m.registers.get x).toNat ∧
        n.memory.read (m.registers.index.toNat % c.memorySize) = d₀ ∧
        n.memory.read ((m.registers.index.toNat + 1) % c.memorySize) = d₁ ∧
        n.memory.read ((m.registers.index.toNat + 2) % c.memorySize) = d₂) ∧
      (∀ x, m.word = (Instruction.storeBlock x).word → ∀ k ≤ x,
        n.memory.read ((m.registers.index.toNat + k.val) % c.memorySize) = m.registers.get k) ∧
      (∀ j k, j < 16 → k < 16 → j ≠ k →
        (m.registers.index.toNat + j) % c.memorySize ≠
          (m.registers.index.toNat + k) % c.memorySize) ∧
      ∀ p < c.memorySize, ¬m.Writes p → n.memory.read p = m.memory.read p) ∧
    ∀ program entropy later, (vm.load program entropy).2 = .ok () →
      (vm.load program entropy).1.Throughout (fun vm a => ¬vm.Loads a.operation) later →
      ∃ glyphs n, vm.glyphSource c.font = .ok glyphs ∧ glyphs.size = 80 ∧
        ((vm.load program entropy).1.undergo later).1.machine? = some n ∧
        ∀ p < c.memorySize,
          (∀ moment ∈ (vm.load program entropy).1.executed later, ¬moment.machine.Writes p) →
          let font := c.fontStart ≤ p ∧ p < c.fontStart + 80
          let code := c.programStart ≤ p ∧ p < c.programStart + program.size
          (font → glyphs[p - c.fontStart]? = some (n.memory.read p)) ∧
            (code → program[p - c.programStart]? = some (n.memory.read p)) ∧
            (¬font → ¬code → n.memory.read p = 0) := by
  have hfits : vm.Fits c := hvm ▸ fits_undergo c source actions
  refine ⟨fun m keys hm => ?_, fun program entropy later hload hlater => ?_⟩
  · intro n
    have hm := hfits.2 m hm
    have hsize : 80 ≤ c.memorySize := hm.memory_ge
    have hcap := hm.capacity
    rw [← hcap] at hsize ⊢
    refine ⟨fun hchanged => ?_, fun x hword => Machine.step_of_storeDecimal hword (by omega) keys,
      fun x hword k hk => Machine.step_of_storeBlock hword (by omega) keys hk,
      fun j k hj hk hne heq => hne (eq_of_add_mod_eq (by omega) (by omega) heq),
      fun p _ hp => Machine.read_step_of_not_writes hp keys⟩
    by_contra hnone
    refine hchanged (Machine.memory_step_of_ne (fun x => ⟨fun hx => ?_, fun hx => ?_⟩) keys)
    · exact hnone ⟨x, .inl hx⟩
    · exact hnone ⟨x, .inr hx⟩
  · obtain ⟨glyphs, ha, hl⟩ := load_of_ok hload
    have hfilled := ha.filled
    obtain ⟨n, hn, hleads⟩ := leads_undergo hlater (congrArg (fun r => r.1.machine?) hl)
    obtain ⟨rfl, -⟩ := hfits
    refine ⟨glyphs, n, ha.glyphs_eq, ha.glyphs_size, hn, fun p hp hkept => ?_⟩
    intro font code
    rw [executed_eq] at hkept
    rw [hleads.read_memory hkept]
    have hfont : font ↔ vm.config.fontStart ≤ p ∧ p < vm.config.fontStart + glyphs.size := by
      rw [ha.glyphs_size]
      rfl
    refine ⟨fun h => ?_, fun h => hfilled.program_holds p h.1 h.2, fun h => ?_⟩
    · obtain ⟨hstart, hstop⟩ := hfont.1 h
      exact hfilled.glyphs_hold p hstart hstop
    · exact hfilled.rest p hp (fun h' => h (hfont.2 h'))

/-- The digits of `V0` go around the end of memory and over the first two bytes of the font. -/
theorem memory_changes_where_stored_around_end :
    let small : Config := { memorySize := 86, fontStart := 0, programStart := 80, seed := some 7 }
    let program : Array Byte := #[0xA0, 0x55, 0xF0, 0x33]
    let vm := (new small).after [.load program default, .step]
    ∃ m n, vm.machine? = some m ∧ m.word = (Instruction.storeDecimal 0).word ∧
      (m.step vm.keys).1.memory.read 85 = 0 ∧ (m.step vm.keys).1.memory.read 1 = 0 ∧
      ((vm.load program default).1.undergo [.plain (.run 2)]).1.machine? = some n ∧
      n.memory.read 2 = 0x90 := by
  intro small program vm
  obtain ⟨m, hm, hfacts⟩ : ∃ m, vm.machine? = some m ∧
      (m.word, m.registers.index, m.registers.get 0) =
        ((Instruction.storeDecimal 0).word, 85, 0) :=
    Option.map_eq_some_iff.1 (by decide +kernel)
  simp only [Prod.mk.injEq] at hfacts
  obtain ⟨hword, hindex, hzero⟩ := hfacts
  have hvm : vm = ((new small).undergo (.map .plain [.load program default, .step])).1 :=
    (undergo_plain _ _).symm
  obtain ⟨hstep, hrun⟩ := memory_changes_where_stored hvm
  obtain ⟨-, hdecimal, -⟩ := hstep m vm.keys hm
  obtain ⟨d₀, d₁, d₂, -, -, -, hsum, hfirst, -, hlast⟩ := hdecimal 0 hword
  rw [hzero, UInt8.toNat_zero] at hsum
  have hd₀ : d₀ = 0 := UInt8.toNat_inj.1 (by rw [UInt8.toNat_zero]; omega)
  have hd₂ : d₂ = 0 := UInt8.toNat_inj.1 (by rw [UInt8.toNat_zero]; omega)
  have hsize : small.memorySize = 86 := rfl
  have hend : (85 : Word).toNat % 86 = 85 := by decide
  have hwrapped : ((85 : Word).toNat + 2) % 86 = 1 := by decide
  rw [hindex, hd₀, hsize, hend] at hfirst
  rw [hindex, hd₂, hsize, hwrapped] at hlast
  have hidle : (vm.load program default).1.Throughout (fun vm a => ¬vm.Loads a.operation)
      [.plain (.run 2)] := ⟨by rintro ⟨other, entropy, ⟨⟩, -⟩, trivial⟩
  obtain ⟨glyphs, n, hglyphs, -, hn, hkept⟩ := hrun program default _ (by decide +kernel) hidle
  obtain ⟨hfont, -⟩ := hkept 2 (by decide) (by decide +kernel)
  have hglyph : vm.glyphSource small.font = .ok Glyphs.chip48 := by decide +kernel
  cases hglyph.symm.trans hglyphs
  refine ⟨m, n, hm, hword, hfirst, hlast, hn, (Option.some.inj (hfont ⟨by decide, by decide⟩)).symm⟩

end Vm

end Chip8

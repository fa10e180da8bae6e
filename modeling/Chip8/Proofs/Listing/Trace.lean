import Chip8.Proofs.Listing.Lossless
import Chip8.Proofs.Vm.Fault
import Chip8.Proofs.Vm.Fits
import Chip8.Vm.Event

/-! The listing and the machine read the same program. As long as the bytes of a line are still in
memory, the line tells what a step there does: the step reports the line, or it fails with the word
and the address that the line shows. -/

namespace Chip8

namespace Word

theorem toList_text (w : Word) :
    w.text.toList = [w.t, w.x, w.y, w.n].map fun d => Hex.upperDigit d.val := by
  have hdigits : Hex.lastDigits 4 w.toNat = [w.toNat / 16 / 16 / 16 % 16, w.toNat / 16 / 16 % 16,
      w.toNat / 16 % 16, w.toNat % 16].map Hex.upperDigit := rfl
  rw [text, Hex.toList_padded (by decide) w.toNat_lt, hdigits]
  simp only [List.map_cons, List.map_nil, t, x, y, n, Fin.val_ofNat, Nat.div_div_eq_div_mul]

theorem toNat_high (w : Word) : w.high.toNat = 16 * w.t.val + w.x.val := by
  have := w.toNat_lt
  simp only [high, t, x, Fin.val_ofNat, UInt8.toNat_ofNat']
  omega

end Word

theorem Hex.toList_padded_two {high low : Digit} {n : Nat} (h : n = 16 * high.val + low.val) :
    (padded 2 n).toList = [upperDigit high.val, upperDigit low.val] := by
  have := high.isLt
  have := low.isLt
  have hn : n < 256 := by omega
  have hhigh : n / 16 % 16 = high.val := by omega
  have hlow : n % 16 = low.val := by omega
  rw [toList_padded (by decide) hn, ← hhigh, ← hlow]
  rfl

namespace Line

theorem digits_ofWord (a : Nat) (w : Word) : digits ⟨a, .ofWord w⟩ = w.text := by
  have hbytes : digits ⟨a, .ofWord w⟩ =
      Hex.padded 2 w.high.toNat ++ Hex.padded 2 w.low.toNat := by
    rw [← digits_ofBytes a, Word.ofBytes_high_low]
  rw [hbytes, ← String.toList_inj, String.toList_append, Hex.toList_padded_two w.toNat_high,
    Hex.toList_padded_two w.toNat_low, Word.toList_text]
  rfl

variable {line : Line}

theorem shown_of_instruction {i : Instruction} (h : line.cell = .instruction i)
    (dialect : Dialect) :
    ∃ blanks, line.shown dialect =
      line.head dialect ++ String.ofList (List.replicate blanks ' ') ++ " ; " ++ i.describe := by
  refine ⟨16 - (i.mnemonic dialect).length, ?_⟩
  rw [shown, h, Cell.comment]
  simp only [toString_string, String.append_assoc]

theorem assembly_word (a : Nat) (w : Word) (dialect : Dialect) :
    assembly dialect ⟨a, .word w⟩ = "DW 0x" ++ w.text := by
  have hname : "DW 0x" = "DW " ++ "0x" := rfl
  rw [hname, String.append_assoc]
  rfl

theorem shown_ofWord_of_none {w : Word} (h : Instruction.ofWord? w = none) (a : Word)
    (dialect : Dialect) :
    shown dialect ⟨a.toNat, .ofWord w⟩ = a.text ++ ": " ++ w.text ++ " DW 0x" ++ w.text := by
  have hcell : Cell.ofWord w = .word w := by rw [Cell.ofWord, h]
  have hspace : " DW 0x" = " " ++ "DW 0x" := rfl
  have hcomment : Cell.comment dialect (.word w) = "" := rfl
  rw [shown, head, digits_ofWord, hcell, assembly_word, hcomment, String.append_empty, hspace]
  simp only [toString_string, String.append_assoc]
  rfl

end Line

namespace Machine

def line (m : Machine) : Line := ⟨m.pc.toNat, .ofWord m.word⟩

variable {m : Machine}

theorem cell_line_eq_instruction_iff {i : Instruction} :
    m.line.cell = .instruction i ↔ Instruction.ofWord? m.word = some i := by
  unfold line Cell.ofWord
  split <;> simp [*]

theorem cell_line_eq_word_iff {w : Word} :
    m.line.cell = .word w ↔ Instruction.ofWord? m.word = none ∧ w = m.word := by
  unfold line Cell.ofWord
  split <;> simp [*, eq_comm]

theorem faults_unsupported_iff {w a : Word} :
    m.Faults (.unsupported w a) ↔ Instruction.ofWord? m.word = none ∧ w = m.word ∧ a = m.pc := by
  rw [Instruction.ofWord?_eq_none_iff]
  constructor
  · rintro ⟨hword⟩
    exact ⟨hword, rfl, rfl⟩
  · rintro ⟨hword, rfl, rfl⟩
    exact .unsupported hword

theorem traces_stepEvents {i : Instruction} (h : Instruction.ofWord? m.word = some i)
    (keys : Keypad) :
    (m.stepEvents keys).filter (fun e => e.level = "TRACE") =
      [.executed m.pc m.word i m.dialect] := by
  unfold stepEvents
  rw [h]
  dsimp only
  split <;> simp [Event.level]

theorem message_executed {i : Instruction} (h : Instruction.ofWord? m.word = some i)
    (dialect : Dialect) :
    (Event.executed m.pc m.word i dialect).message = m.line.head dialect := by
  have hcell : m.line.cell = .instruction i := cell_line_eq_instruction_iff.2 h
  have hdigits : m.line.digits = m.word.text := Line.digits_ofWord ..
  rw [Line.head, Line.assembly, hcell, hdigits]
  rfl

theorem line_of_bytes {origin k : Nat} {program : Array Byte}
    (hpc : m.pc.toNat = origin + 2 * k)
    (hhigh : program[2 * k]? = some (m.memory.read (origin + 2 * k)))
    (hlow : program[2 * k + 1]? = some (m.memory.read (origin + 2 * k + 1))) :
    (listing origin program)[k]? = some m.line := by
  rw [getElem?_listing, Line.at?_of_getElem? hhigh hlow, line, word, hpc]
  rfl

end Machine

namespace Vm

variable {vm : Vm} {m : Machine}

theorem step_error_iff (hr : vm.ready = .ok m) {f : Fault} :
    vm.step.2 = .error (.fault f) ↔ m.Faults f := by
  constructor
  · intro h
    obtain ⟨f', hf, he⟩ := faults_of_step_error hr h
    cases he
    exact hf
  · intro h
    rw [step_of_fault hr h]

theorem step_unsupported_iff (hr : vm.ready = .ok m) :
    (∃ w a, vm.step.2 = .error (.fault (.unsupported w a))) ↔
      Instruction.ofWord? m.word = none := by
  simp only [step_error_iff hr, Machine.faults_unsupported_iff]
  exact ⟨fun ⟨_, _, hnone, _⟩ => hnone, fun hnone => ⟨_, _, hnone, rfl, rfl⟩⟩

theorem stepEvents_of_ready (hr : vm.ready = .ok m) : vm.stepEvents = m.stepEvents vm.keys := by
  rw [stepEvents, hr]

/-- While the bytes of line `k` are in memory, the line tells what a step there does. If it shows an
instruction, the step traces the line up to its comment and nothing more; if it shows a word, the
step fails with this word and this address. -/
theorem step_reads_line {c : Config} {source : GlyphSource} {actions : List Action}
    {program : Array Byte} {k : Nat} (hvm : vm = ((new c source).undergo actions).1)
    (hm : vm.machine? = some m) (ht : vm.trap? = none)
    (hpc : m.pc.toNat = c.programStart + 2 * k)
    (hhigh : program[2 * k]? = some (m.memory.read (c.programStart + 2 * k)))
    (hlow : program[2 * k + 1]? = some (m.memory.read (c.programStart + 2 * k + 1))) :
    ∃ line : Line,
      (textLines (listingText c.dialect c.programStart program))[k]? =
          some (line.shown c.dialect) ∧
        (listing c.programStart program)[k]? = some line ∧
        ((∃ i, line.cell = .instruction i) ↔
          ∀ w a, vm.step.2 ≠ .error (.fault (.unsupported w a))) ∧
        (∀ i, line.cell = .instruction i →
          (vm.stepEvents.filter fun e => e.level = "TRACE").map Event.message =
              [line.head c.dialect] ∧
            ∃ blanks, line.shown c.dialect = line.head c.dialect ++
              String.ofList (List.replicate blanks ' ') ++ " ; " ++ i.describe) ∧
        ((∃ w, line.cell = .word w) ↔
          ∃ w a, vm.step.2 = .error (.fault (.unsupported w a))) ∧
        ∀ w a, vm.step.2 = .error (.fault (.unsupported w a)) →
          line.shown c.dialect = a.text ++ ": " ++ w.text ++ " DW 0x" ++ w.text := by
  have hr : vm.ready = .ok m := ready_eq_ok_iff.2 ⟨ht, hm⟩
  -- the line of the listing is the line of the next instruction
  have hline := m.line_of_bytes hpc hhigh hlow
  have hdialect : m.dialect = c.dialect := by
    rw [hvm] at hm
    exact ((fits_undergo c source actions).2 m hm).dialect
  refine ⟨m.line, ?_, hline, ?_, fun i hi => ⟨?_, Line.shown_of_instruction hi _⟩, ?_,
    fun w a hstep => ?_⟩
  · rw [textLines_listingText, List.getElem?_map, hline, Option.map_some]
  · simp only [← not_exists, Machine.cell_line_eq_instruction_iff, step_unsupported_iff hr]
    rw [← Option.isSome_iff_exists, Option.isSome_iff_ne_none]
  · have hword := Machine.cell_line_eq_instruction_iff.1 hi
    rw [stepEvents_of_ready hr, m.traces_stepEvents hword, List.map_singleton,
      Machine.message_executed hword, hdialect]
  · rw [step_unsupported_iff hr]
    simp only [Machine.cell_line_eq_word_iff]
    exact ⟨fun ⟨_, hnone, _⟩ => hnone, fun hnone => ⟨_, hnone, rfl⟩⟩
  · obtain ⟨hnone, rfl, rfl⟩ := Machine.faults_unsupported_iff.1 ((step_error_iff hr).1 hstep)
    exact Line.shown_ofWord_of_none hnone m.pc c.dialect

/-- The second word of the program is none, and its line says where the step stops. -/
theorem step_reads_line_of_data :
    ∃ vm, vm = (new { seed := some 7 }).after [.load #[0x6A, 0x05, 0xFF, 0xFF] default, .step] ∧
      vm.step.2 = .error (.fault (.unsupported 0xFFFF 0x202)) ∧
      (textLines (listingText {} 0x200 #[0x6A, 0x05, 0xFF, 0xFF]))[1]? =
        some "0202: FFFF DW 0xFFFF" := by
  have ha : (new { seed := some 7 }).Accepts #[0x6A, 0x05, 0xFF, 0xFF] Glyphs.chip48 :=
    .standard rfl rfl (by decide)
  obtain ⟨loaded, m, hloaded, hstarts, hready⟩ := ha.ready_after rfl
  have hpc : m.pc = 0x200 := hstarts.pc_eq
  have hword : m.word = Instruction.word (.loadByte 0xA 0x05) := hstarts.word_eq rfl
  have hstep := step_ok_of_ready hready (m.step_of_word hword loaded.keys)
  generalize hn : { m with pc := m.pc + 2, registers := m.registers.set 0xA 0x05 } = n
  have hpc' : n.pc = 0x202 := by rw [← hn, hpc]; rfl
  have hmemory : n.memory.Holds 0x200 #[0x6A, 0x05, 0xFF, 0xFF] :=
    hn ▸ hstarts.memory.program_holds
  have hready' : { loaded with machine? := some n }.ready = .ok n := ready_next hready n
  have hafter : { loaded with machine? := some n } =
      (new { seed := some 7 }).after [.load #[0x6A, 0x05, 0xFF, 0xFF] default, .step] := by
    have hboth := after_concat (new { seed := some 7 })
      [.load #[0x6A, 0x05, 0xFF, 0xFF] default] .step
    rw [← hloaded, Operation.perform, hstep] at hboth
    exact hn ▸ hboth.symm
  obtain ⟨ht, hm⟩ := ready_eq_ok_iff.1 hready'
  have hfetch : n.word = 0xFFFF := by
    rw [Machine.word, hpc']
    exact hmemory.fetch (k := 2) rfl
  have hfault : n.Faults (.unsupported 0xFFFF 0x202) :=
    Machine.faults_unsupported_iff.2 ⟨by rw [hfetch]; rfl, hfetch.symm, hpc'.symm⟩
  have hfails := (step_error_iff hready').2 hfault
  obtain ⟨line, hline, -, -, -, -, hdata⟩ := step_reads_line (k := 1)
    (hafter.trans (undergo_plain _ _).symm) hm ht (by rw [hpc']; rfl)
    (hmemory 0x202 (by decide) (by decide)) (hmemory 0x203 (by decide) (by decide))
  rw [hdata _ _ hfails] at hline
  exact ⟨_, hafter, hfails, hline⟩

end Vm

end Chip8

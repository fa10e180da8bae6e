import Chip8.Proofs.Listing.Trace
import Chip8.Proofs.Vm.Reload
import Chip8.Vm.Text

/-! The words in memory beside the listing of a program. Both cut the program off two bytes at a
time, the one up to the end of memory and the other up to the end of the program. Right after a load
they show the same words, but for a last byte that stands alone in the program and has a neighbour
in memory. -/

namespace Chip8

/-- The first ten characters of a line of a listing: four digits of the address, a colon and a
blank, and the column of bytes. -/
def lineLead (line : String) : String := String.ofList (line.toList.take 10)

theorem Line.lineLead_shown {line : Line} (haddress : line.address < 65536)
    (hdigits : line.digits.length = 4) (dialect : Dialect) :
    lineLead (line.shown dialect) = Hex.padded 4 line.address ++ ": " ++ line.digits := by
  have hshown : line.shown dialect = Hex.padded 4 line.address ++ ": " ++ line.digits ++
      (" " ++ line.assembly dialect ++ line.cell.comment dialect) := by
    simp only [shown, head, toString_string, String.append_assoc]
  have hlength : (Hex.padded 4 line.address ++ ": " ++ line.digits).toList.length = 10 := by
    have hfour : (Hex.padded 4 line.address).length = 4 := Hex.length_padded (by decide) haddress
    rw [String.length_toList, String.length_append, String.length_append, hfour, hdigits]
    rfl
  rw [lineLead, hshown, String.toList_append, List.take_left' hlength, String.ofList_toList]

theorem lines_of_agree {words leads : List String} {size : Nat}
    (hwords : words.length = (size + 1) / 2) (hleads : leads.length = (size + 1) / 2)
    (hagree : ∀ i < (size + 1) / 2, (words[i]? = leads[i]? ↔ 2 * i + 1 < size)) :
    words.length = leads.length ∧ (size % 2 = 0 → words = leads) ∧
      (size % 2 = 1 →
        words.dropLast = leads.dropLast ∧ words.getLast? ≠ leads.getLast?) := by
  have hlength : words.length = leads.length := hwords.trans hleads.symm
  refine ⟨hlength, fun heven => ?_, fun hodd => ⟨?_, ?_⟩⟩
  · refine List.ext_getElem? fun i => ?_
    by_cases hi : i < (size + 1) / 2
    · exact (hagree i hi).2 (by omega)
    · rw [List.getElem?_eq_none (by omega), List.getElem?_eq_none (by omega)]
  · refine List.ext_getElem? fun i => ?_
    rw [List.getElem?_dropLast, List.getElem?_dropLast, hlength]
    by_cases hi : i < leads.length - 1
    · rw [if_pos hi, if_pos hi]
      exact (hagree i (by omega)).2 (by omega)
    · rw [if_neg hi, if_neg hi]
  · rw [List.getLast?_eq_getElem?, List.getLast?_eq_getElem?, hlength]
    intro hlast
    have hboth := (hagree (leads.length - 1) (by omega)).1 hlast
    omega

namespace Memory

def wordLine (m : Memory) (a : Nat) : String := Hex.padded 4 a ++ ": " ++ (m.fetch a).text

theorem wordLines_eq_map {m : Memory} {start : Nat} (hstart : start ≤ m.capacity) (count : Nat) :
    m.wordLines start count =
      (List.range ((min count (m.capacity - start) + 1) / 2)).map fun i =>
        m.wordLine (start + 2 * i) := by
  have hstop : min (start + count) m.capacity - start = min count (m.capacity - start) := by omega
  rw [wordLines, hstop]
  rfl

theorem oneLine_wordLine (m : Memory) (a : Nat) : OneLine (m.wordLine a) :=
  OneLine.append_iff.2 ⟨OneLine.append_iff.2 ⟨OneLine.padded 4 a, by simp [OneLine]⟩,
    OneLine.word _⟩

variable {m : Memory} {start i : Nat} {program : Array Byte}

theorem wordLine_eq_lineLead_iff (h : m.Holds start program)
    (hstop : start + program.size ≤ 65536) (hi : 2 * i < program.size) (dialect : Dialect) :
    ∃ line, (listing start program)[i]? = some line ∧
      (m.wordLine (start + 2 * i) = lineLead (line.shown dialect) ↔ 2 * i + 1 < program.size) := by
  have haddress : start + 2 * i < 65536 := by omega
  have hhigh := h (start + 2 * i) (by omega) (by omega)
  rw [Nat.add_sub_cancel_left] at hhigh
  rw [getElem?_listing]
  by_cases hlow : 2 * i + 1 < program.size
  · have hbyte := h (start + 2 * i + 1) (by omega) (by omega)
    rw [Nat.add_assoc, Nat.add_sub_cancel_left, ← Nat.add_assoc] at hbyte
    refine ⟨_, Line.at?_of_getElem? hhigh hbyte, iff_of_true ?_ hlow⟩
    have hdigits : Line.digits ⟨start + 2 * i, .ofWord (m.fetch (start + 2 * i))⟩ =
        (m.fetch (start + 2 * i)).text := Line.digits_ofWord ..
    have hlength : (m.fetch (start + 2 * i)).text.length = 4 :=
      Hex.length_padded (by decide) (m.fetch (start + 2 * i)).toNat_lt
    rw [← hdigits] at hlength
    exact (congrArg _ hdigits.symm).trans (Line.lineLead_shown haddress hlength dialect).symm
  · have hend : program[2 * i + 1]? = none := Array.getElem?_eq_none (Nat.le_of_not_lt hlow)
    refine ⟨_, Line.at?_of_last hhigh hend, iff_of_false (fun heq => ?_) hlow⟩
    have hdigits := Line.digits_byte (start + 2 * i) (m.read (start + 2 * i))
    have hlength : (Line.digits ⟨start + 2 * i, .byte (m.read (start + 2 * i))⟩).length = 4 := by
      rw [hdigits, String.length_append, Line.length_padded_two]
      rfl
    rw [Line.lineLead_shown haddress hlength, hdigits, wordLine, String.append_right_inj] at heq
    -- no numeral has a blank in it
    have hblank : ' ' ∈ (m.fetch (start + 2 * i)).text.toList := by
      rw [heq]
      simp
    rw [Word.text, Hex.padded, String.toList_ofList] at hblank
    exact Hex.not_mem_lastDigits (by decide) _ _ hblank

end Memory

namespace Vm

variable {vm : Vm} {m : Machine} {c : Config}

theorem word_of_pc (hfits : m.Fits c) {a : Nat} (ha : a < c.memorySize) :
    let fetching : Machine := { m with pc := UInt16.ofNat a }
    fetching.pc.toNat = a ∧ fetching.word = m.memory.fetch a ∧
      fetching.word =
        Word.ofBytes (m.memory.read a) (m.memory.read ((a + 1) % c.memorySize)) := by
  intro fetching
  have hsize : c.memorySize ≤ 65536 := hfits.memory_le
  have hpc : fetching.pc.toNat = a := by
    rw [UInt16.toNat_ofNat', Nat.mod_eq_of_lt (by omega)]
  have hword : fetching.word = m.memory.fetch a := by rw [Machine.word, hpc]
  refine ⟨hpc, hword, ?_⟩
  rw [hword, ← hfits.capacity, m.memory.read_mod]
  rfl

theorem ramText_lines (hm : vm.machine? = some m) (hfits : m.Fits c) (count : Nat) :
    textLines (vm.ramText count) =
        (List.range ((min count (c.memorySize - c.programStart) + 1) / 2)).map
          (fun i => m.memory.wordLine (c.programStart + 2 * i)) ∧
      vm.ramText count = String.join ((textLines (vm.ramText count)).map (· ++ "\n")) := by
  have hstart : m.memory.programStart ≤ m.memory.capacity := by
    rw [hfits.capacity, hfits.programStart]
    exact Nat.le_of_lt hfits.program_lt
  have hlines := Memory.wordLines_eq_map hstart count
  have htext : vm.ramText count =
      String.join ((m.memory.wordLines m.memory.programStart count).map (· ++ "\n")) := by
    rw [ramText, hm]
  rw [hlines, hfits.capacity, hfits.programStart] at htext
  rw [htext, textLines_join]
  · exact ⟨rfl, rfl⟩
  · intro l hl
    obtain ⟨i, -, rfl⟩ := List.mem_map.1 hl
    exact m.memory.oneLine_wordLine _

theorem getElem?_ramText_eq_iff {program : Array Byte} {entropy : Random.Key}
    (hconfig : vm.config = c) (hload : (vm.load program entropy).2 = .ok ()) (dialect : Dialect) :
    let words := textLines ((vm.load program entropy).1.ramText program.size)
    let leads := (textLines (listingText dialect c.programStart program)).map lineLead
    words.length = (program.size + 1) / 2 ∧ leads.length = (program.size + 1) / 2 ∧
      ∀ i < (program.size + 1) / 2, (words[i]? = leads[i]? ↔ 2 * i + 1 < program.size) := by
  intro words leads
  subst hconfig
  obtain ⟨glyphs, ha, hl⟩ := load_of_ok hload
  have hloaded : (vm.load program entropy).1.Fits vm.config := hl ▸ ha.fits_started
  have hmachine := congrArg (fun r => r.1.machine?) hl
  have hfits := hloaded.2 _ hmachine
  have hroom := ha.program_fits
  have hsize : vm.config.memorySize ≤ 65536 := hfits.memory_le
  have hcount : min program.size (vm.config.memorySize - vm.config.programStart) =
      program.size := by omega
  obtain ⟨hlines, -⟩ := ramText_lines hmachine hfits program.size
  rw [hcount] at hlines
  have hleads : leads = ((listing vm.config.programStart program).map (Line.shown dialect)).map
      lineLead := congrArg (List.map lineLead) (textLines_listingText ..)
  refine ⟨?_, ?_, fun i hi => ?_⟩
  · rw [show words = _ from hlines, List.length_map, List.length_range]
  · rw [hleads, List.length_map, List.length_map, length_listing]
  · obtain ⟨line, hline, hiff⟩ := Memory.wordLine_eq_lineLead_iff ha.filled.program_holds
      (by omega) (show 2 * i < program.size by omega) dialect
    rw [show words = _ from hlines, hleads, List.getElem?_map, List.getElem?_range hi,
      List.getElem?_map, List.getElem?_map, hline, ← hiff]
    exact Option.some_inj

/-- The text of memory has a line for each two bytes begun that are asked for and there, with the
word that a fetch reads there, around the end of memory too. Right after a load the words of the
program are those of its listing, whatever the dialect; only a last byte that stands alone is shown
as such in the listing and with the byte behind it in memory. -/
theorem words_match_listing {source : GlyphSource} {actions : List Action}
    (hvm : vm = ((new c source).undergo actions).1) :
    (∀ m, vm.machine? = some m → ∀ count,
      let lines := textLines (vm.ramText count)
      vm.ramText count = String.join (lines.map (· ++ "\n")) ∧
        lines.length = (min count (c.memorySize - c.programStart) + 1) / 2 ∧
        ∀ i < lines.length,
          let a := c.programStart + 2 * i
          let fetching : Machine := { m with pc := UInt16.ofNat a }
          a < c.memorySize ∧ fetching.pc.toNat = a ∧
            lines[i]? = some (Hex.padded 4 a ++ ": " ++ fetching.word.text) ∧
            fetching.word =
              Word.ofBytes (m.memory.read a) (m.memory.read ((a + 1) % c.memorySize))) ∧
    ∀ program entropy, (vm.load program entropy).2 = .ok () → ∀ dialect,
      let words := textLines ((vm.load program entropy).1.ramText program.size)
      let leads := (textLines (listingText dialect c.programStart program)).map lineLead
      words.length = leads.length ∧ (program.size % 2 = 0 → words = leads) ∧
        (program.size % 2 = 1 →
          words.dropLast = leads.dropLast ∧ words.getLast? ≠ leads.getLast?) := by
  refine ⟨fun m hm count => ?_, fun program entropy hload dialect => ?_⟩
  · intro lines
    have hfits := fits_of_undergo hvm hm
    obtain ⟨hlines, hjoin⟩ := ramText_lines hm hfits count
    have hlength : lines.length = (min count (c.memorySize - c.programStart) + 1) / 2 := by
      rw [show lines = _ from hlines, List.length_map, List.length_range]
    refine ⟨hjoin, hlength, fun i hi => ?_⟩
    intro a fetching
    rw [hlength] at hi
    have ha : a < c.memorySize := by omega
    obtain ⟨hpc, hfetch, hword⟩ := word_of_pc hfits ha
    refine ⟨ha, hpc, ?_, hword⟩
    rw [show lines = _ from hlines, List.getElem?_map, List.getElem?_range hi, hfetch]
    rfl
  · intro words leads
    have hconfig : vm.config = c := hvm ▸ (fits_undergo c source actions).1
    obtain ⟨hwords, hleads, hagree⟩ := getElem?_ramText_eq_iff hconfig hload dialect
    exact lines_of_agree hwords hleads hagree

/-- Three bytes up to the end of memory: the last of them and the first of the font make a word. -/
theorem words_match_listing_at_end :
    let vm := new { memorySize := 83, fontStart := 0, programStart := 80 }
    let program : Array Byte := #[0x12, 0x50, 0x07]
    let loaded := (vm.load program default).1
    (vm.load program default).2 = .ok () ∧ (∃ m, loaded.machine? = some m) ∧
      (textLines (loaded.ramText 9)).length = 2 ∧
      (textLines (loaded.ramText 9))[1]? = some "0052: 07F0" ∧
      (textLines (loaded.ramText program.size)).getLast? ≠
        ((textLines (listingText {} 80 program)).map lineLead).getLast? := by
  intro vm program loaded
  have hload : (vm.load program default).2 = .ok () := by decide +kernel
  obtain ⟨m, hm, hbytes⟩ : ∃ m, loaded.machine? = some m ∧
      Word.ofBytes (m.memory.read 82) (m.memory.read 0) = 0x07F0 :=
    Option.map_eq_some_iff.1 (by decide +kernel)
  have hloaded : loaded = (vm.undergo [.plain (.load program default)]).1 :=
    (after_load vm program default).symm.trans (undergo_plain vm [.load program default]).symm
  obtain ⟨hlines, -⟩ := words_match_listing hloaded
  obtain ⟨-, hlength, hwords⟩ := hlines m hm 9
  obtain ⟨-, -, hlast, hword⟩ := hwords 1 (by rw [hlength]; decide)
  rw [hword.trans hbytes] at hlast
  have hvm : vm = (vm.undergo []).1 := rfl
  obtain ⟨-, hlisting⟩ := words_match_listing hvm
  obtain ⟨-, -, hodd⟩ := hlisting program default hload {}
  have hline : Hex.padded 4 (80 + 2 * 1) ++ ": " ++ Word.text 0x07F0 = "0052: 07F0" := by
    decide +kernel
  exact ⟨hload, ⟨m, hm⟩, hlength, hlast.trans (congrArg some hline), (hodd (by decide)).2⟩

end Vm

end Chip8

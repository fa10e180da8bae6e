import Chip8.Proofs.Listing.Lines

/-! A listing loses nothing of the program. Line `i` stands for the bytes `2 * i` and `2 * i + 1`,
and the column of assembly alone gives the bytes back. -/

namespace Chip8

def linesFrom (a : Nat) : List Byte → List Line
  | [] => []
  | [b] => [⟨a, .byte b⟩]
  | high :: low :: rest => ⟨a, .ofWord (.ofBytes high low)⟩ :: linesFrom (a + 2) rest

namespace Line

theorem at?_zero (origin : Nat) (high low : Byte) (rest : List Byte) :
    at? origin (high :: low :: rest).toArray 0 = some ⟨origin, .ofWord (.ofBytes high low)⟩ := by
  simp [at?, Word.at?]

theorem at?_add_two (origin k : Nat) (high low : Byte) (rest : List Byte) :
    at? origin (high :: low :: rest).toArray (k + 2) = at? (origin + 2) rest.toArray k := by
  have haddress : origin + (k + 2) = origin + 2 + k := by omega
  simp [at?, Word.at?, haddress]

theorem at?_of_getElem? {origin k : Nat} {program : Array Byte} {high low : Byte}
    (hhigh : program[k]? = some high) (hlow : program[k + 1]? = some low) :
    at? origin program k = some ⟨origin + k, .ofWord (.ofBytes high low)⟩ := by
  simp [at?, Word.at?, hhigh, hlow]

theorem at?_of_last {origin k : Nat} {program : Array Byte} {last : Byte}
    (hlast : program[k]? = some last) (hend : program[k + 1]? = none) :
    at? origin program k = some ⟨origin + k, .byte last⟩ := by
  simp [at?, Word.at?, hlast, hend]

theorem address_of_at? {origin k : Nat} {program : Array Byte} {line : Line}
    (h : at? origin program k = some line) : line.address = origin + k := by
  unfold at? at h
  split at h
  · cases h
    rfl
  · obtain ⟨b, -, rfl⟩ := Option.map_eq_some_iff.1 h
    rfl

end Line

theorem listing_cons_cons (origin : Nat) (high low : Byte) (rest : List Byte) :
    listing origin (high :: low :: rest).toArray =
      ⟨origin, .ofWord (.ofBytes high low)⟩ :: listing (origin + 2) rest.toArray := by
  have hcount : ((high :: low :: rest).toArray.size + 1) / 2 = (rest.toArray.size + 1) / 2 + 1 := by
    simp only [List.size_toArray, List.length_cons]
    omega
  have hlater : (fun i => Line.at? origin (high :: low :: rest).toArray (2 * i)) ∘ Nat.succ =
      fun i => Line.at? (origin + 2) rest.toArray (2 * i) := by
    funext i
    exact Line.at?_add_two origin (2 * i) high low rest
  rw [listing, hcount, List.range_succ_eq_map, List.filterMap_cons, Nat.mul_zero, Line.at?_zero,
    List.filterMap_map, hlater]
  rfl

theorem listing_eq_linesFrom (origin : Nat) (program : Array Byte) :
    listing origin program = linesFrom origin program.toList := by
  obtain ⟨bytes⟩ := program
  induction origin, bytes using linesFrom.induct with
  | case1 a => rfl
  | case2 a b => simp [listing, linesFrom, Line.at?, Word.at?]
  | case3 a high low rest ih => rw [listing_cons_cons, ih, linesFrom]

theorem length_listing (origin : Nat) (program : Array Byte) :
    (listing origin program).length = (program.size + 1) / 2 := by
  rw [listing_eq_linesFrom, ← Array.length_toList]
  induction origin, program.toList using linesFrom.induct with
  | case1 a => rfl
  | case2 a b => simp [linesFrom]
  | case3 a high low rest ih =>
    simp only [linesFrom, List.length_cons, ih]
    omega

theorem getElem?_listing (origin : Nat) (program : Array Byte) (i : Nat) :
    (listing origin program)[i]? = Line.at? origin program (2 * i) := by
  obtain ⟨bytes⟩ := program
  induction origin, bytes using linesFrom.induct generalizing i with
  | case1 a => simp [listing, Line.at?, Word.at?]
  | case2 a b =>
    cases i with
    | zero => simp [listing, Line.at?, Word.at?]
    | succ i => simp [listing, Line.at?, Word.at?, Nat.mul_add]
  | case3 a high low rest ih =>
    rw [listing_cons_cons]
    cases i with
    | zero => rw [Nat.mul_zero, Line.at?_zero, List.getElem?_cons_zero]
    | succ i => rw [List.getElem?_cons_succ, ih, Nat.mul_succ, Line.at?_add_two]

theorem flatMap_bytes_listing (origin : Nat) (program : Array Byte) :
    (listing origin program).flatMap (fun line => line.cell.bytes) = program.toList := by
  rw [listing_eq_linesFrom]
  induction origin, program.toList using linesFrom.induct with
  | case1 a => rfl
  | case2 a b => rfl
  | case3 a high low rest ih =>
    rw [linesFrom, List.flatMap_cons, ih, Cell.bytes_ofWord, Word.high_ofBytes, Word.low_ofBytes]
    rfl

namespace Line

theorem ofText?_assembly (dialect : Dialect) (line : Line) :
    Statement.ofText? (line.assembly dialect) = some (line.cell.statement dialect) :=
  Statement.ofText?_text (line.cell.blank_not_mem_name dialect)

theorem length_padded_two (b : Byte) : (Hex.padded 2 b.toNat).length = 2 :=
  Hex.length_padded (by decide) b.toNat_lt

theorem digits_ofBytes (a : Nat) (high low : Byte) :
    digits ⟨a, .ofWord (.ofBytes high low)⟩ =
      Hex.padded 2 high.toNat ++ Hex.padded 2 low.toNat := by
  simp [digits, Cell.bytes_ofWord, Word.high_ofBytes, Word.low_ofBytes, length_padded_two]

theorem digits_byte (a : Nat) (b : Byte) : digits ⟨a, .byte b⟩ = Hex.padded 2 b.toNat ++ "  " := by
  simp [digits, Cell.bytes, length_padded_two]

end Line

theorem assemble?_listing (dialect : Dialect) (origin : Nat) (program : Array Byte) :
    assemble? ((listing origin program).map (Line.assembly dialect)) = some program.toList := by
  have hmeant := mapM_map_eq_some fun line : Line => line.cell.ofStatement?_statement dialect
  rw [assemble?, mapM_map_eq_some (Line.ofText?_assembly dialect), Option.bind_eq_bind,
    Option.bind_some, hmeant, Option.bind_eq_bind, Option.bind_some, List.flatMap_map,
    flatMap_bytes_listing]
  rfl

structure Line.Shows (line : Line) (origin : Nat) (program : Array Byte) (i : Nat) : Prop where
  address : line.address = origin + 2 * i
  two : ∀ high low, program[2 * i]? = some high → program[2 * i + 1]? = some low →
    line.digits = Hex.padded 2 high.toNat ++ Hex.padded 2 low.toNat
  last : ∀ b, program[2 * i]? = some b → program[2 * i + 1]? = none →
    line.digits = Hex.padded 2 b.toNat ++ "  "

theorem Line.shows_of_at? {origin i : Nat} {program : Array Byte} {line : Line}
    (h : at? origin program (2 * i) = some line) : line.Shows origin program i where
  address := address_of_at? h
  two high low hhigh hlow := by
    rw [at?_of_getElem? hhigh hlow] at h
    cases h
    exact digits_ofBytes ..
  last b hb hend := by
    rw [at?_of_last hb hend] at h
    cases h
    exact digits_byte ..

theorem listing_injective (dialect : Dialect) {origin origin' : Nat} {program other : Array Byte}
    (h : (listing origin program).map (Line.assembly dialect) =
      (listing origin' other).map (Line.assembly dialect)) : program = other := by
  have hread := assemble?_listing dialect origin program
  rw [h, assemble?_listing] at hread
  exact (Array.toList_inj.1 (Option.some.inj hread)).symm

/-- The lines of the text are those of the listing, a line for every two bytes begun, and each shows
where it stands and what it stands for. One assembler reads every column of assembly back, so no two
programs have the same. -/
theorem listing_lossless (dialect : Dialect) :
    (∀ (origin : Nat) (program : Array Byte),
      textLines (listingText dialect origin program) =
          (listing origin program).map (Line.shown dialect) ∧
        (listing origin program).length = (program.size + 1) / 2 ∧
        (∀ i < (program.size + 1) / 2, ∃ line,
          (listing origin program)[i]? = some line ∧ line.Shows origin program i ∧
            line.shown dialect = Hex.padded 4 line.address ++ ": " ++ line.digits ++ " " ++
              line.assembly dialect ++ line.cell.comment dialect) ∧
        assemble? ((listing origin program).map (Line.assembly dialect)) = some program.toList) ∧
      ∀ (origin origin' : Nat) (program other : Array Byte),
        (listing origin program).map (Line.assembly dialect) =
          (listing origin' other).map (Line.assembly dialect) → program = other := by
  refine ⟨fun origin program => ⟨textLines_listingText dialect origin program,
    length_listing origin program, fun i hi => ?_, assemble?_listing dialect origin program⟩,
    fun _ _ _ _ => listing_injective dialect⟩
  obtain ⟨line, hline⟩ : ∃ line, (listing origin program)[i]? = some line :=
    ⟨_, List.getElem?_eq_getElem (by rwa [length_listing])⟩
  refine ⟨line, hline, ?_, rfl⟩
  rw [getElem?_listing] at hline
  exact Line.shows_of_at? hline

/-- A word that is no instruction and a last byte that stands alone. -/
example : textLines (listingText {} 0x300 #[0xFF, 0xFF, 0x80]) =
    ["0300: FFFF DW 0xFFFF", "0302: 80   DB 0x80"] := by
  rw [textLines_listingText]
  decide +kernel

end Chip8

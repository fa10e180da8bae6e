import Chip8.Instruction.Lemmas
import Mathlib.Data.Fintype.Basic
import Mathlib.Tactic.FinCases

/-! The instruction set as a table: the words of an instruction agree in some of their digits, and
the others are operands. A word is read if and only if it fits one of the patterns. -/

namespace Chip8

/-- The digits of a word from the highest to the lowest. Those that are not fixed are operands. -/
structure Pattern where
  t : Digit
  x : Option Digit := none
  y : Option Digit := none
  n : Option Digit := none
  deriving DecidableEq, Repr

namespace Pattern

structure Matches (p : Pattern) (w : Word) : Prop where
  t : w.t = p.t
  x : ∀ d ∈ p.x, w.x = d
  y : ∀ d ∈ p.y, w.y = d
  n : ∀ d ∈ p.n, w.n = d

theorem matches_iff {p : Pattern} {w : Word} :
    p.Matches w ↔
      w.t = p.t ∧ (∀ d ∈ p.x, w.x = d) ∧ (∀ d ∈ p.y, w.y = d) ∧ ∀ d ∈ p.n, w.n = d :=
  ⟨fun h => ⟨h.t, h.x, h.y, h.n⟩, fun ⟨t, x, y, n⟩ => ⟨t, x, y, n⟩⟩

def all : List Pattern := [
  { t := 0x0, x := some 0x0, y := some 0xE, n := some 0x0 }, -- 00E0
  { t := 0x0, x := some 0x0, y := some 0xE, n := some 0xE }, -- 00EE
  { t := 0x1 }, -- 1NNN
  { t := 0x2 }, -- 2NNN
  { t := 0x3 }, -- 3XNN
  { t := 0x4 }, -- 4XNN
  { t := 0x5, n := some 0x0 }, -- 5XY0
  { t := 0x6 }, -- 6XNN
  { t := 0x7 }, -- 7XNN
  { t := 0x8, n := some 0x0 }, -- 8XY0
  { t := 0x8, n := some 0x1 }, -- 8XY1
  { t := 0x8, n := some 0x2 }, -- 8XY2
  { t := 0x8, n := some 0x3 }, -- 8XY3
  { t := 0x8, n := some 0x4 }, -- 8XY4
  { t := 0x8, n := some 0x5 }, -- 8XY5
  { t := 0x8, n := some 0x6 }, -- 8XY6
  { t := 0x8, n := some 0x7 }, -- 8XY7
  { t := 0x8, n := some 0xE }, -- 8XYE
  { t := 0x9, n := some 0x0 }, -- 9XY0
  { t := 0xA }, -- ANNN
  { t := 0xB }, -- BNNN
  { t := 0xC }, -- CXNN
  { t := 0xD }, -- DXYN
  { t := 0xE, y := some 0x9, n := some 0xE }, -- EX9E
  { t := 0xE, y := some 0xA, n := some 0x1 }, -- EXA1
  { t := 0xF, y := some 0x0, n := some 0x7 }, -- FX07
  { t := 0xF, y := some 0x0, n := some 0xA }, -- FX0A
  { t := 0xF, y := some 0x1, n := some 0x5 }, -- FX15
  { t := 0xF, y := some 0x1, n := some 0x8 }, -- FX18
  { t := 0xF, y := some 0x1, n := some 0xE }, -- FX1E
  { t := 0xF, y := some 0x2, n := some 0x9 }, -- FX29
  { t := 0xF, y := some 0x3, n := some 0x3 }, -- FX33
  { t := 0xF, y := some 0x5, n := some 0x5 }, -- FX55
  { t := 0xF, y := some 0x6, n := some 0x5 }] -- FX65

theorem length_all : all.length = 34 := rfl

end Pattern

namespace Word

theorem toNat_digits (w : Word) :
    w.toNat = 4096 * w.t.val + 256 * w.x.val + 16 * w.y.val + w.n.val := by
  have := w.toNat_lt
  simp only [Word.t, Word.x, Word.y, Word.n, Fin.val_ofNat]
  omega

theorem toNat_low (w : Word) : w.low.toNat = 16 * w.y.val + w.n.val := by
  have := w.toNat_lt
  simp only [Word.low, Word.y, Word.n, Fin.val_ofNat, UInt8.toNat_ofNat']
  omega

theorem eq_iff_digits {v w : Word} : v = w ↔ v.t = w.t ∧ v.x = w.x ∧ v.y = w.y ∧ v.n = w.n := by
  constructor
  · rintro rfl
    exact ⟨rfl, rfl, rfl, rfl⟩
  · rintro ⟨ht, hx, hy, hn⟩
    rw [← UInt16.toNat_inj, toNat_digits v, toNat_digits w, ht, hx, hy, hn]

end Word

namespace Alu

theorem isSome_ofDigit? : ∀ n : Digit, (ofDigit? n).isSome ↔
    n = 0x0 ∨ n = 0x1 ∨ n = 0x2 ∨ n = 0x3 ∨ n = 0x4 ∨ n = 0x5 ∨ n = 0x6 ∨ n = 0x7 ∨ n = 0xE := by
  decide

end Alu

namespace Instruction

theorem isSome_ofKeyWord? (w : Word) :
    (ofKeyWord? w).isSome ↔ (w.y = 0x9 ∧ w.n = 0xE) ∨ (w.y = 0xA ∧ w.n = 0x1) := by
  unfold ofKeyWord?
  rw [Word.toNat_low]
  generalize w.y = y
  generalize w.n = n
  split <;> simp <;> revert y n <;> decide

theorem isSome_ofDeviceWord? (w : Word) :
    (ofDeviceWord? w).isSome ↔
      (w.y = 0x0 ∧ w.n = 0x7) ∨ (w.y = 0x0 ∧ w.n = 0xA) ∨ (w.y = 0x1 ∧ w.n = 0x5) ∨
        (w.y = 0x1 ∧ w.n = 0x8) ∨ (w.y = 0x1 ∧ w.n = 0xE) ∨ (w.y = 0x2 ∧ w.n = 0x9) ∨
          (w.y = 0x3 ∧ w.n = 0x3) ∨ (w.y = 0x5 ∧ w.n = 0x5) ∨ (w.y = 0x6 ∧ w.n = 0x5) := by
  unfold ofDeviceWord?
  rw [Word.toNat_low]
  generalize w.y = y
  generalize w.n = n
  split <;> simp <;> revert y n <;> decide

theorem isSome_ofWord? (w : Word) : (ofWord? w).isSome ↔ ∃ p ∈ Pattern.all, p.Matches w := by
  have hclear : w = 0x00E0 ↔ w.t = 0x0 ∧ w.x = 0x0 ∧ w.y = 0xE ∧ w.n = 0x0 := Word.eq_iff_digits
  have hret : w = 0x00EE ↔ w.t = 0x0 ∧ w.x = 0x0 ∧ w.y = 0xE ∧ w.n = 0xE := Word.eq_iff_digits
  simp only [Pattern.all, Pattern.matches_iff, List.mem_cons, List.not_mem_nil, or_false,
    exists_eq_or_imp, exists_eq_left, Option.mem_def, Option.some.injEq, reduceCtorEq,
    false_imp_iff, implies_true, true_and, and_true, forall_eq', ofWord?, hclear, hret]
  generalize w.t = t
  -- of each group the patterns with another highest digit fall away
  fin_cases t
  case «0» =>
    simp only [Fin.isValue]
    split_ifs <;> simp_all
  all_goals simp [isSome_ofKeyWord?, isSome_ofDeviceWord?, Alu.isSome_ofDigit?]

theorem ofWord?_eq_none_iff (w : Word) :
    ofWord? w = none ↔ ∀ p ∈ Pattern.all, ¬p.Matches w := by
  rw [← Option.not_isSome_iff_eq_none, isSome_ofWord?]
  exact ⟨fun h p hp hm => h ⟨p, hp, hm⟩, fun h ⟨p, hp, hm⟩ => h p hp hm⟩

theorem eq_addressWord_iff {w : Word} {t : Digit} {target : ShortAddress} :
    w = addressWord t.val target ↔ w.t = t ∧ w.address = target := by
  constructor
  · rintro rfl
    obtain ⟨ht, haddress⟩ := address_addressWord t.isLt target
    exact ⟨Fin.ext ht, haddress⟩
  · rintro ⟨rfl, rfl⟩
    exact (addressWord_address w).symm

theorem eq_byteWord_iff {w : Word} {t x : Digit} {b : Byte} :
    w = byteWord t.val x b ↔ w.t = t ∧ w.low = b ∧ w.x = x := by
  constructor
  · rintro rfl
    obtain ⟨ht, hx, hlow⟩ := fields_byteWord t.isLt x b
    exact ⟨Fin.ext ht, hlow, hx⟩
  · rintro ⟨rfl, rfl, rfl⟩
    exact (byteWord_low w).symm

theorem eq_digitWord_iff {w : Word} {t x y n : Digit} :
    w = digitWord t.val x y n ↔ w.t = t ∧ w.x = x ∧ w.y = y ∧ w.n = n := by
  constructor
  · rintro rfl
    obtain ⟨ht, hx, hy, hn⟩ := fields_digitWord t.isLt x y n
    exact ⟨Fin.ext ht, hx, hy, hn⟩
  · rintro ⟨rfl, rfl, rfl, rfl⟩
    exact (digitWord_n w).symm

theorem ofWord?_eq_setDelay_iff {w : Word} {x : Digit} :
    ofWord? w = some (setDelay x) ↔ w.t = 0xF ∧ w.low = 0x15 ∧ w.x = x :=
  ofWord?_eq_some_iff.trans (eq_byteWord_iff (t := 0xF))

theorem ofWord?_eq_setSound_iff {w : Word} {x : Digit} :
    ofWord? w = some (setSound x) ↔ w.t = 0xF ∧ w.low = 0x18 ∧ w.x = x :=
  ofWord?_eq_some_iff.trans (eq_byteWord_iff (t := 0xF))

theorem ofWord?_eq_random_iff {w : Word} {x : Digit} {mask : Byte} :
    ofWord? w = some (random x mask) ↔ w.t = 0xC ∧ w.low = mask ∧ w.x = x :=
  ofWord?_eq_some_iff.trans (eq_byteWord_iff (t := 0xC))

theorem ofWord?_eq_draw_iff {w : Word} {x y n : Digit} :
    ofWord? w = some (draw x y n) ↔ w.t = 0xD ∧ w.x = x ∧ w.y = y ∧ w.n = n :=
  ofWord?_eq_some_iff.trans (eq_digitWord_iff (t := 0xD))

theorem ofWord?_of_t_eq_two {w : Word} (h : w.t = 0x2) : ofWord? w = some (call w.address) := by
  rw [ofWord?, h]
  rfl

theorem t_eq_two_of_call {w : Word} {target : ShortAddress} (h : ofWord? w = some (call target)) :
    w.t = 0x2 := by
  rw [ofWord?_eq_some_iff] at h
  exact Fin.ext (h ▸ (address_addressWord (by decide) target).1)

end Instruction

end Chip8

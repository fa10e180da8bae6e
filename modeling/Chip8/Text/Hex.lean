/-! Hexadecimal numerals, most significant digit first. A padded numeral has at least the asked
number of digits and never loses one: its value is the number it was written for. -/

namespace Chip8.Hex

def upperDigit (n : Nat) : Char := Char.ofNat (if n < 10 then 48 + n else 55 + n)

def lowerDigit (n : Nat) : Char := Char.ofNat (if n < 10 then 48 + n else 87 + n)

def lastDigits : Nat → Nat → List Char
  | 0, _ => []
  | count + 1, n => lastDigits count (n / 16) ++ [upperDigit (n % 16)]

def width (n : Nat) : Nat := n.log2 / 4 + 1

def padded (least n : Nat) : String := String.ofList (lastDigits (max least (width n)) n)

def digit? (c : Char) : Option Nat :=
  if '0' ≤ c ∧ c ≤ '9' then some (c.toNat - 48)
  else if 'a' ≤ c ∧ c ≤ 'f' then some (c.toNat - 87)
  else if 'A' ≤ c ∧ c ≤ 'F' then some (c.toNat - 55)
  else none

def readFrom (n : Nat) : List Char → Option Nat
  | [] => some n
  | c :: rest => (digit? c).bind fun d => readFrom (16 * n + d) rest

theorem length_lastDigits (count n : Nat) : (lastDigits count n).length = count := by
  induction count generalizing n with
  | zero => rfl
  | succ count ih => simp [lastDigits, ih]

theorem digit?_upperDigit : ∀ n < 16, digit? (upperDigit n) = some n := by decide

theorem not_mem_lastDigits {c : Char} (h : ∀ n < 16, upperDigit n ≠ c) (count n : Nat) :
    c ∉ lastDigits count n := by
  induction count generalizing n with
  | zero => exact List.not_mem_nil
  | succ count ih =>
    have hd := h (n % 16) (Nat.mod_lt n (by decide))
    simp [lastDigits, ih, hd.symm]

theorem upperDigit_ne_comma : ∀ n < 16, upperDigit n ≠ ',' := by decide

theorem comma_not_mem_lastDigits (count n : Nat) : ',' ∉ lastDigits count n :=
  not_mem_lastDigits upperDigit_ne_comma count n

theorem readFrom_append (n : Nat) (cs ds : List Char) :
    readFrom n (cs ++ ds) = (readFrom n cs).bind fun m => readFrom m ds := by
  induction cs generalizing n with
  | nil => rfl
  | cons c cs ih =>
    simp only [List.cons_append, readFrom]
    cases digit? c with
    | none => rfl
    | some d => exact ih _

theorem readFrom_lastDigits (count n m : Nat) :
    readFrom m (lastDigits count n) = some (m * Nat.pow 16 count + n % Nat.pow 16 count) := by
  induction count generalizing n with
  | zero => simp [lastDigits, readFrom, Nat.mod_one]
  | succ count ih =>
    have hd := digit?_upperDigit (n % 16) (Nat.mod_lt _ (by decide))
    simp only [lastDigits, readFrom_append, ih, Option.bind_some, readFrom, hd, Nat.pow_eq]
    rw [Nat.pow_succ', Nat.mod_mul, Nat.mul_add, Nat.mul_left_comm]
    exact congrArg some (by omega)

theorem width_le {count n : Nat} (hc : 0 < count) (h : n < Nat.pow 16 count) : width n ≤ count := by
  have hn : n.log2 < 4 * count := by
    rcases Nat.eq_zero_or_pos n with rfl | hpos
    · simpa using hc
    · rw [Nat.log2_lt (Nat.ne_of_gt hpos), Nat.pow_mul]
      exact h
  unfold width
  omega

theorem toList_padded {count n : Nat} (hc : 0 < count) (h : n < Nat.pow 16 count) :
    (padded count n).toList = lastDigits count n := by
  rw [padded, Nat.max_eq_left (width_le hc h), String.toList_ofList]

theorem length_padded {count n : Nat} (hc : 0 < count) (h : n < Nat.pow 16 count) :
    (padded count n).length = count := by
  rw [← String.length_toList, toList_padded hc h, length_lastDigits]

theorem readFrom_lastDigits_of_lt {count n : Nat} (h : n < Nat.pow 16 count) :
    readFrom 0 (lastDigits count n) = some n := by
  rw [readFrom_lastDigits, Nat.mod_eq_of_lt h, Nat.zero_mul, Nat.zero_add]

end Chip8.Hex

import Chip8.Text.Hex
import Chip8.Word

/-! The keypad of sixteen keys, a bit each. -/

namespace Chip8

abbrev Key := Digit

structure Keypad where
  mask : BitVec 16 := 0
  deriving DecidableEq, Repr

namespace Keypad

def press (k : Keypad) (key : Key) : Keypad := ⟨k.mask ||| BitVec.twoPow 16 key.val⟩

def release (k : Keypad) (key : Key) : Keypad := ⟨k.mask &&& ~~~BitVec.twoPow 16 key.val⟩

def set (k : Keypad) (key : Key) (down : Bool) : Keypad :=
  if down then k.press key else k.release key

/-- Numbers past the last key are never pressed. -/
def isPressed (k : Keypad) (id : Nat) : Bool := k.mask.getLsbD id

def any (k : Keypad) : Bool := k.mask != 0

def pressed (k : Keypad) : List Key := (List.finRange 16).filter fun key => k.isPressed key.val

def first? (k : Keypad) : Option Key := (List.finRange 16).find? fun key => k.isPressed key.val

theorem isPressed_press (k : Keypad) (key : Key) (id : Nat) :
    (k.press key).isPressed id = (k.isPressed id || decide (id = key.val)) := by
  simp only [press, isPressed, BitVec.getLsbD_or, BitVec.getLsbD_twoPow, key.isLt, decide_true,
    Bool.true_and, eq_comm]

theorem isPressed_release (k : Keypad) (key : Key) (id : Nat) :
    (k.release key).isPressed id = (k.isPressed id && !decide (id = key.val)) := by
  simp only [release, isPressed, BitVec.getLsbD_and, BitVec.getLsbD_not, BitVec.getLsbD_twoPow,
    key.isLt, decide_true, Bool.true_and, eq_comm]
  by_cases h : id < 16
  · simp [h]
  · simp [h, BitVec.getLsbD_of_ge _ _ (Nat.le_of_not_lt h)]

theorem isPressed_of_le {k : Keypad} {id : Nat} (h : 16 ≤ id) : k.isPressed id = false :=
  BitVec.getLsbD_of_ge _ _ h

end Keypad

inductive KeyError where
  | outOfRange
  deriving DecidableEq, Repr

def KeyError.message : KeyError → String
  | outOfRange => "keycode must be in range 0 <= keycode < 16"

namespace Key

def ofNat? (n : Nat) : Except KeyError Key :=
  if h : n < 16 then .ok ⟨n, h⟩ else .error .outOfRange

def name (key : Key) : String := String.ofList ['k', Hex.lowerDigit key.val]

end Key

end Chip8

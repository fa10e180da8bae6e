/-! JSON values. A number keeps how it was written, as a decimal significand and exponent and
whether it was a plain numeral, because a setting that asks for an integer takes no `1.0`. -/

namespace Chip8

structure Numeral where
  negative : Bool
  significand : Nat
  exponent : Int
  -- whether it was written with digits alone after its sign
  plain : Bool
  deriving DecidableEq, Repr

inductive Json where
  | null
  | bool (b : Bool)
  | number (n : Numeral)
  | string (s : String)
  | array (items : List Json)
  | object (fields : List (String × Json))
  deriving Repr

def Numeral.natural? (n : Numeral) : Option Nat :=
  if n.plain ∧ ¬n.negative ∧ n.significand < UInt64.size then some n.significand else none

/-- The nearest floating point number. Exponents past those bounds give infinity or zero already,
so that no power of ten grows without need. -/
def Numeral.toFloat (n : Numeral) : Float :=
  let magnitude := match n.exponent with
    | .ofNat e => Float.ofScientific n.significand false (min e 400)
    | .negSucc e =>
      Float.ofScientific n.significand true (min (e + 1) (n.significand.log2 + 400))
  if n.negative then -magnitude else magnitude

namespace Json

def natural? : Json → Option Nat
  | number n => n.natural?
  | _ => none

def values (name : String) : Json → List Json
  | object fields => (fields.filter fun field => field.1 == name).map (·.2)
  | _ => []

end Json

end Chip8

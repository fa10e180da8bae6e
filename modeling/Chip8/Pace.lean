/-! Pace: how many whole cycles fit into a time, and how long one cycle lasts. Times are floating
point milliseconds; they are read off their bits, so that a whole part is exact. -/

namespace Chip8

def maxCycles : Nat := UInt64.size - 1

/-- The whole part of a number, kept between zero and `maxCycles`. What is negative or not a number
counts as zero, and infinity as `maxCycles`. -/
def wholePart (value : Float) : Nat :=
  let bits := value.toBits.toNat
  let exponent := bits >>> 52 % (1 <<< 11)
  let fraction := bits % (1 <<< 52)
  if bits >>> 63 = 1 then 0
  else if exponent = 2047 then if fraction = 0 then maxCycles else 0
  else if exponent = 0 then 0
  else
    let significand := (1 <<< 52) + fraction
    if exponent < 1075 then significand >>> (1075 - exponent)
    else min maxCycles (significand <<< (exponent - 1075))

structure Frequency where
  hertz : UInt64
  deriving DecidableEq, Repr

namespace Frequency

/-- One cycle in whole nanoseconds, and no time at all at zero hertz. -/
def intervalNanoseconds (f : Frequency) : Nat := 1000000000 / f.hertz.toNat

def cyclesIn (f : Frequency) (milliseconds : Float) : Nat :=
  wholePart (f.hertz.toFloat * (milliseconds / 1000.0))

/-- The milliseconds that a wait for the next cycle reports: its interval, put together from whole
seconds and the nanoseconds left. -/
def waitMilliseconds (f : Frequency) : Float :=
  let seconds := (UInt64.ofNat (f.intervalNanoseconds / 1000000000)).toFloat
  let rest := (UInt64.ofNat (f.intervalNanoseconds % 1000000000)).toFloat
  (seconds + rest / 1000000000.0) * 1000.0

def frames : Frequency := ⟨60⟩

def frameMilliseconds : Float := 1000.0 / frames.hertz.toFloat

end Frequency

end Chip8

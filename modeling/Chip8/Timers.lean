import Chip8.Word

/-! The two timers, counted down once a frame. -/

namespace Chip8

structure Timers where
  delay : Byte := 0
  sound : Byte := 0
  deriving DecidableEq, Repr

namespace Timers

def countDown (b : Byte) : Byte := UInt8.ofNat (b.toNat - 1)

def tick (t : Timers) : Timers := ⟨countDown t.delay, countDown t.sound⟩

def buzzing (t : Timers) : Bool := t.sound != 0

theorem toNat_countDown (b : Byte) : (countDown b).toNat = b.toNat - 1 := by
  have h := b.toNat_lt
  simp only [countDown, UInt8.toNat_ofNat']
  omega

end Timers

end Chip8

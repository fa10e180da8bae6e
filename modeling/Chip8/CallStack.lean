import Chip8.Word

/-! The stack of return addresses, which never holds more than its capacity. Seen through
`toList` it is a list with the oldest address first: a push appends, a pop takes the last. -/

namespace Chip8

structure CallStack where
  capacity : Nat
  addresses : Array Word := #[]
  depth_le : addresses.size ≤ capacity := by simp

namespace CallStack

def empty (capacity : Nat) : CallStack := { capacity := capacity }

def toList (s : CallStack) : List Word := s.addresses.toList

def depth (s : CallStack) : Nat := s.addresses.size

def isEmpty (s : CallStack) : Bool := s.addresses.isEmpty

def push? (s : CallStack) (a : Word) : Option CallStack :=
  if h : s.addresses.size < s.capacity then
    some ⟨s.capacity, s.addresses.push a, by rw [Array.size_push]; exact h⟩
  else none

def dropLast (s : CallStack) : CallStack :=
  ⟨s.capacity, s.addresses.pop, Nat.le_trans (by simp) s.depth_le⟩

def pop? (s : CallStack) : Option (Word × CallStack) :=
  s.addresses.back?.map fun a => (a, s.dropLast)

def clear (s : CallStack) : CallStack := empty s.capacity

theorem toList_push? {s t : CallStack} {a : Word} (h : s.push? a = some t) :
    t.toList = s.toList ++ [a] ∧ t.capacity = s.capacity := by
  unfold push? at h
  split at h
  · cases h
    simp [toList]
  · cases h

theorem push?_eq_none_iff (s : CallStack) (a : Word) :
    s.push? a = none ↔ s.toList.length = s.capacity := by
  have h := s.depth_le
  unfold push? toList
  split <;> simp <;> omega

theorem toList_pop? {s t : CallStack} {a : Word} (h : s.pop? = some (a, t)) :
    s.toList = t.toList ++ [a] ∧ t.capacity = s.capacity := by
  obtain ⟨b, hb, e⟩ := Option.map_eq_some_iff.1 h
  cases e
  obtain ⟨ys, hys⟩ := Array.back?_eq_some_iff.1 hb
  simp [toList, dropLast, hys]

theorem pop?_eq_none_iff (s : CallStack) : s.pop? = none ↔ s.toList = [] := by
  simp [pop?, toList]

end CallStack

end Chip8

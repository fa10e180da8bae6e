import Mathlib.Algebra.Order.Ring.Nat

/-! Partial operations, each undefined where it has no answer: sums and products that must fit into
words, differences that must not go below zero, divisors, amounts of shifts. What is evaluated in
these terms is defined only if every operation on its way is. -/

namespace Chip8.Checked

def add (bits a b : Nat) : Option Nat := if a + b < 2 ^ bits then some (a + b) else none

def mul (bits a b : Nat) : Option Nat := if a * b < 2 ^ bits then some (a * b) else none

def sub (a b : Nat) : Option Nat := if b ≤ a then some (a - b) else none

def quot (a n : Nat) : Option Nat := if 0 < n then some (a / n) else none

def rem (a n : Nat) : Option Nat := if 0 < n then some (a % n) else none

/-- The amount of a shift must be less than the bits of the shifted word. -/
def shift (bits amount : Nat) : Option Nat := if amount < bits then some amount else none

theorem add_eq {bits a b : Nat} (h : a + b < 2 ^ bits) : add bits a b = some (a + b) := if_pos h

theorem mul_eq {bits a b : Nat} (h : a * b < 2 ^ bits) : mul bits a b = some (a * b) := if_pos h

theorem sub_eq {a b : Nat} (h : b ≤ a) : sub a b = some (a - b) := if_pos h

theorem quot_eq {a n : Nat} (h : 0 < n) : quot a n = some (a / n) := if_pos h

theorem rem_eq {a n : Nat} (h : 0 < n) : rem a n = some (a % n) := if_pos h

theorem shift_eq {bits amount : Nat} (h : amount < bits) : shift bits amount = some amount :=
  if_pos h

theorem mapM_eq {α β : Type} {f : α → Option β} {g : α → β} {xs : List α}
    (h : ∀ x ∈ xs, f x = some (g x)) : xs.mapM f = some (xs.map g) := by
  induction xs with
  | nil => rfl
  | cons x xs ih =>
    have hx := h x List.mem_cons_self
    have hxs := ih fun y hy => h y (List.mem_cons_of_mem x hy)
    simp only [List.mapM_cons, hx, hxs, List.map_cons]
    rfl

end Chip8.Checked

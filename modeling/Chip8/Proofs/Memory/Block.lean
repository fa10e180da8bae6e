import Chip8.Memory
import Mathlib.Data.Nat.ModEq

/-! What is read after a range was written: its bytes inside, and what was there before outside. A
range that reaches past the last cell goes on at the first one, so its cells are known modulo the
capacity; they are apart as long as the range is no longer than memory. -/

namespace Chip8

theorem eq_of_add_mod_eq {side a j k : Nat} (hj : j < side) (hk : k < side)
    (h : (a + j) % side = (a + k) % side) : j = k := by
  have hmod : j ≡ k [MOD side] := Nat.ModEq.add_left_cancel' a h
  exact hmod.eq_of_lt_of_lt hj hk

namespace Memory

theorem read_mod (m : Memory) (a : Nat) : m.read (a % m.capacity) = m.read a := by
  simp only [read, capacity, Nat.mod_mod]

theorem read_writeBlock_of_forall_ne {m : Memory} {a x : Nat} {bytes : List Byte}
    (h : ∀ k < bytes.length, (a + k) % m.capacity ≠ x % m.capacity) :
    (m.writeBlock a bytes).read x = m.read x := by
  induction bytes generalizing m a with
  | nil => rfl
  | cons b rest ih =>
    have hrest : ∀ k < rest.length,
        (a + 1 + k) % (m.write a b).capacity ≠ x % (m.write a b).capacity := by
      intro k hk
      rw [capacity_write, Nat.add_assoc, Nat.add_comm 1]
      exact h (k + 1) (Nat.succ_lt_succ hk)
    have hfirst : a % m.capacity ≠ x % m.capacity := h 0 (Nat.succ_pos _)
    rw [writeBlock, ih hrest, read_write, if_neg hfirst]

theorem read_writeBlock_of_outside {m : Memory} {a x : Nat} {bytes : List Byte}
    (h : a + bytes.length ≤ m.capacity) (hx : x < m.capacity) (ho : x < a ∨ a + bytes.length ≤ x) :
    (m.writeBlock a bytes).read x = m.read x := by
  refine read_writeBlock_of_forall_ne fun k hk => ?_
  rw [Nat.mod_eq_of_lt hx, Nat.mod_eq_of_lt (by omega)]
  omega

theorem read_writeBlock {m : Memory} {a i : Nat} {bytes : List Byte}
    (h : bytes.length ≤ m.capacity) (hi : i < bytes.length) :
    (m.writeBlock a bytes).read (a + i) = bytes[i] := by
  induction bytes generalizing m a i with
  | nil => exact absurd hi (Nat.not_lt_zero i)
  | cons b rest ih =>
    have hrest : rest.length ≤ (m.write a b).capacity := by
      rw [capacity_write]
      exact Nat.le_of_succ_le h
    rw [writeBlock]
    cases i with
    | zero =>
      -- the range is too short to come round to its first cell
      have hlater : ∀ k < rest.length,
          (a + 1 + k) % (m.write a b).capacity ≠ a % (m.write a b).capacity := by
        intro k hk heq
        rw [capacity_write, Nat.add_assoc, Nat.add_comm 1] at heq
        have hlt : k + 1 < m.capacity := Nat.lt_of_lt_of_le (Nat.succ_lt_succ hk) h
        exact Nat.succ_ne_zero k (eq_of_add_mod_eq hlt (Nat.zero_lt_of_lt hlt) heq)
      change ((m.write a b).writeBlock (a + 1) rest).read a = b
      rw [read_writeBlock_of_forall_ne hlater, read_write, if_pos rfl]
    | succ i =>
      have hi' : i < rest.length := Nat.lt_of_succ_lt_succ hi
      rw [← Nat.add_assoc, Nat.add_right_comm, ih hrest hi']
      rfl

theorem length_readBlock (m : Memory) (a count : Nat) : (m.readBlock a count).length = count := by
  rw [readBlock, List.length_map, List.length_range]

theorem getElem_readBlock (m : Memory) (a : Nat) {count k : Nat}
    (hk : k < (m.readBlock a count).length) : (m.readBlock a count)[k] = m.read (a + k) := by
  simp only [readBlock, List.getElem_map, List.getElem_range]

theorem readBlock_succ (m : Memory) (a count : Nat) :
    m.readBlock a (count + 1) = m.read a :: m.readBlock (a + 1) count := by
  rw [readBlock, List.range_succ_eq_map, List.map_cons, List.map_map, Nat.add_zero]
  refine congrArg (m.read a :: ·) (List.map_congr_left fun k _ => ?_)
  rw [Function.comp_apply, Nat.add_assoc, Nat.add_comm 1]

theorem write_read (m : Memory) (a : Nat) : m.write a (m.read a) = m := by
  simp only [write, read, Array.set_getElem_self]

theorem writeBlock_readBlock (m : Memory) (a count : Nat) :
    m.writeBlock a (m.readBlock a count) = m := by
  induction count generalizing a with
  | zero => rfl
  | succ count ih => rw [readBlock_succ, writeBlock, write_read, ih]

end Memory

end Chip8

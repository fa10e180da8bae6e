import Chip8.Proofs.Memory.Block
import Chip8.Screen
import Chip8.Sprite
import Mathlib.Data.List.Nodup

/-! The cells of a drawing: where they lie on the screen, and how a drawing is put together from
the cells of its rows. -/

namespace Chip8

namespace Screen

theorem place_lt {s : Screen} {x y : Nat} (hx : x < s.width) (hy : y < s.height) :
    s.place x y < s.pixels.size := by
  rw [s.size_pixels]
  calc
    x + y * s.width < s.width + y * s.width := Nat.add_lt_add_right hx _
    _ = (y + 1) * s.width := by rw [Nat.succ_mul, Nat.add_comm]
    _ ≤ s.height * s.width := Nat.mul_le_mul_right _ hy
    _ = s.width * s.height := Nat.mul_comm ..

theorem draw_append (s : Screen) (cells more : List (Nat × Nat)) :
    s.draw (cells ++ more) =
      (((s.draw cells).1.draw more).1, (s.draw cells).2 || ((s.draw cells).1.draw more).2) := by
  induction cells generalizing s with
  | nil => rfl
  | cons c rest ih =>
    obtain ⟨x, y⟩ := c
    simp only [List.cons_append, draw, ih, Bool.or_assoc]

end Screen

namespace Sprite

def rowCells (width height x y r : Nat) (row : Byte) (cs : List Nat) : List (Nat × Nat) :=
  (cs.filter fun c => row.toNat.testBit (7 - c)).map fun c => ((x + c) % width, (y + r) % height)

theorem rowCells_cons_of_set {width height x y r c : Nat} {row : Byte} {cs : List Nat}
    (h : row.toNat.testBit (7 - c) = true) :
    rowCells width height x y r row (c :: cs) =
      ((x + c) % width, (y + r) % height) :: rowCells width height x y r row cs := by
  unfold rowCells
  rw [List.filter_cons, if_pos h, List.map_cons]

theorem rowCells_cons_of_clear {width height x y r c : Nat} {row : Byte} {cs : List Nat}
    (h : ¬row.toNat.testBit (7 - c) = true) :
    rowCells width height x y r row (c :: cs) = rowCells width height x y r row cs := by
  unfold rowCells
  rw [List.filter_cons, if_neg h]

theorem zipIdx_map_range {α : Type} (f : Nat → α) (n : Nat) :
    ((List.range n).map f).zipIdx = (List.range n).map fun k => (f k, k) := by
  induction n with
  | zero => rfl
  | succ n ih => simp [List.range_succ, List.zipIdx_append, ih]

theorem cells_map_range (width height x y : Nat) (f : Nat → Byte) (n : Nat) :
    cells width height x y ((List.range n).map f) =
      (List.range n).flatMap fun r =>
        rowCells width height x y r (f r) (List.range Limits.spriteWidth) := by
  unfold cells
  rw [zipIdx_map_range, List.flatMap_map]
  rfl

theorem mem_rowCells {width height x y r : Nat} {row : Byte} {c : Nat × Nat} :
    c ∈ rowCells width height x y r row (List.range Limits.spriteWidth) ↔
      ∃ k < Limits.spriteWidth, row.toNat.testBit (7 - k) ∧
        c = ((x + k) % width, (y + r) % height) := by
  simp only [rowCells, List.mem_map, List.mem_filter, List.mem_range, and_assoc, eq_comm]

theorem mem_cells_map_range {width height x y n : Nat} {f : Nat → Byte} {c : Nat × Nat} :
    c ∈ cells width height x y ((List.range n).map f) ↔
      ∃ r < n, ∃ k < Limits.spriteWidth, (f r).toNat.testBit (7 - k) ∧
        c = ((x + k) % width, (y + r) % height) := by
  simp only [cells_map_range, List.mem_flatMap, List.mem_range, mem_rowCells]

theorem nodup_cells_map_range {width height x y n : Nat} (f : Nat → Byte)
    (hwidth : Limits.spriteWidth ≤ width) (hheight : n ≤ height) :
    (cells width height x y ((List.range n).map f)).Nodup := by
  rw [cells_map_range, List.nodup_flatMap]
  constructor
  · intro r _
    refine (List.nodup_range.filter _).map_on fun j hj k hk hcell => ?_
    have hj := List.mem_range.1 (List.mem_of_mem_filter hj)
    have hk := List.mem_range.1 (List.mem_of_mem_filter hk)
    exact eq_of_add_mod_eq (Nat.lt_of_lt_of_le hj hwidth) (Nat.lt_of_lt_of_le hk hwidth)
      (congrArg Prod.fst hcell)
  · refine List.nodup_range.pairwise_of_forall_ne fun q hq r hr hne c hcq hcr => ?_
    obtain ⟨j, -, -, rfl⟩ := mem_rowCells.1 hcq
    obtain ⟨k, -, -, hcell⟩ := mem_rowCells.1 hcr
    have hq := Nat.lt_of_lt_of_le (List.mem_range.1 hq) hheight
    have hr := Nat.lt_of_lt_of_le (List.mem_range.1 hr) hheight
    exact hne (eq_of_add_mod_eq hq hr (congrArg Prod.snd hcell))

end Sprite

end Chip8

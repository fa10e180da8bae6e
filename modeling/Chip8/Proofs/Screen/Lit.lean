import Chip8.Proofs.Screen.Cells

/-! The pixels after a drawing: each is toggled as often as a cell of the drawing falls on it. -/

namespace Chip8.Screen

theorem lit_of_dark {s : Screen} {n : Nat} (h : s.pixels = Array.replicate n false) (a b : Nat) :
    s.lit a b = false := by
  rw [lit, h, Array.getD_eq_getD_getElem?, Array.getElem?_replicate]
  split <;> rfl

theorem lit_set {s : Screen} {x y : Nat} (h : s.place x y < s.pixels.size) (on : Bool) (a b : Nat) :
    (s.set x y on).lit a b = if s.place x y = s.place a b then on else s.lit a b := by
  change (s.pixels.setIfInBounds (s.place x y) on).getD (s.place a b) false = _
  rw [Array.getD_eq_getD_getElem?, Array.getElem?_setIfInBounds, if_pos h]
  split
  · rfl
  · rw [lit, Array.getD_eq_getD_getElem?]

theorem lit_toggle {s : Screen} {x y : Nat} (h : s.place x y < s.pixels.size) (a b : Nat) :
    (s.toggle x y).lit a b = (s.lit a b ^^ decide (s.place x y = s.place a b)) := by
  rw [toggle, lit_set h]
  by_cases hp : s.place x y = s.place a b
  · have hl : s.lit x y = s.lit a b := by rw [lit, lit, hp]
    simp only [hp, if_true, decide_true, Bool.xor_true, hl]
  · simp only [if_neg hp, decide_eq_false hp, Bool.xor_false]

theorem size_pixels_toggle (s : Screen) (x y : Nat) :
    (s.toggle x y).pixels.size = s.pixels.size := by
  simp [toggle, set]

def hits (s : Screen) (cells : List (Nat × Nat)) (a b : Nat) : Nat :=
  cells.countP fun c => s.place c.1 c.2 = s.place a b

theorem hits_cons (s : Screen) (c : Nat × Nat) (rest : List (Nat × Nat)) (a b : Nat) :
    s.hits (c :: rest) a b = s.hits rest a b + if s.place c.1 c.2 = s.place a b then 1 else 0 := by
  simp only [hits, List.countP_cons, decide_eq_true_eq]

theorem lit_draw {s : Screen} {cells : List (Nat × Nat)}
    (h : ∀ c ∈ cells, s.place c.1 c.2 < s.pixels.size) (a b : Nat) :
    (s.draw cells).1.lit a b = (s.lit a b ^^ decide (s.hits cells a b % 2 = 1)) := by
  induction cells generalizing s with
  | nil => simp [draw, hits]
  | cons c rest ih =>
    have hc := h c List.mem_cons_self
    have hrest : ∀ d ∈ rest, (s.toggle c.1 c.2).place d.1 d.2 < (s.toggle c.1 c.2).pixels.size := by
      intro d hd
      rw [size_pixels_toggle]
      exact h d (List.mem_cons_of_mem c hd)
    have hcount : (s.toggle c.1 c.2).hits rest a b = s.hits rest a b := rfl
    change ((s.toggle c.1 c.2).draw rest).1.lit a b = _
    rw [ih hrest, lit_toggle hc, hcount, hits_cons, Bool.xor_assoc]
    congr 1
    by_cases hp : s.place c.1 c.2 = s.place a b
    · rw [if_pos hp, decide_eq_true hp]
      rcases Nat.mod_two_eq_zero_or_one (s.hits rest a b) with hm | hm
      · simp [hm, Nat.add_mod]
      · simp [hm, Nat.add_mod]
    · rw [if_neg hp, decide_eq_false hp, Bool.false_xor, Nat.add_zero]

theorem dirty_draw_of_dirty {s : Screen} (h : s.dirty = true) (cells : List (Nat × Nat)) :
    (s.draw cells).1.dirty = true := by
  induction cells generalizing s with
  | nil => exact h
  | cons c rest ih => exact ih (s := s.toggle c.1 c.2) rfl

theorem dirty_draw_of_mem (s : Screen) {cells : List (Nat × Nat)} {c : Nat × Nat}
    (h : c ∈ cells) : (s.draw cells).1.dirty = true := by
  cases cells with
  | nil => cases h
  | cons d rest => exact dirty_draw_of_dirty (s := s.toggle d.1 d.2) rfl rest

theorem head?_text {s : Screen} (hw : 0 < s.width) (hh : 0 < s.height) :
    s.text.toList.head? = some (if s.lit 0 0 then '#' else '.') := by
  obtain ⟨w, hw⟩ := Nat.exists_eq_succ_of_ne_zero (Nat.ne_of_gt hw)
  obtain ⟨r, hr⟩ := Nat.exists_eq_succ_of_ne_zero (Nat.ne_of_gt hh)
  rw [text, hr, List.range_succ_eq_map, List.map_cons, String.toList_join, List.flatMap_cons,
    rowText, String.toList_append, String.toList_ofList, hw, List.range_succ_eq_map, List.map_cons]
  rfl

end Chip8.Screen

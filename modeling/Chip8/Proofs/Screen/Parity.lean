import Chip8.Proofs.Screen.Lit
import Mathlib.Data.List.Nodup

/-! Drawings as an action on the pixels. Only how often a cell is drawn counts, and only whether
this is even, so the order of the cells does not matter and a drawing undoes itself. -/

namespace Chip8.Screen

def Covers (s : Screen) (cells : List (Nat × Nat)) : Prop :=
  ∀ c ∈ cells, c.1 < s.width ∧ c.2 < s.height

variable {s t : Screen} {cells more : List (Nat × Nat)}

theorem Covers.place_lt (h : s.Covers cells) : ∀ c ∈ cells, s.place c.1 c.2 < s.pixels.size :=
  fun c hc => Screen.place_lt (h c hc).1 (h c hc).2

theorem Covers.append (h : s.Covers cells) (h' : s.Covers more) : s.Covers (cells ++ more) :=
  fun c hc => (List.mem_append.1 hc).elim (h c) (h' c)

theorem Covers.perm (h : s.Covers cells) (hperm : cells.Perm more) : s.Covers more :=
  fun c hc => h c (hperm.mem_iff.2 hc)

/-- The first row goes on through all the others, so it shows every pixel. -/
theorem pixels_eq_of_lit (hsize : s.pixels.size = t.pixels.size)
    (h : ∀ i, s.lit i 0 = t.lit i 0) : s.pixels = t.pixels := by
  refine Array.ext hsize fun i hi hi' => ?_
  have hlit := h i
  simpa [lit, place, Array.getD_eq_getD_getElem?, hi, hi'] using hlit

theorem size_pixels_draw (s : Screen) (cells : List (Nat × Nat)) :
    (s.draw cells).1.pixels.size = s.pixels.size := by
  obtain ⟨hw, hh⟩ := s.width_draw cells
  rw [size_pixels, size_pixels, hw, hh]

theorem pixels_draw_congr (hwidth : s.width = t.width) (hpixels : s.pixels = t.pixels)
    (cells : List (Nat × Nat)) : (s.draw cells).1.pixels = (t.draw cells).1.pixels := by
  induction cells generalizing s t with
  | nil => exact hpixels
  | cons c rest ih =>
    refine ih (s := s.toggle c.1 c.2) (t := t.toggle c.1 c.2) hwidth ?_
    simp only [toggle, set, lit, place, hwidth, hpixels]

theorem pixels_draw_perm (h : s.Covers cells) (hperm : cells.Perm more) :
    (s.draw cells).1.pixels = (s.draw more).1.pixels := by
  have hsize : (s.draw cells).1.pixels.size = (s.draw more).1.pixels.size := by
    rw [size_pixels_draw, size_pixels_draw]
  refine pixels_eq_of_lit hsize fun i => ?_
  have hhits : s.hits cells i 0 = s.hits more i 0 := hperm.countP_eq _
  rw [lit_draw h.place_lt, lit_draw (h.perm hperm).place_lt, hhits]

theorem pixels_draw_append_perm (h : s.Covers cells) (hperm : cells.Perm more) :
    (s.draw (cells ++ more)).1.pixels = s.pixels := by
  refine pixels_eq_of_lit (size_pixels_draw s _) fun i => ?_
  have hhits : s.hits (cells ++ more) i 0 = 2 * s.hits cells i 0 := by
    have hmore : s.hits cells i 0 = s.hits more i 0 := hperm.countP_eq _
    rw [Nat.two_mul]
    nth_rewrite 2 [hmore]
    exact List.countP_append
  rw [lit_draw (h.append (h.perm hperm)).place_lt, hhits]
  simp

theorem place_inj {x y a b : Nat} (hx : x < s.width) (ha : a < s.width)
    (h : s.place x y = s.place a b) : x = a ∧ y = b := by
  have hpos : 0 < s.width := Nat.zero_lt_of_lt hx
  unfold place at h
  have hcolumn := congrArg (· % s.width) h
  have hrow := congrArg (· / s.width) h
  simp only [Nat.add_mul_mod_self_right, Nat.mod_eq_of_lt hx, Nat.mod_eq_of_lt ha] at hcolumn
  simp only [Nat.add_mul_div_right _ _ hpos, Nat.div_eq_of_lt hx, Nat.div_eq_of_lt ha,
    Nat.zero_add] at hrow
  exact ⟨hcolumn, hrow⟩

theorem nodup_places (h : s.Covers cells) (hnodup : cells.Nodup) :
    (cells.map fun c => s.place c.1 c.2).Nodup := by
  refine hnodup.map_on fun c hc d hd hplace => ?_
  obtain ⟨hcolumn, hrow⟩ := place_inj (h c hc).1 (h d hd).1 hplace
  exact Prod.ext hcolumn hrow

theorem hits_eq_one (h : s.Covers cells) (hnodup : cells.Nodup) {c : Nat × Nat} (hc : c ∈ cells) :
    s.hits cells c.1 c.2 = 1 := by
  have hcount := List.count_eq_one_of_mem (nodup_places h hnodup) (List.mem_map_of_mem hc)
  rw [List.count_eq_countP, List.countP_map] at hcount
  exact hcount

theorem lit_draw_of_dark (h : s.Covers cells) (hnodup : cells.Nodup)
    (hdark : ∀ c ∈ cells, s.lit c.1 c.2 = false) {c : Nat × Nat} (hc : c ∈ cells) :
    (s.draw cells).1.lit c.1 c.2 = true := by
  rw [lit_draw h.place_lt, hdark c hc, hits_eq_one h hnodup hc]
  rfl

theorem draw_cons_hit (s : Screen) (c : Nat × Nat) (rest : List (Nat × Nat)) :
    (s.draw (c :: rest)).2 = (s.lit c.1 c.2 || ((s.toggle c.1 c.2).draw rest).2) := rfl

theorem draw_misses (h : s.Covers cells) (hnodup : cells.Nodup)
    (hdark : ∀ c ∈ cells, s.lit c.1 c.2 = false) : (s.draw cells).2 = false := by
  induction cells generalizing s with
  | nil => rfl
  | cons c rest ih =>
    obtain ⟨hout, hnodup⟩ := List.nodup_cons.1 hnodup
    have hc := h c List.mem_cons_self
    have hrest : (s.toggle c.1 c.2).Covers rest := fun d hd => h d (List.mem_cons_of_mem c hd)
    have hlater : ((s.toggle c.1 c.2).draw rest).2 = false := by
      refine ih hrest hnodup fun d hd => ?_
      have hd' := List.mem_cons_of_mem c hd
      -- another cell has another place, so the toggle leaves it dark
      have hapart : s.place c.1 c.2 ≠ s.place d.1 d.2 := by
        intro hplace
        obtain ⟨hcolumn, hrow⟩ := place_inj hc.1 (h d hd').1 hplace
        exact hout (Prod.ext hcolumn hrow ▸ hd)
      rw [lit_toggle (place_lt hc.1 hc.2), hdark d hd', decide_eq_false hapart]
      rfl
    rw [draw_cons_hit, hdark c List.mem_cons_self, hlater, Bool.or_false]

theorem draw_again_hits (h : s.Covers cells) (hnodup : cells.Nodup)
    (hdark : ∀ c ∈ cells, s.lit c.1 c.2 = false) (hsome : cells ≠ []) :
    ((s.draw cells).1.draw cells).2 = true := by
  obtain ⟨c, rest, hcells⟩ := List.exists_cons_of_ne_nil hsome
  have hlit : (s.draw cells).1.lit c.1 c.2 = true :=
    lit_draw_of_dark h hnodup hdark (hcells ▸ List.mem_cons_self)
  generalize (s.draw cells).1 = again at hlit
  rw [hcells, draw_cons_hit, hlit, Bool.true_or]

end Chip8.Screen

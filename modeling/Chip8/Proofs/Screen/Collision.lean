import Chip8.Proofs.Screen.Parity

/-! Collisions. A drawing reads the pixels that it writes, so a cell that it covers twice is found
lit the second time if it was dark the first time. What counts is therefore which pixels were lit
before, and which are covered more than once. -/

namespace Chip8.Screen

variable {s : Screen} {cells : List (Nat × Nat)}

theorem hits_pos_iff {a b : Nat} :
    0 < s.hits cells a b ↔ ∃ c ∈ cells, s.place c.1 c.2 = s.place a b := by
  simp only [hits, List.countP_pos_iff, decide_eq_true_eq]

theorem lit_of_place_eq {x y a b : Nat} (h : s.place x y = s.place a b) :
    s.lit x y = s.lit a b := by
  rw [lit, lit, h]

/-- The pixel of the cell was lit before the drawing, or the drawing lights it before it comes back
to it. -/
def Found (s : Screen) (cells : List (Nat × Nat)) (d : Nat × Nat) : Prop :=
  s.lit d.1 d.2 = true ∨ 2 ≤ s.hits cells d.1 d.2

section

variable {c d : Nat × Nat} {rest : List (Nat × Nat)} (hc : s.place c.1 c.2 < s.pixels.size)
include hc

theorem found_toggle_iff :
    (s.toggle c.1 c.2).Found rest d ↔
      (s.lit d.1 d.2 ^^ decide (s.place c.1 c.2 = s.place d.1 d.2)) = true ∨
        2 ≤ s.hits rest d.1 d.2 := by
  rw [Found, lit_toggle hc]
  rfl

theorem Found.of_toggle (hd : d ∈ rest) (h : (s.toggle c.1 c.2).Found rest d) :
    s.Found (c :: rest) d := by
  rw [found_toggle_iff hc] at h
  unfold Found
  by_cases hplace : s.place c.1 c.2 = s.place d.1 d.2
  · have hpos : 0 < s.hits rest d.1 d.2 := hits_pos_iff.2 ⟨d, hd, rfl⟩
    rw [hits_cons, if_pos hplace]
    exact .inr (Nat.succ_le_succ hpos)
  · rw [decide_eq_false hplace, Bool.xor_false] at h
    rwa [hits_cons, if_neg hplace, Nat.add_zero]

theorem Found.exists_toggle (hdark : ¬s.lit c.1 c.2 = true) (hd : d ∈ c :: rest)
    (h : s.Found (c :: rest) d) : ∃ e ∈ rest, (s.toggle c.1 c.2).Found rest e := by
  unfold Found at h
  by_cases hplace : s.place c.1 c.2 = s.place d.1 d.2
  · rw [← lit_of_place_eq hplace, hits_cons, if_pos hplace] at h
    have hpos : 0 < s.hits rest d.1 d.2 := Nat.le_of_succ_le_succ (h.resolve_left hdark)
    obtain ⟨e, he, hsame⟩ := hits_pos_iff.1 hpos
    have hplace' : s.place c.1 c.2 = s.place e.1 e.2 := hplace.trans hsame.symm
    refine ⟨e, he, (found_toggle_iff hc).2 (.inl ?_)⟩
    rw [decide_eq_true hplace', ← lit_of_place_eq hplace', Bool.xor_true, Bool.not_eq_true']
    exact Bool.eq_false_of_not_eq_true hdark
  · have hrest : d ∈ rest := (List.mem_cons.1 hd).resolve_left fun heq => hplace (heq ▸ rfl)
    rw [hits_cons, if_neg hplace, Nat.add_zero] at h
    refine ⟨d, hrest, (found_toggle_iff hc).2 ?_⟩
    rwa [decide_eq_false hplace, Bool.xor_false]

end

theorem draw_hit_iff (h : ∀ c ∈ cells, s.place c.1 c.2 < s.pixels.size) :
    (s.draw cells).2 = true ↔ ∃ c ∈ cells, s.Found cells c := by
  induction cells generalizing s with
  | nil => simp [draw]
  | cons c rest ih =>
    have hc := h c List.mem_cons_self
    have hrest := ih (s := s.toggle c.1 c.2) fun d hd => by
      rw [size_pixels_toggle]
      exact h d (List.mem_cons_of_mem c hd)
    rw [draw_cons_hit, Bool.or_eq_true, hrest]
    constructor
    · rintro (hlit | ⟨d, hd, hfound⟩)
      · exact ⟨c, List.mem_cons_self, .inl hlit⟩
      · exact ⟨d, List.mem_cons_of_mem c hd, .of_toggle hc hd hfound⟩
    · rintro ⟨d, hd, hfound⟩
      by_cases hlit : s.lit c.1 c.2 = true
      · exact .inl hlit
      · exact .inr (hfound.exists_toggle hc hlit hd)

theorem dirty_draw_iff : (s.draw cells).1.dirty = true ↔ s.dirty = true ∨ ∃ c, c ∈ cells := by
  constructor
  · intro h
    cases cells with
    | nil => exact .inl h
    | cons c rest => exact .inr ⟨c, List.mem_cons_self⟩
  · rintro (h | ⟨c, hc⟩)
    · exact dirty_draw_of_dirty h cells
    · exact s.dirty_draw_of_mem hc

end Chip8.Screen

import Chip8.Proofs.Checked.Parts
import Chip8.Proofs.Screen.Cells

/-! Drawing in partial operations: row by row and column by column, as sprites are stored. A set bit
names a pixel by two sums that are reduced modulo the sides of the screen. -/

namespace Chip8.Checked

def place (s : Screen) (x y : Nat) : Option Nat := do
  let row ← mul 64 y s.width
  add 64 x row

def pixel (s : Screen) (x y : Nat) : Option Bool := do
  let i ← place s x y
  s.pixels[i]?

def setPixel (s : Screen) (x y : Nat) (on : Bool) : Option Screen := do
  let i ← place s x y
  if h : i < s.pixels.size then
    some { s with
      pixels := s.pixels.set i on h
      dirty := true
      size_pixels := by simpa using s.size_pixels }
  else none

abbrev Canvas := Screen × Bool

def togglePixel (canvas : Canvas) (x y : Nat) : Option Canvas := do
  let old ← pixel canvas.1 x y
  let s ← setPixel canvas.1 x y !old
  some (s, canvas.2 || old)

def drawRow (x y r : Nat) (row : Byte) : List Nat → Canvas → Option Canvas
  | [], canvas => some canvas
  | c :: rest, canvas => do
    let left ← sub 7 c
    let amount ← shift 8 left
    if row.toNat.testBit amount then
      let px ← rem (← add 64 x c) canvas.1.width
      let py ← rem (← add 64 y r) canvas.1.height
      let canvas ← togglePixel canvas px py
      drawRow x y r row rest canvas
    else drawRow x y r row rest canvas

def drawRows (m : Memory) (a x y : Nat) : List Nat → Canvas → Option Canvas
  | [], canvas => some canvas
  | r :: rest, canvas => do
    let row ← read m (← add 64 a r)
    let canvas ← drawRow x y r row (List.range Limits.spriteWidth) canvas
    drawRows m a x y rest canvas

structure Bounded (s : Screen) : Prop where
  width_pos : 0 < s.width
  width_le : s.width ≤ Limits.screenSide
  height_pos : 0 < s.height
  height_le : s.height ≤ Limits.screenSide

theorem Bounded.draw {s : Screen} (h : Bounded s) (cells : List (Nat × Nat)) :
    Bounded (s.draw cells).1 := by
  obtain ⟨hw, hh⟩ := s.width_draw cells
  exact ⟨hw ▸ h.width_pos, hw ▸ h.width_le, hh ▸ h.height_pos, hh ▸ h.height_le⟩

theorem place_eq {s : Screen} {x y : Nat} (h : Bounded s) (hx : x < s.width) (hy : y < s.height) :
    place s x y = some (s.place x y) := by
  have hw : s.width ≤ 256 := h.width_le
  have hh : s.height ≤ 256 := h.height_le
  have hrow : y * s.width ≤ 256 * 256 := Nat.mul_le_mul (by omega) hw
  have hm : y * s.width < 2 ^ 64 := by omega
  have ha : x + y * s.width < 2 ^ 64 := by omega
  simp only [place, mul_eq hm, add_eq ha, Option.bind_eq_bind, Option.bind_some, Screen.place]

theorem togglePixel_eq {s : Screen} {x y : Nat} (hit : Bool) (h : Bounded s) (hx : x < s.width)
    (hy : y < s.height) : togglePixel (s, hit) x y = some (s.toggle x y, hit || s.lit x y) := by
  have hp := Screen.place_lt hx hy
  have hlit : s.pixels[s.place x y] = s.lit x y := by
    simp only [Screen.lit, Array.getD_eq_getD_getElem?, Array.getElem?_eq_getElem hp,
      Option.getD_some]
  simp only [togglePixel, pixel, setPixel, place_eq h hx hy, Option.bind_eq_bind, Option.bind_some,
    Array.getElem?_eq_getElem hp, dif_pos hp, hlit, Screen.toggle, Screen.set,
    Array.setIfInBounds]

theorem drawRow_eq {s : Screen} {x y r : Nat} {row : Byte} {cs : List Nat} (hit : Bool)
    (h : Bounded s) (hx : x < 256) (hy : y < 256) (hr : r < 16) (hcs : ∀ c ∈ cs, c < 8) :
    drawRow x y r row cs (s, hit) =
      some ((s.draw (Sprite.rowCells s.width s.height x y r row cs)).1,
        hit || (s.draw (Sprite.rowCells s.width s.height x y r row cs)).2) := by
  induction cs generalizing s hit with
  | nil => simp [drawRow, Sprite.rowCells, Screen.draw]
  | cons c rest ih =>
    have hc := hcs c List.mem_cons_self
    have hrest : ∀ d ∈ rest, d < 8 := fun d hd => hcs d (List.mem_cons_of_mem c hd)
    have hleft : c ≤ 7 := by omega
    have hamount : 7 - c < 8 := by omega
    have hxc : x + c < 2 ^ 64 := by omega
    have hyr : y + r < 2 ^ 64 := by omega
    simp only [drawRow, sub_eq hleft, shift_eq hamount, Option.bind_eq_bind, Option.bind_some]
    by_cases hbit : row.toNat.testBit (7 - c) = true
    · have ht := togglePixel_eq hit h (Nat.mod_lt (x + c) h.width_pos)
        (Nat.mod_lt (y + r) h.height_pos)
      have hb : Bounded (s.toggle ((x + c) % s.width) ((y + r) % s.height)) :=
        ⟨h.width_pos, h.width_le, h.height_pos, h.height_le⟩
      simp only [if_pos hbit, add_eq hxc, add_eq hyr, rem_eq h.width_pos, rem_eq h.height_pos,
        Option.bind_some, ht]
      rw [ih _ hb hrest, Sprite.rowCells_cons_of_set hbit]
      simp only [Screen.draw, Screen.toggle, Screen.set, Bool.or_assoc]
    · rw [if_neg hbit, ih _ h hrest, Sprite.rowCells_cons_of_clear hbit]

theorem drawRows_eq {m : Memory} {s : Screen} {a x y : Nat} {rs : List Nat} (hit : Bool)
    (h : Bounded s) (ha : a < 65536) (hx : x < 256) (hy : y < 256) (hrs : ∀ r ∈ rs, r < 16) :
    let cells := rs.flatMap fun r =>
      Sprite.rowCells s.width s.height x y r (m.read (a + r)) (List.range Limits.spriteWidth)
    drawRows m a x y rs (s, hit) = some ((s.draw cells).1, hit || (s.draw cells).2) := by
  dsimp only
  induction rs generalizing s hit with
  | nil => simp [drawRows, Screen.draw]
  | cons r rest ih =>
    have hr := hrs r List.mem_cons_self
    have hrest : ∀ d ∈ rest, d < 16 := fun d hd => hrs d (List.mem_cons_of_mem r hd)
    have har : a + r < 2 ^ 64 := by omega
    have hcols : ∀ c ∈ List.range Limits.spriteWidth, c < 8 := fun c hc => List.mem_range.1 hc
    obtain ⟨hw, hh⟩ := s.width_draw (Sprite.rowCells s.width s.height x y r (m.read (a + r))
      (List.range Limits.spriteWidth))
    simp only [drawRows, add_eq har, read_eq, Option.bind_eq_bind, Option.bind_some,
      drawRow_eq hit h hx hy hr hcols]
    rw [ih _ (h.draw _) hrest, hw, hh]
    simp only [List.flatMap_cons, Screen.draw_append, Bool.or_assoc]

end Chip8.Checked

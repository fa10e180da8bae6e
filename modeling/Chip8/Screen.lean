/-! The screen: a grid of pixels stored row by row, and a mark that it was drawn to. Sprites are
drawn by toggling cells, so a drawing is a list of cells and its order does not matter. -/

namespace Chip8

structure Screen where
  width : Nat
  height : Nat
  pixels : Array Bool := Array.replicate (width * height) false
  dirty : Bool := false
  size_pixels : pixels.size = width * height := by simp

namespace Screen

def dark (width height : Nat) : Screen := { width := width, height := height }

/-- The place of column `x` of row `y`. A column past the width falls into the next row. -/
def place (s : Screen) (x y : Nat) : Nat := x + y * s.width

/-- Whether the pixel is lit; pixels off the screen are dark. -/
def lit (s : Screen) (x y : Nat) : Bool := s.pixels.getD (s.place x y) false

/-- Setting a pixel off the screen changes nothing but the mark. -/
def set (s : Screen) (x y : Nat) (on : Bool) : Screen :=
  { s with
    pixels := s.pixels.setIfInBounds (s.place x y) on
    dirty := true
    size_pixels := by simpa using s.size_pixels }

def toggle (s : Screen) (x y : Nat) : Screen :=
  let on := s.lit x y
  s.set x y !on

def mark (s : Screen) : Screen := { s with dirty := true }

def unmark (s : Screen) : Screen := { s with dirty := false }

def clear (s : Screen) : Screen := dark s.width s.height

def draw (s : Screen) : List (Nat × Nat) → Screen × Bool
  | [] => (s, false)
  | (x, y) :: rest =>
    let hit := s.lit x y
    let (drawn, later) := (s.toggle x y).draw rest
    (drawn, hit || later)

def rowText (s : Screen) (y : Nat) : String :=
  String.ofList ((List.range s.width).map fun x => if s.lit x y then '#' else '.')

def text (s : Screen) : String :=
  String.join ((List.range s.height).map fun y => s.rowText y ++ "\n")

theorem width_draw (s : Screen) (cells : List (Nat × Nat)) :
    (s.draw cells).1.width = s.width ∧ (s.draw cells).1.height = s.height := by
  induction cells generalizing s with
  | nil => exact ⟨rfl, rfl⟩
  | cons c rest ih => exact ih _

end Screen

end Chip8

import Chip8.Limits
import Chip8.Word

/-! Sprites: rows of eight pixels, a byte each, the leftmost pixel in the highest bit. -/

namespace Chip8.Sprite

def columns (row : Byte) : List Nat :=
  (List.range Limits.spriteWidth).filter fun c => row.toNat.testBit (7 - c)

/-- The cells that a sprite covers with its corner at `(x, y)`, on a screen of the given sides.
What passes one side comes back in at the other. -/
def cells (width height x y : Nat) (rows : List Byte) : List (Nat × Nat) :=
  rows.zipIdx.flatMap fun (row, r) =>
    (columns row).map fun c => ((x + c) % width, (y + r) % height)

end Chip8.Sprite

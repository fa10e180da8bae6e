/-! The points on which historical interpreters disagree. -/

namespace Chip8

structure Dialect where
  /-- The shifts `8XY6` and `8XYE` shift `VY` into `VX`, instead of `VX` in place. -/
  shiftReadsY : Bool := false
  /-- The jump `BNNN` adds `VX`, with `X` the high digit of its address, instead of `V0`. -/
  jumpAddsX : Bool := false
  /-- The block moves `FX55` and `FX65` leave `I` behind the last cell they touched. -/
  blockMovesIndex : Bool := false
  /-- The sum `FX1E` reports in `VF` that `I` passed the end of memory. -/
  indexFlagsOverflow : Bool := false
  deriving DecidableEq, Repr

end Chip8

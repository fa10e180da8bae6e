/-! The sizes that the instruction set fixes, and the bounds that a machine keeps to. -/

namespace Chip8

namespace Limits

def memorySize : Nat := 65536

def stackSize : Nat := 256

def screenSide : Nat := 256

def glyphHeight : Nat := 5

def glyphCount : Nat := 16

def fontLength : Nat := glyphHeight * glyphCount

def keyCount : Nat := 16

def spriteWidth : Nat := 8

end Limits

end Chip8

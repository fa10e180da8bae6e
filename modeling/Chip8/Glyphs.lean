import Chip8.Error
import Chip8.Text.Blank

/-! The fonts: glyphs of the digits `0` to `F`, five rows each, in the order of the digits. -/

namespace Chip8

inductive Font where
  | chip48
  | vip
  deriving DecidableEq, Repr

namespace Font

def name : Font → String
  | chip48 => "chip48"
  | vip => "vip"

/-- Blanks around a name and the case of its ASCII letters do not matter. -/
def canonicalName (s : String) : String := (trimBlanks s).map Char.toLower

def parse (s : String) : Except ConfigError Font :=
  let name := canonicalName s
  if name ∈ ["chip48", "chip-48", "schip"] then .ok chip48
  else if name ∈ ["vip", "cosmac", "cosmacvip", "cosmac-vip"] then .ok vip
  else .error (.fontName name)

theorem canonicalName_name (f : Font) : canonicalName f.name = f.name := by
  cases f <;> decide +kernel

theorem parse_name (f : Font) : parse f.name = .ok f := by
  cases f <;> simp [parse, canonicalName_name] <;> simp [name]

end Font

namespace Glyphs

def chip48 : Array Byte := #[
  0xF0, 0x90, 0x90, 0x90, 0xF0,
  0x20, 0x60, 0x20, 0x20, 0x70,
  0xF0, 0x10, 0xF0, 0x80, 0xF0,
  0xF0, 0x10, 0xF0, 0x10, 0xF0,
  0x90, 0x90, 0xF0, 0x10, 0x10,
  0xF0, 0x80, 0xF0, 0x10, 0xF0,
  0xF0, 0x80, 0xF0, 0x90, 0xF0,
  0xF0, 0x10, 0x20, 0x40, 0x40,
  0xF0, 0x90, 0xF0, 0x90, 0xF0,
  0xF0, 0x90, 0xF0, 0x10, 0xF0,
  0xF0, 0x90, 0xF0, 0x90, 0x90,
  0xE0, 0x90, 0xE0, 0x90, 0xE0,
  0xF0, 0x80, 0x80, 0x80, 0xF0,
  0xE0, 0x90, 0x90, 0x90, 0xE0,
  0xF0, 0x80, 0xF0, 0x80, 0xF0,
  0xF0, 0x80, 0xF0, 0x80, 0x80]

def vip : Array Byte := #[
  0xF0, 0x90, 0x90, 0x90, 0xF0,
  0x60, 0x20, 0x20, 0x20, 0x70,
  0xF0, 0x10, 0xF0, 0x80, 0xF0,
  0xF0, 0x10, 0xF0, 0x10, 0xF0,
  0xA0, 0xA0, 0xF0, 0x20, 0x20,
  0xF0, 0x80, 0xF0, 0x10, 0xF0,
  0xF0, 0x80, 0xF0, 0x90, 0xF0,
  0xF0, 0x10, 0x10, 0x10, 0x10,
  0xF0, 0x90, 0xF0, 0x90, 0xF0,
  0xF0, 0x90, 0xF0, 0x10, 0xF0,
  0xF0, 0x90, 0xF0, 0x90, 0x90,
  0xF0, 0x50, 0x70, 0x50, 0xF0,
  0xF0, 0x80, 0x80, 0x80, 0xF0,
  0xF0, 0x50, 0x50, 0x50, 0xF0,
  0xF0, 0x80, 0xF0, 0x80, 0xF0,
  0xF0, 0x80, 0xF0, 0x80, 0x80]

def builtin : Font → Array Byte
  | .chip48 => chip48
  | .vip => vip

theorem size_builtin (f : Font) : (builtin f).size = Limits.fontLength := by
  cases f <;> rfl

end Glyphs

abbrev GlyphSource := Font → Except Error (Array Byte)

def GlyphSource.builtin : GlyphSource := fun f => .ok (Glyphs.builtin f)

end Chip8

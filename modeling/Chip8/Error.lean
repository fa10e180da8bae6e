import Chip8.Assembly.Basic
import Chip8.Limits
import Chip8.Text.Trace

/-! What can go wrong, by cause. A fault stops a running program; the other errors keep a program
from being loaded or run. Each error has one wording for users, `message`, and one for diagnostics,
`trace`, which shows its parts. -/

namespace Chip8

/-- The address in a fault is that of the instruction that raised it. -/
inductive Fault where
  | unsupported (word address : Word)
  | stackOverflow (address : Word) (capacity : Nat)
  | stackUnderflow (address : Word)
  deriving DecidableEq, Repr

namespace Fault

def text : Fault → String
  | unsupported word address => s!"unsupported opcode {word.text} at 0x{address.text}"
  | stackOverflow address capacity =>
    s!"call stack overflow at 0x{address.text}, cannot nest deeper than {capacity}"
  | stackUnderflow address =>
    s!"call stack underflow, return at 0x{address.text} without call"

end Fault

inductive Region where
  | font | program
  deriving DecidableEq, Repr

def Region.name : Region → String
  | font => "fontset"
  | program => "program"

inductive Side where
  | width | height
  deriving DecidableEq, Repr

inductive ConfigError where
  | memorySize (size : Nat)
  | programStart (start size : Nat)
  | fontStart (start size : Nat)
  | stackSize (size : Nat)
  | screenSide (side : Side) (width height : Nat)
  | overlap (fontStart fontStop programStart programStop : Nat)
  | fontName (name : String)
  | fontLength (length : Nat)
  /-- The reason of a host that supplies fonts of its own. -/
  | fontRefused (reason : String)
  deriving DecidableEq, Repr

namespace ConfigError

def field : ConfigError → String
  | memorySize _ => "memory_size"
  | programStart _ _ => "program_start"
  | fontStart _ _ | overlap _ _ _ _ => "font_start"
  | stackSize _ => "stack_size"
  | screenSide .width _ _ => "display_width"
  | screenSide .height _ _ => "display_height"
  | fontName _ | fontLength _ | fontRefused _ => "font"

def outside (start size : Nat) : String :=
  s!"0x{Hex.padded 4 start} is outside of {size} bytes of memory"

def range (start stop : Nat) : String := s!"0x{Hex.padded 4 start}..0x{Hex.padded 4 stop}"

def reason : ConfigError → String
  | memorySize size => s!"must be between 1 and {Limits.memorySize} bytes, got {size}"
  | programStart start size | fontStart start size => outside start size
  | stackSize size =>
    s!"call stack must have between 1 and {Limits.stackSize} levels, got {size}"
  | screenSide _ width height =>
    s!"display of {width}x{height} must be between 1 and {Limits.screenSide} pixels on each side"
  | overlap font fontStop program programStop =>
    s!"fontset at {range font fontStop} overlaps program at {range program programStop}"
  | fontName name => s!"unsupported font variant \"{name}\""
  | fontLength length => s!"fontset data must be {Limits.fontLength} bytes, got {length}"
  | fontRefused reason => reason

end ConfigError

inductive Error where
  | fault (fault : Fault)
  | outOfMemory (region : Region) (offset length capacity : Nat)
  | config (cause : ConfigError)
  | notLoaded
  | io (reason : String)
  | format
  deriving DecidableEq, Repr

namespace Error

def formatText : String := "an error occurred when formatting an argument"

def message : Error → String
  | fault f => s!"runtime error: {f.text}"
  | outOfMemory region offset length capacity =>
    s!"{region.name} of {length} bytes at 0x{Hex.padded 4 offset} does not fit in {capacity} bytes of VM memory"
  | config cause => s!"invalid configuration `{cause.field}`: {cause.reason}"
  | notLoaded => "no program loaded"
  | io reason => reason
  | format => formatText

def fault? : Error → Option Fault
  | fault f => some f
  | _ => none

def source? : Error → Option String
  | io reason => some reason
  | format => some formatText
  | _ => none

end Error

/-! The wording for diagnostics. -/

namespace Fault

def trace : Fault → String
  | unsupported word address =>
    Trace.record "UnsupportedOpcode"
      [("instr", toString word.toNat), ("addr", toString address.toNat)]
  | stackOverflow address capacity =>
    Trace.record "StackOverflow"
      [("addr", toString address.toNat), ("capacity", toString capacity)]
  | stackUnderflow address => Trace.record "StackUnderflow" [("addr", toString address.toNat)]

end Fault

def Region.trace : Region → String
  | font => "Font"
  | program => "Program"

def Error.trace : Error → String
  | fault f => s!"Runtime({f.trace})"
  | outOfMemory region offset length capacity =>
    Trace.record "OutOfMemory" [("region", region.trace), ("offset", toString offset),
      ("len", toString length), ("capacity", toString capacity)]
  | config cause =>
    Trace.record "InvalidConfig"
      [("field", Trace.quoted cause.field), ("reason", Trace.quoted cause.reason)]
  | notLoaded => "NotLoaded"
  | io reason => s!"Io({Trace.quoted reason})"
  | format => "Fmt(Error)"

end Chip8

/-! The commands of the command line. -/

namespace Chip8

inductive Command where
  | run (program : String) (settings? : Option String)
  | disassemble (program : String) (settings? : Option String)
  deriving DecidableEq, Repr

namespace Command

/-- Arguments behind the settings are passed over. -/
def parse? : List String → Option Command
  | "run" :: program :: rest => some (run program rest.head?)
  | "dis" :: program :: rest => some (disassemble program rest.head?)
  | _ => none

def files : Command → List String
  | run program settings? | disassemble program settings? => settings?.toList ++ [program]

def version : String := "0.4.0"

def usage : String := "\n".intercalate [
  s!"Chip8 v{version}",
  "",
  "usage: chip8 CMD FILE [CONFIG]",
  "",
  "commands:",
  "    run     Run the target ROM file, with an optional YAML configuration",
  "    dis     Disassemble the target ROM into readable assembly, with the",
  "            quirks of an optional YAML configuration",
  "",
  "examples:",
  "    chip8 run breakout.rom",
  "    chip8 run breakout.rom breakout.yaml",
  "    chip8 dis breakout.rom",
  "    chip8 dis breakout.rom breakout.yaml",
  "",
  ""]

def usageStatus : UInt32 := 64

end Command

end Chip8

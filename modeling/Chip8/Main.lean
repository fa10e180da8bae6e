import Chip8.Command.Report

/-! The command line: reads the files that a command names, prints its report, and lasts as long as
its frames do. -/

namespace Chip8

def readFile? (name : String) : IO (Option ByteArray) := do
  try
    return some (← IO.FS.readBinFile name)
  catch _ =>
    return none

def drawEntropy : IO Random.Key := do
  let bytes ← IO.getRandomBytes 32
  return Vector.ofFn fun k =>
    (bytes.extract (4 * k.val) (4 * k.val + 4)).foldl (fun w b => (w <<< 8) ||| b.toUInt32) 0

def runCommand (reader : SettingsReader) (command : Command) : IO UInt32 := do
  let contents ← command.files.mapM fun name => return (name, ← readFile? name)
  let files : Files := fun name => (contents.lookup name).join
  let report := command.report reader files (← drawEntropy)
  if command.throttled reader files then
    IO.sleep (UInt32.ofNat (Command.playingTime report))
  IO.print report.output
  if let some failure := report.failure? then
    IO.eprintln s!"Error: {failure.trace}"
  return report.status

/-- The program of the command line, for a reader of settings. -/
def runArguments (reader : SettingsReader) (args : List String) : IO UInt32 := do
  match Command.parse? args with
  | some command => runCommand reader command
  | none =>
    IO.print Command.usage
    return Command.usageStatus

end Chip8

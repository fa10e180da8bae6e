import Chip8.Command.Basic
import Chip8.Command.Settings
import Chip8.Listing
import Chip8.Vm.Text

/-! What commands report: the text they print and what went wrong. A command is a function of the
files it reads; the settings come first, so a fault of theirs hides one of the program. -/

namespace Chip8

abbrev Files := String → Option ByteArray

inductive Failure where
  | unreadable (file : String)
  | notText (file : String)
  -- what the reader of settings says of them
  | settings (message : String)
  | error (cause : Error)
  deriving DecidableEq, Repr

def Failure.trace : Failure → String
  | unreadable file => s!"cannot read {file}"
  | notText file => s!"no text in {file}"
  | settings message => message
  | error cause => cause.trace

structure Report where
  output : String := ""
  failure? : Option Failure := none
  -- the number of frames that were started
  frames : Nat := 0
  deriving DecidableEq, Repr

namespace Report

def ofFailure (failure : Failure) : Report := { failure? := some failure }

def status (r : Report) : UInt32 := if r.failure?.isSome then 1 else 0

end Report

namespace Files

def program (files : Files) (name : String) : Except Failure (Array Byte) :=
  match files name with
  | some bytes => .ok bytes.data
  | none => .error (.unreadable name)

/-- Without a file, the settings are the defaults. -/
def settings (files : Files) (reader : SettingsReader) :
    Option String → Except Failure RunSettings
  | none => .ok {}
  | some name =>
    match files name with
    | none => .error (.unreadable name)
    | some bytes =>
      match String.fromUTF8? bytes with
      | none => .error (.notText name)
      | some text => (reader text).mapError .settings

end Files

namespace Vm

/-- Runs up to `count` frames and stops behind the first that fails. It adds the frames that were
started to those that were before. -/
def playFrom (milliseconds : Float) (started : Nat) : Nat → Vm → Vm × Option Error × Nat
  | 0, vm => (vm, none, started)
  | count + 1, vm =>
    match vm.update milliseconds with
    | (vm, .ok ()) => playFrom milliseconds (started + 1) count vm
    | (vm, .error e) => (vm, some e, started + 1)

def play (vm : Vm) (milliseconds : Float) (count : Nat) : Vm × Option Error × Nat :=
  playFrom milliseconds 0 count vm

end Vm

namespace Command

/-- Loads a program, holds the keys down and runs the frames. The screen is printed even if a frame
fails. -/
def runReport (settings : RunSettings) (program : Array Byte) (entropy : Random.Key) : Report :=
  match (Vm.new settings.machine).load program entropy with
  | (_, .error e) => .ofFailure (.error e)
  | (vm, .ok ()) =>
    let vm := settings.keys.foldl Vm.pressKey vm
    let (vm, error?, started) := vm.play settings.frameMilliseconds settings.frames
    { output := vm.screenText ++ "\n"
      failure? := error?.map .error
      frames := started }

def listingReport (settings : RunSettings) (program : Array Byte) : Report :=
  let c := settings.machine
  { output := listingText c.dialect c.programStart program }

def withFiles (reader : SettingsReader) (files : Files) (settings? : Option String)
    (program : String) (work : RunSettings → Array Byte → Report) : Report :=
  match files.settings reader settings? with
  | .error failure => .ofFailure failure
  | .ok settings =>
    match files.program program with
    | .error failure => .ofFailure failure
    | .ok bytes => work settings bytes

def report (command : Command) (reader : SettingsReader) (files : Files) (entropy : Random.Key) :
    Report :=
  match command with
  | run program settings? =>
    withFiles reader files settings? program fun settings bytes =>
      runReport settings bytes entropy
  | disassemble program settings? => withFiles reader files settings? program listingReport

def throttled (command : Command) (reader : SettingsReader) (files : Files) : Bool :=
  match command with
  | run _ settings? =>
    match files.settings reader settings? with
    | .ok settings => !settings.unthrottled
    | .error _ => false
  | disassemble _ _ => false

def playingTime (report : Report) : Nat :=
  report.frames * Frequency.frames.intervalNanoseconds / 1000000

end Command

end Chip8

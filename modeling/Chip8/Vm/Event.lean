import Chip8.Vm.Basic

/-! The log. What an operation reports is a function of the virtual machine before it, so that the
operations themselves carry no log. -/

namespace Chip8

inductive Event where
  | loaded (length : Nat) (config : Config)
  | dialect (dialect : Dialect)
  | frequency (old new : Frequency)
  | executed (address word : Word) (instruction : Instruction) (dialect : Dialect)
  | trapped (fault : Fault)
  deriving DecidableEq, Repr

def Dialect.trace (d : Dialect) : String :=
  Trace.record "Quirks"
    [("shift_uses_vy", toString d.shiftReadsY), ("jump_offset_uses_vx", toString d.jumpAddsX),
      ("load_store_increments_index", toString d.blockMovesIndex),
      ("index_overflow_sets_vf", toString d.indexFlagsOverflow)]

namespace Event

def level : Event → String
  | loaded _ _ => "INFO"
  | dialect _ | frequency _ _ => "DEBUG"
  | executed _ _ _ _ => "TRACE"
  | trapped _ => "ERROR"

def message : Event → String
  | loaded length c =>
    s!"loaded {length} byte program at 0x{Hex.padded 4 c.programStart}, {c.font.name} font at 0x{Hex.padded 4 c.fontStart}, {c.memorySize} bytes of memory"
  | dialect d => s!"quirks: {d.trace}"
  | frequency old new => s!"clock frequency {old.hertz.toNat} Hz -> {new.hertz.toNat} Hz"
  | executed address word i d => s!"{address.text}: {word.text} {i.mnemonic d}"
  | trapped f => s!"{f.text}, machine is trapped"

def text (e : Event) : String := s!"{e.level} {e.message}"

end Event

namespace Machine

def stepEvents (m : Machine) (keys : Keypad) : List Event :=
  let executed := match Instruction.ofWord? m.word with
    | some i => [Event.executed m.pc m.word i m.dialect]
    | none => []
  match (m.step keys).2 with
  | .ok _ => executed
  | .error f => executed ++ [.trapped f]

end Machine

namespace Vm

def loadEvents (vm : Vm) (program : Array Byte) (entropy : Random.Key) : List Event :=
  match (vm.load program entropy).2 with
  | .ok () => [.loaded program.size vm.config, .dialect vm.config.dialect]
  | .error _ => []

def stepEvents (vm : Vm) : List Event :=
  match vm.ready with
  | .ok m => m.stepEvents vm.keys
  | .error _ => []

def runEventsFrom (events : Array Event) : Nat → Vm → Array Event
  | 0, _ => events
  | count + 1, vm =>
    let events := events ++ vm.stepEvents
    match vm.step with
    | (vm, .ok _) => runEventsFrom events count vm
    | (_, .error _) => events

def runEvents (vm : Vm) (count : Nat) : List Event := (runEventsFrom #[] count vm).toList

def updateEvents (vm : Vm) (milliseconds : Float) : List Event :=
  match vm.ready with
  | .ok _ => vm.unmark.runEvents (vm.frameSteps milliseconds)
  | .error _ => []

def setFrequencyEvents (vm : Vm) (f : Frequency) : List Event := [.frequency vm.frequency f]

end Vm

end Chip8

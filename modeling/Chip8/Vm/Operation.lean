import Chip8.Vm.Event

/-! The operations of a host, as values. What a host does to a virtual machine is a list of them,
and every state that it can bring about is `Vm.after` such a list. -/

namespace Chip8

inductive Operation where
  | load (program : Array Byte) (entropy : Random.Key)
  | step
  | run (count : Nat)
  | update (milliseconds : Float)
  | setFrequency (f : Frequency)
  | setKey (key : Key) (down : Bool)
  | clearKeys

inductive Answer where
  | done
  | flow (flow : Flow)
  | failed (cause : Error)
  deriving DecidableEq, Repr

namespace Answer

def ofUnit : Except Error Unit → Answer
  | .ok () => done
  | .error e => failed e

def ofFlow : Except Error Flow → Answer
  | .ok f => flow f
  | .error e => failed e

end Answer

namespace Operation

def perform (vm : Vm) : Operation → Vm × Answer
  | load program entropy => (vm.load program entropy).map id Answer.ofUnit
  | step => vm.step.map id Answer.ofFlow
  | run count => (vm.run count).map id Answer.ofFlow
  | update milliseconds => (vm.update milliseconds).map id Answer.ofUnit
  | setFrequency f => (vm.setFrequency f, .done)
  | setKey key down => (vm.setKey key down, .done)
  | clearKeys => (vm.clearKeys, .done)

def events (vm : Vm) : Operation → List Event
  | load program entropy => vm.loadEvents program entropy
  | step => vm.stepEvents
  | run count => vm.runEvents count
  | update milliseconds => vm.updateEvents milliseconds
  | setFrequency f => vm.setFrequencyEvents f
  | setKey _ _ | clearKeys => []

end Operation

def Vm.after (vm : Vm) (operations : List Operation) : Vm :=
  operations.foldl (fun vm operation => (operation.perform vm).1) vm

end Chip8

import Chip8.Vm.Basic

/-! What the virtual machine shows of itself as text. -/

namespace Chip8

namespace Memory

def wordLines (m : Memory) (start count : Nat) : List String :=
  (List.range ((min (start + count) m.capacity - start + 1) / 2)).map fun i =>
    let a := start + 2 * i
    s!"{Hex.padded 4 a}: {(m.fetch a).text}"

end Memory

namespace Keypad

def text (k : Keypad) : String :=
  if k.any then String.join ("keys:" :: k.pressed.map fun key => " " ++ Key.name key) else ""

end Keypad

namespace Vm

def ramText (vm : Vm) (count : Nat) : String :=
  match vm.machine? with
  | some m =>
    String.join ((m.memory.wordLines m.memory.programStart count).map fun line => line ++ "\n")
  | none => ""

def screenText (vm : Vm) : String :=
  match vm.machine? with
  | some m => m.screen.text
  | none => ""

def keysText (vm : Vm) : String := vm.keys.text

end Vm

end Chip8

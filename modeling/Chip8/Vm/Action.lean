import Chip8.Vm.Operation

/-! Operations while the keys change. The keypad can be held elsewhere too, so keys go up and down
at any time, also between two steps of one operation. A step looks at the keys only once, so all
that matters is what they become before each step. -/

namespace Chip8

/-- An operation, and what happens to the keys before each of its steps. -/
structure Action where
  operation : Operation
  changes : Nat → Keypad → Keypad

def Action.plain (o : Operation) : Action := ⟨o, fun _ keys => keys⟩

def Action.perform (vm : Vm) : Action → Vm × Answer
  | ⟨.step, changes⟩ => (vm.changeKeys (changes 0)).step.map id Answer.ofFlow
  | ⟨.run count, changes⟩ => (Vm.runFromAmid changes .ok count vm).map id Answer.ofFlow
  | ⟨.update milliseconds, changes⟩ => (vm.updateAmid changes milliseconds).map id Answer.ofUnit
  | ⟨o, _⟩ => o.perform vm

namespace Vm

def undergo (vm : Vm) : List Action → Vm × List Answer
  | [] => (vm, [])
  | a :: rest =>
    let (next, answer) := a.perform vm
    let (last, answers) := next.undergo rest
    (last, answer :: answers)

end Vm

theorem Action.perform_plain (vm : Vm) (o : Operation) : (plain o).perform vm = o.perform vm := by
  cases o <;> rfl

theorem Vm.undergo_cons (vm : Vm) (a : Action) (rest : List Action) :
    vm.undergo (a :: rest) =
      (((a.perform vm).1.undergo rest).1, (a.perform vm).2 :: ((a.perform vm).1.undergo rest).2) :=
  rfl

theorem Vm.undergo_plain (vm : Vm) (operations : List Operation) :
    (vm.undergo (operations.map Action.plain)).1 = vm.after operations := by
  induction operations generalizing vm with
  | nil => rfl
  | cons o rest ih =>
    rw [List.map_cons, undergo_cons, Action.perform_plain]
    exact ih (o.perform vm).1

end Chip8

import Chip8.Vm.Action

/-! What every operation keeps. A run is made of steps and an update of a run between two touches
of the machine, so a property is kept by all operations as soon as the few parts keep it. -/

namespace Chip8.Vm

theorem ready_eq_ok_iff {vm : Vm} {m : Machine} :
    vm.ready = .ok m ↔ vm.trap? = none ∧ vm.machine? = some m := by
  unfold ready
  split <;> simp [*]

theorem machine?_of_ready {vm : Vm} {m : Machine} (h : vm.ready = .ok m) : vm.machine? = some m :=
  (ready_eq_ok_iff.1 h).2

theorem ready_next {vm : Vm} {m : Machine} (h : vm.ready = .ok m) (n : Machine) :
    { vm with machine? := some n }.ready = .ok n :=
  ready_eq_ok_iff.2 ⟨(ready_eq_ok_iff.1 h).1, rfl⟩

theorem step_ok_of_ready {vm : Vm} {m n : Machine} {flow : Flow} (hr : vm.ready = .ok m)
    (h : m.step vm.keys = (n, .ok flow)) :
    vm.step = ({ vm with machine? := some n }, .ok flow) := by
  rw [step, hr]
  dsimp only
  rw [h]

theorem machine_of_step_ok {vm next : Vm} {flow : Flow} (h : vm.step = (next, .ok flow)) :
    ∃ m n, vm.ready = .ok m ∧ m.step vm.keys = (n, .ok flow) ∧
      next = { vm with machine? := some n } := by
  unfold step at h
  split at h
  · cases h
  · rename_i m hready
    split at h
    · rename_i n flow' hs
      cases h
      exact ⟨m, n, hready, hs, rfl⟩
    · cases h

theorem machine?_self {vm : Vm} {m : Machine} (h : vm.machine? = some m) :
    { vm with machine? := some m } = vm := by
  rw [← h]

theorem unmark_eq {vm : Vm} {m : Machine} (h : vm.machine? = some m) :
    vm.unmark = { vm with machine? := some { m with screen := m.screen.unmark } } := by
  rw [unmark, mapMachine, h]
  rfl

theorem ready_unmark {vm : Vm} {m : Machine} (h : vm.ready = .ok m) :
    vm.unmark.ready = .ok { m with screen := m.screen.unmark } := by
  rw [unmark_eq (machine?_of_ready h)]
  exact ready_next h _

theorem tick_eq {vm : Vm} {m : Machine} (h : vm.machine? = some m) :
    vm.tick = { vm with machine? := some { m with timers := m.timers.tick } } := by
  rw [tick, mapMachine, h]
  rfl

theorem runFromAmid_one (changes : Nat → Keypad → Keypad) (flow : Flow) (vm : Vm) :
    runFromAmid changes flow 1 vm = (vm.changeKeys (changes 0)).step := by
  rw [runFromAmid_succ]
  rcases (vm.changeKeys (changes 0)).step with ⟨next, e | last⟩ <;> rfl

theorem after_load (vm : Vm) (program : Array Byte) (entropy : Random.Key) :
    vm.after [.load program entropy] = (vm.load program entropy).1 := rfl

theorem after_concat (vm : Vm) (operations : List Operation) (o : Operation) :
    vm.after (operations ++ [o]) = (o.perform (vm.after operations)).1 := by
  rw [after, List.foldl_append]
  rfl

section

variable {P : Vm → Prop}

theorem runFromAmid_keeps {changes : Nat → Keypad → Keypad}
    (hkeys : ∀ i vm, P vm → P (vm.changeKeys (changes i))) (hstep : ∀ vm, P vm → P vm.step.1)
    (count : Nat) (flow : Flow) (vm : Vm) (h : P vm) : P (runFromAmid changes flow count vm).1 := by
  induction count generalizing changes flow vm with
  | zero => exact h
  | succ count ih =>
    have hs := hstep _ (hkeys 0 vm h)
    rw [runFromAmid_succ]
    rcases hstep : (vm.changeKeys (changes 0)).step with ⟨next, e | last⟩
    · rwa [hstep] at hs
    · rw [hstep] at hs
      exact ih (fun i => hkeys (i + 1)) last next hs

theorem updateAmid_keeps {changes : Nat → Keypad → Keypad}
    (hkeys : ∀ i vm, P vm → P (vm.changeKeys (changes i))) (hstep : ∀ vm, P vm → P vm.step.1)
    (hunmark : ∀ vm, P vm → P vm.unmark) (htick : ∀ vm, P vm → P vm.tick) (milliseconds : Float)
    (vm : Vm) (h : P vm) : P (updateAmid changes vm milliseconds).1 := by
  have hrun :=
    runFromAmid_keeps hkeys hstep (vm.frameSteps milliseconds) .ok vm.unmark (hunmark vm h)
  unfold updateAmid
  split
  · exact h
  · split
    · rename_i hr
      rw [hr] at hrun
      exact htick _ hrun
    · rename_i hr
      rwa [hr] at hrun

theorem runFrom_keeps (hstep : ∀ vm, P vm → P vm.step.1) (count : Nat) (flow : Flow) (vm : Vm)
    (h : P vm) : P (runFrom flow count vm).1 :=
  runFromAmid_keeps (fun _ _ h => h) hstep count flow vm h

theorem update_keeps (hstep : ∀ vm, P vm → P vm.step.1) (hunmark : ∀ vm, P vm → P vm.unmark)
    (htick : ∀ vm, P vm → P vm.tick) (milliseconds : Float) (vm : Vm) (h : P vm) :
    P (vm.update milliseconds).1 :=
  updateAmid_keeps (fun _ _ h => h) hstep hunmark htick milliseconds vm h

end

structure Invariant (P : Vm → Prop) : Prop where
  load : ∀ vm program entropy, P vm → P (vm.load program entropy).1
  step : ∀ vm, P vm → P vm.step.1
  unmark : ∀ vm, P vm → P vm.unmark
  tick : ∀ vm, P vm → P vm.tick
  setFrequency : ∀ vm f, P vm → P (vm.setFrequency f)
  setKey : ∀ vm key down, P vm → P (vm.setKey key down)
  clearKeys : ∀ vm, P vm → P vm.clearKeys

namespace Invariant

variable {P : Vm → Prop}

theorem run (h : Invariant P) (vm : Vm) (count : Nat) (hp : P vm) : P (vm.run count).1 :=
  runFrom_keeps h.step count .ok vm hp

theorem update (h : Invariant P) (vm : Vm) (milliseconds : Float) (hp : P vm) :
    P (vm.update milliseconds).1 :=
  update_keeps h.step h.unmark h.tick milliseconds vm hp

theorem perform (h : Invariant P) (vm : Vm) (o : Operation) (hp : P vm) : P (o.perform vm).1 := by
  cases o with
  | load program entropy => exact h.load vm program entropy hp
  | step => exact h.step vm hp
  | run count => exact h.run vm count hp
  | update milliseconds => exact h.update vm milliseconds hp
  | setFrequency f => exact h.setFrequency vm f hp
  | setKey key down => exact h.setKey vm key down hp
  | clearKeys => exact h.clearKeys vm hp

theorem after (h : Invariant P) (operations : List Operation) (vm : Vm) (hp : P vm) :
    P (vm.after operations) := by
  induction operations generalizing vm with
  | nil => exact hp
  | cons o rest ih => exact ih (o.perform vm).1 (h.perform vm o hp)

end Invariant

end Chip8.Vm

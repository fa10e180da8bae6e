import Chip8.Proofs.Checked.Operation
import Chip8.Proofs.Keypad.Events
import Chip8.Proofs.Vm.Load

/-! No key event is lost. The handles of the keypad share one mask with the virtual machine, and
each of their accesses is atomic, so whatever they do at once is some list of events in between the
operations and in between the steps of one operation. A key shows the last event that affects it,
and of the operations only a load that gets as far as to a new machine counts as an event. -/

namespace Chip8

namespace Vm

def changesOf (amid : Nat → List KeyEvent) (i : Nat) (keys : Keypad) : Keypad :=
  (amid i).foldl KeyEvent.apply keys

def eventsAmid (amid : Nat → List KeyEvent) : Nat → Vm → List KeyEvent
  | 0, _ => []
  | count + 1, vm =>
    amid 0 ++
      match (vm.changeKeys (changesOf amid 0)).step with
      | (vm, .ok _) => eventsAmid (fun i => amid (i + 1)) count vm
      | (_, .error _) => []

end Vm

/-- What comes next: an event on some handle of the keypad, an operation with the events before
each of its steps, or a dump. A load looks at the keys only once, to release them, so an event
during it comes before it or after it. -/
inductive Turn where
  | event (e : KeyEvent)
  | operation (o : Operation) (amid : Nat → List KeyEvent)
  | dump (d : Dump)

namespace Turn

def perform (vm : Vm) : Turn → Vm
  | event e => vm.changeKeys e.apply
  | operation o amid => (Action.perform vm ⟨o, Vm.changesOf amid⟩).1
  | dump _ => vm

def events (vm : Vm) : Turn → List KeyEvent
  | event e => [e]
  | operation .step amid => vm.eventsAmid amid 1
  | operation (.run count) amid => vm.eventsAmid amid count
  | operation (.update milliseconds) amid =>
    match vm.ready with
    | .error _ => []
    | .ok _ => vm.unmark.eventsAmid amid (vm.frameSteps milliseconds)
  | operation (.load program _) _ =>
    match vm.glyphsFor program.size with
    | .error _ => []
    | .ok _ => [.clear]
  | operation (.setFrequency _) _ => []
  | operation (.setKey key down) _ => [.set key down]
  | operation .clearKeys _ => [.clear]
  | dump _ => []

end Turn

namespace Vm

def through (vm : Vm) (turns : List Turn) : Vm := turns.foldl Turn.perform vm

def keyEvents (vm : Vm) : List Turn → List KeyEvent
  | [] => []
  | turn :: rest => turn.events vm ++ (turn.perform vm).keyEvents rest

theorem keys_step (vm : Vm) : vm.step.1.keys = vm.keys := by
  unfold step
  cases vm.ready with
  | error e => rfl
  | ok m =>
    dsimp only
    rcases m.step vm.keys with ⟨n, f | flow⟩ <;> rfl

theorem keys_run (vm : Vm) (count : Nat) : (vm.run count).1.keys = vm.keys :=
  runFrom_keeps (P := fun next => next.keys = vm.keys) (fun next h => (keys_step next).trans h)
    count .ok vm rfl

theorem keys_update (vm : Vm) (milliseconds : Float) :
    (vm.update milliseconds).1.keys = vm.keys :=
  update_keeps (P := fun next => next.keys = vm.keys) (fun next h => (keys_step next).trans h)
    (fun _ h => h) (fun _ h => h) milliseconds vm rfl

theorem foldl_pressKey (keys : List Key) (vm : Vm) :
    keys.foldl pressKey vm = { vm with keys := keys.foldl Keypad.press vm.keys } := by
  induction keys generalizing vm with
  | nil => rfl
  | cons key rest ih => exact ih (vm.pressKey key)

theorem keys_runFromAmid (amid : Nat → List KeyEvent) (flow : Flow) (count : Nat) (vm : Vm) :
    (runFromAmid (changesOf amid) flow count vm).1.keys =
      (vm.eventsAmid amid count).foldl KeyEvent.apply vm.keys := by
  induction count generalizing amid flow vm with
  | zero => rfl
  | succ count ih =>
    have hkeys : (vm.changeKeys (changesOf amid 0)).step.1.keys =
        (amid 0).foldl KeyEvent.apply vm.keys := keys_step _
    rw [eventsAmid, runFromAmid_succ, List.foldl_append, ← hkeys]
    rcases (vm.changeKeys (changesOf amid 0)).step with ⟨next, e | last⟩
    · rfl
    · exact ih (fun i => amid (i + 1)) last next

theorem keys_turn (vm : Vm) (turn : Turn) :
    (turn.perform vm).keys = (turn.events vm).foldl KeyEvent.apply vm.keys := by
  cases turn with
  | event e => rfl
  | dump d => rfl
  | operation o amid =>
    cases o with
    | load program entropy =>
      change (vm.load program entropy).1.keys = _
      rw [Turn.events]
      cases hglyphs : vm.glyphsFor program.size with
      | error e => rw [load_of_glyphsFor_error hglyphs]; rfl
      | ok glyphs => exact keys_load_of_glyphsFor hglyphs
    | step =>
      have hone := keys_runFromAmid amid .ok 1 vm
      rwa [runFromAmid_one] at hone
    | run count => exact keys_runFromAmid amid .ok count vm
    | update milliseconds =>
      have hrun := keys_runFromAmid amid .ok (vm.frameSteps milliseconds) vm.unmark
      change (updateAmid (changesOf amid) vm milliseconds).1.keys = _
      rw [updateAmid, Turn.events]
      cases vm.ready with
      | error e => rfl
      | ok m =>
        dsimp only
        rw [show vm.keys = vm.unmark.keys from rfl, ← hrun]
        rcases runFromAmid _ _ _ vm.unmark with ⟨next, e | flow⟩ <;> rfl
    | setFrequency f => rfl
    | setKey key down => rfl
    | clearKeys => rfl

theorem keys_through (vm : Vm) (turns : List Turn) :
    (vm.through turns).keys = (vm.keyEvents turns).foldl KeyEvent.apply vm.keys := by
  induction turns generalizing vm with
  | nil => rfl
  | cons turn rest ih =>
    rw [keyEvents, List.foldl_append, ← keys_turn]
    exact ih (turn.perform vm)

/-- After every interleaving of the handles with the operations a key shows the last event that
affects it, and it is up if there was none. Events at different keys commute, and neither steps,
runs and updates nor a new frequency or a load that is rejected early touch the keys. -/
theorem keys_show_last_event (c : Config) (source : GlyphSource) (turns : List Turn) :
    (∀ key : Key, ((new c source).through turns).keys.mask.toNat.testBit key.val =
        (KeyEvent.lastWritten? key ((new c source).keyEvents turns)).getD false) ∧
      (∀ (keys : Keypad) (e e' : KeyEvent),
        (∀ key, e.written? key = none ∨ e'.written? key = none) →
        e'.apply (e.apply keys) = e.apply (e'.apply keys)) ∧
      (∀ vm : Vm, vm.step.1.keys = vm.keys ∧ (∀ count, (vm.run count).1.keys = vm.keys) ∧
        (∀ milliseconds, (vm.update milliseconds).1.keys = vm.keys) ∧
        (∀ f, (vm.setFrequency f).keys = vm.keys) ∧
        ∀ program entropy e, vm.glyphsFor program.size = .error e →
          (vm.load program entropy).1.keys = vm.keys) ∧
      ∀ keys : Keypad,
        (∀ id, keys.isPressed id = true ↔ id < 16 ∧ keys.mask.toNat.testBit id = true) ∧
        (∀ key, keys.first? = some key ↔
          keys.isPressed key = true ∧ ∀ lower < key, keys.isPressed lower = false) ∧
        (keys.first? = none ↔ keys.any = false) := by
  refine ⟨fun key => ?_, fun keys e e' hdisjoint => Keypad.apply_comm hdisjoint keys,
    fun vm => ⟨vm.keys_step, vm.keys_run, vm.keys_update, fun _ => rfl,
      fun program entropy e he => ?_⟩,
    fun keys => ⟨fun _ => Keypad.isPressed_iff, fun _ => Keypad.first?_eq_some_iff,
      Keypad.first?_eq_none_iff⟩⟩
  · have hkey := Keypad.isPressed_foldl ((new c source).keyEvents turns) {} key
    have hup : ({} : Keypad).isPressed key = false := BitVec.getLsbD_zero
    rw [hup] at hkey
    rw [keys_through]
    exact hkey
  · rw [load_of_glyphsFor_error he]

end Vm

end Chip8

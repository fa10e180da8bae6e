import Chip8.Machine.Execute

/-! The virtual machine as a host sees it: a machine once a program was loaded, the keys, the
frequency, and the fault that trapped the machine. A trapped machine stands still until the next
program is loaded. Operations that can fail give the virtual machine after them in both cases. -/

namespace Chip8

structure Vm where
  config : Config
  glyphSource : GlyphSource
  machine? : Option Machine
  keys : Keypad
  frequency : Frequency
  trap? : Option Fault

namespace Vm

def new (config : Config) (glyphSource : GlyphSource := GlyphSource.builtin) : Vm :=
  { config := config
    glyphSource := glyphSource
    machine? := none
    keys := {}
    frequency := config.frequency
    trap? := none }

def glyphsFor (vm : Vm) (length : Nat) : Except Error (Array Byte) :=
  match vm.config.check length with
  | .error cause => .error (.config cause)
  | .ok () =>
    match vm.glyphSource vm.config.font with
    | .error e => .error e
    | .ok glyphs =>
      if glyphs.size = Limits.fontLength then .ok glyphs
      else .error (.config (.fontLength glyphs.size))

/-- Builds a new machine with the program. The keys are released as soon as the configuration and
the font are found good; the rest changes only if the load succeeds. -/
def load (vm : Vm) (program : Array Byte) (entropy : Random.Key) : Vm × Except Error Unit :=
  match vm.glyphsFor program.size with
  | .error e => (vm, .error e)
  | .ok glyphs =>
    let vm := { vm with keys := {} }
    match Machine.boot vm.config glyphs program entropy with
    | .error e => (vm, .error e)
    | .ok m =>
      ({ vm with machine? := some m, frequency := vm.config.frequency, trap? := none }, .ok ())

def ready (vm : Vm) : Except Error Machine :=
  match vm.trap?, vm.machine? with
  | some f, _ => .error (.fault f)
  | none, some m => .ok m
  | none, none => .error .notLoaded

def step (vm : Vm) : Vm × Except Error Flow :=
  match vm.ready with
  | .error e => (vm, .error e)
  | .ok m =>
    match m.step vm.keys with
    | (m, .ok flow) => ({ vm with machine? := some m }, .ok flow)
    | (m, .error f) => ({ vm with machine? := some m, trap? := some f }, .error (.fault f))

def changeKeys (vm : Vm) (change : Keypad → Keypad) : Vm := { vm with keys := change vm.keys }

/-- A run from its step `i` on, until the count is used up or a step fails. The keypad can be held
elsewhere too, so the keys may change before each step. The hint is that of the last step, or the
given one if there is none. -/
def runAt (changes : Nat → Keypad → Keypad) (flow : Flow) (i : Nat) :
    Nat → Vm → Vm × Except Error Flow
  | 0, vm => (vm, .ok flow)
  | count + 1, vm =>
    match (vm.changeKeys (changes i)).step with
    | (vm, .ok flow) => runAt changes flow (i + 1) count vm
    | (vm, .error e) => (vm, .error e)

def runFromAmid (changes : Nat → Keypad → Keypad) (flow : Flow) (count : Nat) (vm : Vm) :
    Vm × Except Error Flow := runAt changes flow 0 count vm

def runFrom (flow : Flow) (count : Nat) (vm : Vm) : Vm × Except Error Flow :=
  runFromAmid (fun _ keys => keys) flow count vm

def run (vm : Vm) (count : Nat) : Vm × Except Error Flow := runFrom .ok count vm

def frameSteps (vm : Vm) (milliseconds : Float) : Nat :=
  max 1 (vm.frequency.cyclesIn milliseconds)

def mapMachine (f : Machine → Machine) (vm : Vm) : Vm := { vm with machine? := vm.machine?.map f }

def unmark (vm : Vm) : Vm := vm.mapMachine fun m => { m with screen := m.screen.unmark }

def tick (vm : Vm) : Vm := vm.mapMachine fun m => { m with timers := m.timers.tick }

/-- Runs one frame while the keys change: the steps that fit into its time, then one tick of the
timers. -/
def updateAmid (changes : Nat → Keypad → Keypad) (vm : Vm) (milliseconds : Float) :
    Vm × Except Error Unit :=
  match vm.ready with
  | .error e => (vm, .error e)
  | .ok _ =>
    match runFromAmid changes .ok (vm.frameSteps milliseconds) vm.unmark with
    | (vm, .ok _) => (vm.tick, .ok ())
    | (vm, .error e) => (vm, .error e)

def update (vm : Vm) (milliseconds : Float) : Vm × Except Error Unit :=
  updateAmid (fun _ keys => keys) vm milliseconds

/-- Changes the frequency until the next program is loaded. -/
def setFrequency (vm : Vm) (f : Frequency) : Vm := { vm with frequency := f }

def setKey (vm : Vm) (key : Key) (down : Bool) : Vm := { vm with keys := vm.keys.set key down }

def pressKey (vm : Vm) (key : Key) : Vm := vm.setKey key true

def clearKeys (vm : Vm) : Vm := { vm with keys := {} }

theorem runAt_succ (changes : Nat → Keypad → Keypad) (flow : Flow) (i count : Nat) (vm : Vm) :
    runAt changes flow (i + 1) count vm = runAt (fun k => changes (k + 1)) flow i count vm := by
  induction count generalizing flow i vm with
  | zero => rfl
  | succ count ih =>
    rw [runAt, runAt]
    rcases (vm.changeKeys (changes (i + 1))).step with ⟨next, e | last⟩
    · rfl
    · exact ih last (i + 1) next

theorem runFromAmid_succ (changes : Nat → Keypad → Keypad) (flow : Flow) (count : Nat) (vm : Vm) :
    runFromAmid changes flow (count + 1) vm =
      match (vm.changeKeys (changes 0)).step with
      | (next, .ok last) => runFromAmid (fun i => changes (i + 1)) last count next
      | (next, .error e) => (next, .error e) := by
  rw [runFromAmid, runAt]
  rcases (vm.changeKeys (changes 0)).step with ⟨next, e | last⟩
  · rfl
  · exact runAt_succ changes last 0 count next

theorem runFrom_zero (flow : Flow) (vm : Vm) : runFrom flow 0 vm = (vm, .ok flow) := rfl

theorem runFrom_succ (flow : Flow) (count : Nat) (vm : Vm) :
    runFrom flow (count + 1) vm =
      match vm.step with
      | (next, .ok last) => runFrom last count next
      | (next, .error e) => (next, .error e) := runFromAmid_succ ..

theorem update_eq (vm : Vm) (milliseconds : Float) :
    vm.update milliseconds =
      match vm.ready with
      | .error e => (vm, .error e)
      | .ok _ =>
        match vm.unmark.run (vm.frameSteps milliseconds) with
        | (next, .ok _) => (next.tick, .ok ())
        | (next, .error e) => (next, .error e) := rfl

end Vm

end Chip8

import Chip8.Proofs.Checked.Execute
import Chip8.Proofs.Checked.Loading
import Chip8.Vm.Text

/-! The operations of a host in partial operations, and what a host can ask a virtual machine to
show. Whatever was done before, each of them is defined: no index is out of range, no divisor zero,
no shift too far and no sum too large. -/

namespace Chip8

namespace Checked

def stepVm (vm : Vm) : Option (Vm × Except Error Flow) :=
  match vm.ready with
  | .error e => some (vm, .error e)
  | .ok m => do
    match ← step m vm.keys with
    | (m, .ok flow) => some ({ vm with machine? := some m }, .ok flow)
    | (m, .error f) =>
      some ({ vm with machine? := some m, trap? := some f }, .error (.fault f))

def runFrom (flow : Flow) : Nat → Vm → Option (Vm × Except Error Flow)
  | 0, vm => some (vm, .ok flow)
  | count + 1, vm => do
    match ← stepVm vm with
    | (vm, .ok flow) => runFrom flow count vm
    | (vm, .error e) => some (vm, .error e)

def update (vm : Vm) (milliseconds : Float) : Option (Vm × Except Error Unit) :=
  match vm.ready with
  | .error e => some (vm, .error e)
  | .ok _ => do
    match ← runFrom .ok (vm.frameSteps milliseconds) vm.unmark with
    | (vm, .ok _) => some (vm.tick, .ok ())
    | (vm, .error e) => some (vm, .error e)

def perform (vm : Vm) : Operation → Option (Vm × Answer)
  | .load program entropy => (loadVm vm program entropy).map (Prod.map id Answer.ofUnit)
  | .step => (stepVm vm).map (Prod.map id Answer.ofFlow)
  | .run count => (runFrom .ok count vm).map (Prod.map id Answer.ofFlow)
  | .update milliseconds => (update vm milliseconds).map (Prod.map id Answer.ofUnit)
  | .setFrequency f => some (vm.setFrequency f, .done)
  | .setKey key down => do
    let keys ← setKey vm.keys key down
    some ({ vm with keys := keys }, .done)
  | .clearKeys => some (vm.clearKeys, .done)

end Checked

def Operation.InRange (c : Config) : Operation → Prop
  | .load program _ => c.programStart + program.size < 2 ^ 64
  | _ => True

inductive Dump where
  | ram (count : Nat)
  | screen
  | keys

def Dump.text (vm : Vm) : Dump → String
  | .ram count => vm.ramText count
  | .screen => vm.screenText
  | .keys => vm.keysText

namespace Checked

def wordLines (m : Memory) (start count : Nat) : Option (List String) :=
  (List.range ((min (start + count) m.capacity - start + 1) / 2)).mapM fun i => do
    let a := start + 2 * i
    let word ← fetch m a
    some s!"{Hex.padded 4 a}: {word.text}"

def ramText (m : Memory) (count : Nat) : Option String := do
  let lines ← wordLines m m.programStart count
  some (String.join (lines.map fun line => line ++ "\n"))

def screenText (s : Screen) : Option String := do
  let line ← add 64 s.width 1
  let _ ← mul 64 line s.height
  let rows ← quot s.pixels.size s.width
  some (String.join ((List.range rows).map fun y => s.rowText y ++ "\n"))

def pressed (k : Keypad) : List Key → Option (List Key)
  | [] => some []
  | key :: rest => do
    let down ← isPressed k key.val
    let others ← pressed k rest
    some (if down then key :: others else others)

def keysText (k : Keypad) : Option String :=
  if k.any then do
    let keys ← pressed k (List.finRange 16)
    some (String.join ("keys:" :: keys.map fun key => " " ++ Key.name key))
  else some ""

def text (vm : Vm) : Dump → Option String
  | .ram count =>
    match vm.machine? with
    | some m => ramText m.memory count
    | none => some ""
  | .screen =>
    match vm.machine? with
    | some m => screenText m.screen
    | none => some ""
  | .keys => keysText vm.keys

theorem stepVm_eq {vm : Vm} {c : Config} (h : vm.Fits c) : stepVm vm = some vm.step := by
  unfold stepVm Vm.step
  cases hready : vm.ready with
  | error e => rfl
  | ok m =>
    have hm := h.2 m (Vm.machine?_of_ready hready)
    simp only [step_eq hm, Option.bind_eq_bind, Option.bind_some]
    rcases m.step vm.keys with ⟨next, f | flow⟩
    · rfl
    · rfl

theorem runFrom_eq {c : Config} (count : Nat) (flow : Flow) {vm : Vm} (h : vm.Fits c) :
    runFrom flow count vm = some (Vm.runFrom flow count vm) := by
  induction count generalizing flow vm with
  | zero => rfl
  | succ count ih =>
    have hs : vm.step.1.Fits c := h.step
    simp only [runFrom, stepVm_eq h, Option.bind_eq_bind, Option.bind_some, Vm.runFrom_succ]
    rcases hstep : vm.step with ⟨next, e | last⟩
    · rfl
    · rw [hstep] at hs
      exact ih last hs

theorem update_eq {vm : Vm} {c : Config} (h : vm.Fits c) (milliseconds : Float) :
    update vm milliseconds = some (vm.update milliseconds) := by
  have hu : vm.unmark.Fits c := h.mapMachine fun _ => rfl
  unfold update
  rw [vm.update_eq]
  cases vm.ready with
  | error e => rfl
  | ok m =>
    simp only [runFrom_eq _ _ hu, Option.bind_eq_bind, Option.bind_some, Vm.run]
    rcases Vm.runFrom .ok (vm.frameSteps milliseconds) vm.unmark with ⟨next, e | flow⟩
    · rfl
    · rfl

theorem perform_eq {vm : Vm} {c : Config} (h : vm.Fits c) {o : Operation} (ho : o.InRange c) :
    perform vm o = some (o.perform vm) := by
  cases o with
  | load program entropy =>
    obtain ⟨rfl, -⟩ := h
    rw [perform, loadVm_eq vm entropy ho]
    rfl
  | step =>
    rw [perform, stepVm_eq h]
    rfl
  | run count =>
    rw [perform, runFrom_eq count .ok h]
    rfl
  | update milliseconds =>
    rw [perform, update_eq h]
    rfl
  | setFrequency f => rfl
  | setKey key down =>
    rw [perform, setKey_eq]
    rfl
  | clearKeys => rfl

theorem wordLines_eq {m : Memory} (start count : Nat) (h : m.capacity < 2 ^ 64) :
    wordLines m start count = some (m.wordLines start count) := by
  refine mapM_eq fun i hi => ?_
  have hi' := List.mem_range.1 hi
  have ha : start + 2 * i + 1 < 2 ^ 64 := by omega
  simp only [fetch_eq ha, Option.bind_eq_bind, Option.bind_some]

theorem ramText_eq {m : Memory} (count : Nat) (h : m.capacity < 2 ^ 64) :
    ramText m count =
      some (String.join ((m.wordLines m.programStart count).map fun line => line ++ "\n")) := by
  rw [ramText, wordLines_eq m.programStart count h]
  rfl

theorem screenText_eq {s : Screen} (h : Bounded s) : screenText s = some s.text := by
  have hw : s.width ≤ 256 := h.width_le
  have hh : s.height ≤ 256 := h.height_le
  have hline : s.width + 1 < 2 ^ 64 := by omega
  have harea : (s.width + 1) * s.height ≤ 257 * 256 := Nat.mul_le_mul (by omega) hh
  have hsize : (s.width + 1) * s.height < 2 ^ 64 := by omega
  have hrows : s.pixels.size / s.width = s.height := by
    rw [s.size_pixels]
    exact Nat.mul_div_cancel_left s.height h.width_pos
  simp only [screenText, add_eq hline, mul_eq hsize, quot_eq h.width_pos, hrows,
    Option.bind_eq_bind, Option.bind_some, Screen.text]

theorem pressed_eq (k : Keypad) (keys : List Key) :
    pressed k keys = some (keys.filter fun key => k.isPressed key.val) := by
  induction keys with
  | nil => rfl
  | cons key rest ih =>
    simp only [pressed, isPressed_eq, ih, Option.bind_eq_bind, Option.bind_some, List.filter_cons]

theorem keysText_eq (k : Keypad) : keysText k = some k.text := by
  unfold keysText Keypad.text
  split
  · rw [pressed_eq]
    rfl
  · rfl

theorem text_eq {vm : Vm} {c : Config} (h : vm.Fits c) (d : Dump) : text vm d = some (d.text vm) := by
  cases d with
  | ram count =>
    simp only [text, Dump.text, Vm.ramText]
    cases hm : vm.machine? with
    | none => rfl
    | some m =>
      have hf := h.2 m hm
      have hc : m.memory.capacity ≤ 65536 := hf.capacity ▸ hf.memory_le
      exact ramText_eq count (by omega)
  | screen =>
    simp only [text, Dump.text, Vm.screenText]
    cases hm : vm.machine? with
    | none => rfl
    | some m => exact screenText_eq (bounded_of_fits (h.2 m hm))
  | keys => exact keysText_eq vm.keys

end Checked

theorem Vm.safe_after (c : Config) (source : GlyphSource) (operations : List Operation) :
    let vm := (new c source).after operations
    (∀ m, vm.machine? = some m → m.Fits c) ∧
      (∀ o : Operation, o.InRange c → Checked.perform vm o = some (o.perform vm)) ∧
        ∀ d : Dump, Checked.text vm d = some (d.text vm) := by
  intro vm
  have h : vm.Fits c := fits_after c source operations
  exact ⟨h.2, fun _ ho => Checked.perform_eq h ho, Checked.text_eq h⟩

end Chip8

import Chip8.Proofs.Vm.Trap

/-! What an operation does to the machine, taken apart: the steps it carries out, the mark that an
update takes off before them and the tick of the timers behind them. What is known of each of these
is known of every history, by one induction. -/

namespace Chip8

/-- A step that is carried out: the machine before it, and the keys that it sees. -/
structure Moment where
  machine : Machine
  keys : Keypad

def Moment.next (moment : Moment) : Machine := (moment.machine.step moment.keys).1

inductive Effect where
  | unmark
  | step (moment : Moment)
  | tick

/-- The steps that a run carries out, the last of which may fail. -/
def Vm.moments (changes : Nat → Keypad → Keypad) : Nat → Vm → List Moment
  | 0, _ => []
  | count + 1, vm =>
    match vm.ready with
    | .error _ => []
    | .ok m =>
      ⟨m, changes 0 vm.keys⟩ ::
        moments (fun i => changes (i + 1)) count (vm.changeKeys (changes 0)).step.1

def Answer.ticks : Answer → List Effect
  | .done => [.tick]
  | .flow _ | .failed _ => []

/-- What an action does to the machine in turn, loads apart. -/
def Action.effects (vm : Vm) (a : Action) : List Effect :=
  match a.operation with
  | .step => (vm.moments a.changes 1).map .step
  | .run count => (vm.moments a.changes count).map .step
  | .update milliseconds =>
    match vm.ready with
    | .error _ => []
    | .ok _ =>
      .unmark :: (vm.unmark.moments a.changes (vm.frameSteps milliseconds)).map .step ++
        (a.perform vm).2.ticks
  | _ => []

theorem Effect.eq_step_of_mem {effect : Effect} {moments : List Moment}
    (h : effect ∈ moments.map .step) : ∃ moment, effect = .step moment := by
  obtain ⟨moment, -, heq⟩ := List.mem_map.1 h
  exact ⟨moment, heq.symm⟩

def Effect.moment? : Effect → Option Moment
  | .step moment => some moment
  | .unmark | .tick => none

def Action.executed (vm : Vm) (a : Action) : List Moment := (a.effects vm).filterMap Effect.moment?

theorem filterMap_moment?_map_step (moments : List Moment) :
    (moments.map .step).filterMap Effect.moment? = moments := by
  rw [List.filterMap_map]
  exact List.filterMap_some

theorem Action.mem_executed {vm : Vm} {a : Action} {moment : Moment} :
    moment ∈ a.executed vm ↔ .step moment ∈ a.effects vm := by
  rw [executed, List.mem_filterMap]
  constructor
  · rintro ⟨effect, hmem, h⟩
    cases effect with
    | step other =>
      cases h
      exact hmem
    | unmark => cases h
    | tick => cases h
  · intro hmem
    exact ⟨.step moment, hmem, rfl⟩

theorem Action.executed_update {vm : Vm} {m : Machine} (hr : vm.ready = .ok m)
    (milliseconds : Float) (changes : Nat → Keypad → Keypad) :
    executed vm ⟨.update milliseconds, changes⟩ =
      vm.unmark.moments changes (vm.frameSteps milliseconds) := by
  have hticks (answer : Answer) : answer.ticks.filterMap Effect.moment? = [] := by
    cases answer <;> rfl
  unfold executed effects
  rw [hr]
  dsimp only
  rw [List.filterMap_append, hticks, List.append_nil, List.filterMap_cons_none rfl,
    filterMap_moment?_map_step]

inductive Leads : Machine → List Effect → Machine → Prop
  | nil (m : Machine) : Leads m [] m
  | unmark {m n : Machine} {rest : List Effect}
    (h : Leads { m with screen := m.screen.unmark } rest n) : Leads m (.unmark :: rest) n
  | step (moment : Moment) {n : Machine} {rest : List Effect} (h : Leads moment.next rest n) :
    Leads moment.machine (.step moment :: rest) n
  | tick {m n : Machine} {rest : List Effect}
    (h : Leads { m with timers := m.timers.tick } rest n) : Leads m (.tick :: rest) n

theorem Leads.append {m n o : Machine} {effects more : List Effect} (h : Leads m effects n)
    (h' : Leads n more o) : Leads m (effects ++ more) o := by
  induction h with
  | nil => exact h'
  | unmark _ ih => exact .unmark (ih h')
  | step moment _ ih => exact .step moment (ih h')
  | tick _ ih => exact .tick (ih h')

namespace Vm

def effects (vm : Vm) : List Action → List Effect
  | [] => []
  | a :: rest => a.effects vm ++ (a.perform vm).1.effects rest

def executed (vm : Vm) : List Action → List Moment
  | [] => []
  | a :: rest => a.executed vm ++ (a.perform vm).1.executed rest

/-- Each of the actions is such when its turn comes. -/
def Throughout (P : Vm → Action → Prop) : Vm → List Action → Prop
  | _, [] => True
  | vm, a :: rest => P vm a ∧ Throughout P (a.perform vm).1 rest

variable {vm : Vm} {m : Machine} {changes : Nat → Keypad → Keypad}

theorem throughout_of_forall {P : Vm → Action → Prop} {actions : List Action}
    (h : ∀ a ∈ actions, ∀ vm, P vm a) : vm.Throughout P actions := by
  induction actions generalizing vm with
  | nil => trivial
  | cons a rest ih =>
    exact ⟨h a List.mem_cons_self vm, ih fun b hb => h b (List.mem_cons_of_mem a hb)⟩

theorem mem_effects {effect : Effect} {actions : List Action} (h : effect ∈ vm.effects actions) :
    ∃ a ∈ actions, ∃ before : Vm, effect ∈ a.effects before := by
  induction actions generalizing vm with
  | nil => cases h
  | cons a rest ih =>
    rcases List.mem_append.1 h with hfirst | hrest
    · exact ⟨a, List.mem_cons_self, vm, hfirst⟩
    · obtain ⟨b, hb, hmem⟩ := ih hrest
      exact ⟨b, List.mem_cons_of_mem a hb, hmem⟩

theorem ready_of_step_error {e : Error} (h : vm.step.2 = .error e) :
    vm.step.1.ready = .error e := by
  cases hr : vm.ready with
  | error e' =>
    rw [step, hr] at h ⊢
    cases h
    exact hr
  | ok m =>
    rcases step_of_ready hr with ⟨n, flow, hs⟩ | ⟨n, f, hs⟩
    · rw [hs] at h
      cases h
    · rw [hs] at h ⊢
      cases h
      exact ready_of_trap rfl

theorem moments_of_unready {e : Error} (h : vm.ready = .error e) (count : Nat) :
    vm.moments changes count = [] := by
  cases count with
  | zero => rfl
  | succ count => rw [moments, h]

theorem machine?_step (h : vm.ready = .ok m) : vm.step.1.machine? = some (m.step vm.keys).1 := by
  rw [step, h]
  dsimp only
  rcases m.step vm.keys with ⟨n, f | flow⟩ <;> rfl

theorem executed_eq (vm : Vm) (actions : List Action) :
    vm.executed actions = (vm.effects actions).filterMap Effect.moment? := by
  induction actions generalizing vm with
  | nil => rfl
  | cons a rest ih => rw [executed, effects, List.filterMap_append, ih, Action.executed]

theorem leads_runFromAmid (changes : Nat → Keypad → Keypad) (flow : Flow) (count : Nat)
    (hm : vm.machine? = some m) :
    ∃ n, (vm.runFromAmid changes flow count).1.machine? = some n ∧
      Leads m ((vm.moments changes count).map .step) n := by
  induction count generalizing changes flow vm m with
  | zero => exact ⟨m, hm, .nil m⟩
  | succ count ih =>
    cases hr : vm.ready with
    | error e =>
      have hready : (vm.changeKeys (changes 0)).ready = .error e := hr
      rw [moments_of_unready hr, runFromAmid_succ, step, hready]
      exact ⟨m, hm, .nil m⟩
    | ok m' =>
      cases hm.symm.trans (machine?_of_ready hr)
      have hready : (vm.changeKeys (changes 0)).ready = .ok m := hr
      have hnext := machine?_step hready
      have hrest := @ready_of_step_error (vm.changeKeys (changes 0))
      rw [moments, hr, runFromAmid_succ]
      dsimp only
      rw [List.map_cons]
      generalize (vm.changeKeys (changes 0)).step = result at hnext hrest
      obtain ⟨next, e | last⟩ := result
      · -- a step that fails is the last one
        rw [moments_of_unready (hrest rfl)]
        exact ⟨_, hnext, .step ⟨m, changes 0 vm.keys⟩ (.nil _)⟩
      · obtain ⟨n, hn, hleads⟩ := ih (fun i => changes (i + 1)) last hnext
        exact ⟨n, hn, .step ⟨m, changes 0 vm.keys⟩ hleads⟩

theorem leads_act {a : Action} (ha : ¬vm.Loads a.operation) (hm : vm.machine? = some m) :
    ∃ n, (a.perform vm).1.machine? = some n ∧ Leads m (a.effects vm) n := by
  obtain ⟨o, changes⟩ := a
  cases o with
  | load program entropy =>
    obtain ⟨-, hkept⟩ := perform_of_idle (o := .load program entropy) id ha
    exact ⟨m, hkept.trans hm, .nil m⟩
  | step =>
    obtain ⟨n, hn, hleads⟩ := leads_runFromAmid changes .ok 1 hm
    rw [runFromAmid_one] at hn
    exact ⟨n, hn, hleads⟩
  | run count => exact leads_runFromAmid changes .ok count hm
  | update milliseconds =>
    unfold Action.effects Action.perform updateAmid
    cases hr : vm.ready with
    | error e => exact ⟨m, hm, .nil m⟩
    | ok m' =>
      obtain ⟨n, hn, hleads⟩ := leads_runFromAmid changes .ok (vm.frameSteps milliseconds)
        (congrArg machine? (unmark_eq hm))
      dsimp only
      rcases hrun : vm.unmark.runFromAmid changes .ok (vm.frameSteps milliseconds) with
        ⟨next, e | flow⟩
      · rw [hrun] at hn
        exact ⟨n, hn, .unmark (hleads.append (.nil n))⟩
      · rw [hrun] at hn
        exact ⟨_, congrArg machine? (tick_eq hn), .unmark (hleads.append (.tick (.nil _)))⟩
  | setFrequency f => exact ⟨m, hm, .nil m⟩
  | setKey key down => exact ⟨m, hm, .nil m⟩
  | clearKeys => exact ⟨m, hm, .nil m⟩

theorem leads_undergo {actions : List Action}
    (hall : vm.Throughout (fun vm a => ¬vm.Loads a.operation) actions)
    (hm : vm.machine? = some m) :
    ∃ n, (vm.undergo actions).1.machine? = some n ∧ Leads m (vm.effects actions) n := by
  induction actions generalizing vm m with
  | nil => exact ⟨m, hm, .nil m⟩
  | cons a rest ih =>
    obtain ⟨n, hn, hleads⟩ := leads_act hall.1 hm
    obtain ⟨o, ho, hleads'⟩ := ih hall.2 hn
    exact ⟨o, ho, hleads.append hleads'⟩

end Vm

/-- A view of the machine that can be told from what is done to it. -/
structure Recorded {σ : Type} (view : Machine → σ) (record : σ → Effect → σ) : Prop where
  unmark : ∀ m, view { m with screen := m.screen.unmark } = record (view m) .unmark
  step : ∀ moment : Moment, view moment.next = record (view moment.machine) (.step moment)
  tick : ∀ m, view { m with timers := m.timers.tick } = record (view m) .tick

namespace Recorded

variable {σ : Type} {view : Machine → σ} {record : σ → Effect → σ} {vm : Vm} {m : Machine}

theorem leads (h : Recorded view record) {n : Machine} {effects : List Effect}
    (hleads : Leads m effects n) : view n = effects.foldl record (view m) := by
  induction hleads with
  | nil => rfl
  | unmark _ ih => rw [ih, h.unmark, List.foldl_cons]
  | step moment _ ih => rw [ih, h.step, List.foldl_cons]
  | tick _ ih => rw [ih, h.tick, List.foldl_cons]

theorem act (h : Recorded view record) {a : Action} (ha : ¬vm.Loads a.operation)
    (hm : vm.machine? = some m) :
    ∃ n, (a.perform vm).1.machine? = some n ∧
      view n = (a.effects vm).foldl record (view m) := by
  obtain ⟨n, hn, hleads⟩ := Vm.leads_act ha hm
  exact ⟨n, hn, h.leads hleads⟩

theorem undergo (h : Recorded view record) {actions : List Action}
    (hall : vm.Throughout (fun vm a => ¬vm.Loads a.operation) actions)
    (hm : vm.machine? = some m) :
    ∃ n, (vm.undergo actions).1.machine? = some n ∧
      view n = (vm.effects actions).foldl record (view m) := by
  obtain ⟨n, hn, hleads⟩ := Vm.leads_undergo hall hm
  exact ⟨n, hn, h.leads hleads⟩

end Recorded

end Chip8

import Chip8.Proofs.Vm.Effect
import Mathlib.Data.List.Forall2

/-! Simulation. A relation between two virtual machines that lasts as long as their steps are alike
lasts through all that a host does to both of them, and both give the same answers, up to what their
errors may differ in. -/

namespace Chip8.Vm

inductive Results (errors : Error → Error → Prop) {α : Type} :
    Except Error α → Except Error α → Prop
  | ok (result : α) : Results errors (.ok result) (.ok result)
  | error {e e' : Error} (causes : errors e e') : Results errors (.error e) (.error e')

inductive Answers (errors : Error → Error → Prop) : Answer → Answer → Prop
  | done : Answers errors .done .done
  | flow (flow : Flow) : Answers errors (.flow flow) (.flow flow)
  | failed {e e' : Error} (causes : errors e e') : Answers errors (.failed e) (.failed e')

variable {errors : Error → Error → Prop}

theorem Results.ofUnit {r s : Except Error Unit} (h : Results errors r s) :
    Answers errors (.ofUnit r) (.ofUnit s) := by
  cases h with
  | ok result => exact .done
  | error causes => exact .failed causes

theorem Results.ofFlow {r s : Except Error Flow} (h : Results errors r s) :
    Answers errors (.ofFlow r) (.ofFlow s) := by
  cases h with
  | ok flow => exact .flow flow
  | error causes => exact .failed causes

theorem Results.of_eq {α : Type} {r s : Except Error α} (h : r = s) : Results Eq r s := by
  cases h
  cases r with
  | error e => exact .error rfl
  | ok a => exact .ok a

theorem Answers.eq {a b : Answer} (h : Answers Eq a b) : a = b := by
  cases h with
  | done => rfl
  | flow flow => rfl
  | failed causes => exact congrArg Answer.failed causes

theorem eq_of_answers {as bs : List Answer} (h : List.Forall₂ (Answers Eq) as bs) : as = bs :=
  List.forall₂_eq_eq_eq ▸ h.imp fun _ _ => Answers.eq

/-- A relation between virtual machines that all operations keep, as long as steps are alike. -/
structure Simulation where
  vms : Vm → Vm → Prop
  machines : Machine → Machine → Prop
  errors : Error → Error → Prop
  /-- What may happen to the keys of the one, and to those of the other meanwhile. -/
  changes : (Keypad → Keypad) → (Keypad → Keypad) → Prop
  alike : Moment → Moment → Prop
  ready : ∀ {vm other}, vms vm other →
    (∃ m n, vm.ready = .ok m ∧ other.ready = .ok n ∧ machines m n) ∨
      ∃ e e', vm.ready = .error e ∧ other.ready = .error e' ∧ errors e e'
  frequency : ∀ {vm other}, vms vm other → vm.frequency = other.frequency
  setFrequency : ∀ {vm other} f, vms vm other → vms (vm.setFrequency f) (other.setFrequency f)
  setKey : ∀ {vm other} key down, vms vm other → vms (vm.setKey key down) (other.setKey key down)
  clearKeys : ∀ {vm other}, vms vm other → vms vm.clearKeys other.clearKeys
  unmark : ∀ {vm other}, vms vm other → vms vm.unmark other.unmark
  tick : ∀ {vm other}, vms vm other → vms vm.tick other.tick
  changeKeys : ∀ {vm other change change'}, vms vm other → changes change change' →
    vms (vm.changeKeys change) (other.changeKeys change')
  step : ∀ {vm other m n}, vms vm other → vm.ready = .ok m → other.ready = .ok n →
    alike ⟨m, vm.keys⟩ ⟨n, other.keys⟩ → vms vm.step.1 other.step.1 ∧
      Results errors vm.step.2 other.step.2
  load : ∀ {vm other} program entropy, vms vm other →
    vms (vm.load program entropy).1 (other.load program entropy).1 ∧
      Results errors (vm.load program entropy).2 (other.load program entropy).2

namespace Simulation

variable {S : Simulation} {vm other : Vm}

def Alike (S : Simulation) (moments moments' : List Moment) : Prop :=
  ∀ pair ∈ moments.zip moments', S.alike pair.1 pair.2

structure InStep (S : Simulation) {α : Type} (answer : α → α → Prop) (r s : Vm × α)
    (moments moments' : List Moment) : Prop where
  vms : S.vms r.1 s.1
  answers : answer r.2 s.2
  machines : List.Forall₂ (fun p q => S.machines p.machine q.machine) moments moments'

theorem alike_cons {p q : Moment} {moments moments' : List Moment} :
    S.Alike (p :: moments) (q :: moments') ↔ S.alike p q ∧ S.Alike moments moments' := by
  rw [Alike, List.zip_cons_cons, List.forall_mem_cons]
  exact Iff.rfl

theorem Alike.of_append {moments moments' later later' : List Moment}
    (h : S.Alike (moments ++ later) (moments' ++ later')) : S.Alike moments moments' := by
  induction moments generalizing moments' with
  | nil => exact fun pair hpair => nomatch hpair
  | cons p rest ih =>
    cases moments' with
    | nil => exact fun pair hpair => nomatch hpair
    | cons q rest' =>
      obtain ⟨hfirst, hrest⟩ := alike_cons.1 h
      exact alike_cons.2 ⟨hfirst, ih hrest⟩

theorem alike_append {moments moments' later later' : List Moment}
    (hlength : moments.length = moments'.length) :
    S.Alike (moments ++ later) (moments' ++ later') ↔
      S.Alike moments moments' ∧ S.Alike later later' := by
  rw [Alike, List.zip_append hlength, List.forall_mem_append]
  exact Iff.rfl

theorem runFromAmid {changes changes' : Nat → Keypad → Keypad} {count : Nat}
    (h : S.vms vm other) (hchanges : ∀ k, S.changes (changes k) (changes' k))
    (halike : S.Alike (vm.moments changes count) (other.moments changes' count)) (flow : Flow) :
    S.InStep (Results S.errors) (Vm.runFromAmid changes flow count vm)
      (Vm.runFromAmid changes' flow count other) (vm.moments changes count)
      (other.moments changes' count) := by
  induction count generalizing changes changes' flow vm other with
  | zero => exact ⟨h, .ok flow, .nil⟩
  | succ count ih =>
    have hnow := S.changeKeys h (hchanges 0)
    rcases S.ready h with ⟨m, n, hm, hn, hmn⟩ | ⟨e, e', he, he', hcauses⟩
    · rw [moments, moments, hm, hn] at halike ⊢
      obtain ⟨hfirst, hrest⟩ := alike_cons.1 halike
      obtain ⟨hnext, hresults⟩ := S.step hnow hm hn hfirst
      have hlast := @ready_of_step_error (vm.changeKeys (changes 0))
      have hlast' := @ready_of_step_error (other.changeKeys (changes' 0))
      rw [runFromAmid_succ, runFromAmid_succ]
      generalize (vm.changeKeys (changes 0)).step = result at hnext hresults hlast hrest ⊢
      generalize (other.changeKeys (changes' 0)).step = result' at hnext hresults hlast' hrest ⊢
      obtain ⟨next, answer⟩ := result
      obtain ⟨next', answer'⟩ := result'
      cases hresults with
      | error causes =>
        -- a step that fails is the last one
        rw [moments_of_unready (hlast rfl), moments_of_unready (hlast' rfl)]
        exact ⟨hnext, .error causes, .cons hmn .nil⟩
      | ok last =>
        obtain ⟨hvms, hanswers, hmachines⟩ := ih hnext (fun k => hchanges (k + 1)) hrest last
        exact ⟨hvms, hanswers, .cons hmn hmachines⟩
    · have hready : (vm.changeKeys (changes 0)).ready = .error e := he
      have hready' : (other.changeKeys (changes' 0)).ready = .error e' := he'
      rw [moments_of_unready he, moments_of_unready he', runFromAmid_succ, runFromAmid_succ, Vm.step,
        Vm.step, hready, hready']
      exact ⟨hnow, .error hcauses, .nil⟩

theorem updateAmid {changes changes' : Nat → Keypad → Keypad} {milliseconds : Float}
    (h : S.vms vm other) (hchanges : ∀ k, S.changes (changes k) (changes' k))
    (halike : S.Alike (Action.executed vm ⟨.update milliseconds, changes⟩)
      (Action.executed other ⟨.update milliseconds, changes'⟩)) :
    S.InStep (Results S.errors) (vm.updateAmid changes milliseconds)
      (other.updateAmid changes' milliseconds)
      (Action.executed vm ⟨.update milliseconds, changes⟩)
      (Action.executed other ⟨.update milliseconds, changes'⟩) := by
  have hsteps : other.frameSteps milliseconds = vm.frameSteps milliseconds := by
    rw [frameSteps, frameSteps, S.frequency h]
  unfold Vm.updateAmid
  rcases S.ready h with ⟨m, n, hm, hn, -⟩ | ⟨e, e', he, he', hcauses⟩
  · rw [Action.executed_update hm, Action.executed_update hn, hsteps] at halike ⊢
    obtain ⟨hvms, hresults, hmachines⟩ := runFromAmid (S.unmark h) hchanges halike .ok
    rw [hm, hn]
    dsimp only
    generalize Vm.runFromAmid changes _ _ _ = result at hvms hresults ⊢
    generalize Vm.runFromAmid changes' _ _ _ = result' at hvms hresults ⊢
    obtain ⟨next, answer⟩ := result
    obtain ⟨next', answer'⟩ := result'
    cases hresults with
    | error causes => exact ⟨hvms, .error causes, hmachines⟩
    | ok flow => exact ⟨S.tick hvms, .ok (), hmachines⟩
  · unfold Action.executed Action.effects
    rw [he, he']
    exact ⟨h, .error hcauses, .nil⟩

structure Actions (S : Simulation) (a a' : Action) : Prop where
  operation : a.operation = a'.operation
  changes : ∀ k, S.changes (a.changes k) (a'.changes k)

theorem actions_self (h : ∀ change, S.changes change change) (actions : List Action) :
    List.Forall₂ S.Actions actions actions :=
  List.forall₂_same.2 fun _ _ => ⟨rfl, fun _ => h _⟩

theorem act {a a' : Action} (h : S.vms vm other) (ha : S.Actions a a')
    (halike : S.Alike (a.executed vm) (a'.executed other)) :
    S.InStep (Answers S.errors) (a.perform vm) (a'.perform other) (a.executed vm)
      (a'.executed other) := by
  obtain ⟨o, changes⟩ := a
  obtain ⟨o', changes'⟩ := a'
  obtain ⟨ho, hchanges⟩ := ha
  cases ho
  cases o with
  | load program entropy =>
    obtain ⟨hvms, hresults⟩ := S.load program entropy h
    exact ⟨hvms, hresults.ofUnit, .nil⟩
  | step =>
    simp only [Action.executed, Action.effects, filterMap_moment?_map_step] at halike ⊢
    obtain ⟨hvms, hresults, hmachines⟩ := runFromAmid h hchanges halike .ok
    rw [runFromAmid_one, runFromAmid_one] at hvms hresults
    exact ⟨hvms, hresults.ofFlow, hmachines⟩
  | run count =>
    simp only [Action.executed, Action.effects, filterMap_moment?_map_step] at halike ⊢
    obtain ⟨hvms, hresults, hmachines⟩ := runFromAmid h hchanges halike .ok
    exact ⟨hvms, hresults.ofFlow, hmachines⟩
  | update milliseconds =>
    obtain ⟨hvms, hresults, hmachines⟩ := updateAmid h hchanges halike
    exact ⟨hvms, hresults.ofUnit, hmachines⟩
  | setFrequency f => exact ⟨S.setFrequency f h, .done, .nil⟩
  | setKey key down => exact ⟨S.setKey key down h, .done, .nil⟩
  | clearKeys => exact ⟨S.clearKeys h, .done, .nil⟩

theorem undergo {actions actions' : List Action} (h : S.vms vm other)
    (hactions : List.Forall₂ S.Actions actions actions')
    (halike : S.Alike (vm.executed actions) (other.executed actions')) :
    S.InStep (List.Forall₂ (Answers S.errors)) (vm.undergo actions) (other.undergo actions')
      (vm.executed actions) (other.executed actions') := by
  induction hactions generalizing vm other with
  | nil => exact ⟨h, .nil, .nil⟩
  | cons ha _ ih =>
    rw [executed, executed] at halike ⊢
    obtain ⟨hnext, hanswer, hmachines⟩ := act h ha halike.of_append
    obtain ⟨-, hlater⟩ := (alike_append hmachines.length_eq).1 halike
    obtain ⟨hlast, hanswers, hrest⟩ := ih hnext hlater
    rw [undergo_cons, undergo_cons]
    exact ⟨hlast, .cons hanswer hanswers, List.rel_append hmachines hrest⟩

end Simulation

end Chip8.Vm

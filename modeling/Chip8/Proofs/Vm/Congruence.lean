import Chip8.Proofs.Machine.Congruence
import Chip8.Proofs.Machine.Step
import Chip8.Proofs.Vm.Fits
import Chip8.Proofs.Vm.Reload
import Chip8.Proofs.Vm.Simulation

/-! A host cannot tell congruent machines apart. Whatever it does to two virtual machines that
differ only in addresses that mean the same cells, both answer alike and go on to differ only so. -/

namespace Chip8

/-- The size of memory divides the number of words, and no flag tells where `I` is. -/
structure Config.Cyclic (c : Config) : Prop where
  divides : c.memorySize ∣ UInt16.size
  silent : c.dialect.indexFlagsOverflow = false

inductive Error.Congruent (size : Nat) : Error → Error → Prop
  | same (e : Error) : Congruent size e e
  | fault {f g : Fault} (faults : f.Congruent size g) : Congruent size (.fault f) (.fault g)

inductive Answer.Congruent (size : Nat) : Answer → Answer → Prop
  | done : Congruent size .done .done
  | flow (flow : Flow) : Congruent size (.flow flow) (.flow flow)
  | failed {e e' : Error} (causes : e.Congruent size e') : Congruent size (.failed e) (.failed e')

namespace Vm

/-- Equal but for the addresses in machine and trap, and these mean the same cells. -/
structure Congruent (size : Nat) (vm other : Vm) : Prop where
  config : vm.config = other.config
  glyphSource : vm.glyphSource = other.glyphSource
  machine? : Option.Rel (Machine.Congruent size) vm.machine? other.machine?
  keys : vm.keys = other.keys
  frequency : vm.frequency = other.frequency
  trap? : Option.Rel (Fault.Congruent size) vm.trap? other.trap?

inductive Agree (size : Nat) {α : Type} : Vm × Except Error α → Vm × Except Error α → Prop
  | ok {vm other : Vm} (vms : vm.Congruent size other) (result : α) :
    Agree size (vm, .ok result) (other, .ok result)
  | error {vm other : Vm} {e e' : Error} (vms : vm.Congruent size other)
    (causes : e.Congruent size e') : Agree size (vm, .error e) (other, .error e')

theorem Agree.results {size : Nat} {α : Type} {r s : Vm × Except Error α} (h : Agree size r s) :
    r.1.Congruent size s.1 ∧ Results (Error.Congruent size) r.2 s.2 := by
  cases h with
  | ok vms result => exact ⟨vms, .ok result⟩
  | error vms causes => exact ⟨vms, .error causes⟩

theorem Answers.congruent {size : Nat} {a b : Answer} (h : Answers (Error.Congruent size) a b) :
    a.Congruent size b := by
  cases h with
  | done => exact .done
  | flow flow => exact .flow flow
  | failed causes => exact .failed causes

theorem step_snd {vm : Vm} {m : Machine} (h : vm.ready = .ok m) :
    vm.step.2 = (m.step vm.keys).2.mapError .fault := by
  rw [step, h]
  dsimp only
  rcases m.step vm.keys with ⟨n, f | flow⟩ <;> rfl

theorem Fits.cyclic {c : Config} {vm : Vm} {m : Machine} (hfits : vm.Fits c) (hc : c.Cyclic)
    (hm : vm.machine? = some m) : m.Cyclic c.memorySize where
  divides := hc.divides
  capacity := (hfits.2 m hm).capacity
  silent := (hfits.2 m hm).dialect ▸ hc.silent

namespace Congruent

variable {size : Nat} {c : Config} {vm other : Vm}

theorem ready (h : vm.Congruent size other) :
    (∃ m n, vm.ready = .ok m ∧ other.ready = .ok n ∧ m.Congruent size n) ∨
      ∃ e e', vm.ready = .error e ∧ other.ready = .error e' ∧ e.Congruent size e' := by
  obtain ⟨-, -, hmachine, -, -, htrap⟩ := h
  unfold Vm.ready
  generalize vm.trap? = trap at htrap
  generalize other.trap? = trap' at htrap
  cases htrap with
  | some faults => exact .inr ⟨_, _, rfl, rfl, .fault faults⟩
  | none =>
    generalize vm.machine? = machine at hmachine
    generalize other.machine? = machine' at hmachine
    cases hmachine with
    | some machines => exact .inl ⟨_, _, rfl, rfl, machines⟩
    | none => exact .inr ⟨_, _, rfl, rfl, .same _⟩

theorem mapMachine (h : vm.Congruent size other) {f : Machine → Machine}
    (hf : ∀ m n, m.Congruent size n → (f m).Congruent size (f n)) :
    (vm.mapMachine f).Congruent size (other.mapMachine f) := by
  refine { h with machine? := ?_ }
  have hmachine := h.machine?
  unfold Vm.mapMachine
  generalize vm.machine? = machine at hmachine
  generalize other.machine? = machine' at hmachine
  cases hmachine with
  | some machines => exact .some (hf _ _ machines)
  | none => exact .none

theorem unmark (h : vm.Congruent size other) : vm.unmark.Congruent size other.unmark :=
  h.mapMachine fun _ _ hmn => { hmn with screen := congrArg Screen.unmark hmn.screen }

theorem tick (h : vm.Congruent size other) : vm.tick.Congruent size other.tick :=
  h.mapMachine fun _ _ hmn => { hmn with timers := congrArg Timers.tick hmn.timers }

theorem load (h : vm.Congruent size other) (program : Array Byte) (entropy : Random.Key) :
    Agree size (vm.load program entropy) (other.load program entropy) := by
  have hglyphs : vm.glyphsFor program.size = other.glyphsFor program.size := by
    rw [glyphsFor, glyphsFor, h.config, h.glyphSource]
  unfold Vm.load
  rw [← hglyphs, ← h.config]
  cases vm.glyphsFor program.size with
  | error e => exact .error h (.same e)
  | ok glyphs =>
    dsimp only
    cases Machine.boot vm.config glyphs program entropy with
    | error e =>
      refine .error ?_ (.same e)
      exact { h with config := rfl, keys := rfl }
    | ok m =>
      refine .ok ?_ ()
      exact { h with
        config := rfl, machine? := .some (.refl size m), keys := rfl, frequency := rfl
        trap? := .none }

theorem changeKeys (h : vm.Congruent size other) (change : Keypad → Keypad) :
    (vm.changeKeys change).Congruent size (other.changeKeys change) :=
  { h with keys := congrArg change h.keys }

variable (hc : c.Cyclic)
include hc

theorem step (hfits : vm.Fits c) (h : vm.Congruent c.memorySize other) :
    Agree c.memorySize vm.step other.step := by
  unfold Vm.step
  rcases h.ready with ⟨m, n, hm, hn, hmn⟩ | ⟨e, e', he, he', hee'⟩
  · rw [hm, hn, ← h.keys]
    have hagree := hmn.step (hfits.cyclic hc (machine?_of_ready hm)) vm.keys
    dsimp only
    generalize m.step vm.keys = result at hagree
    generalize n.step vm.keys = result' at hagree
    cases hagree with
    | ok machines flow =>
      refine .ok ?_ flow
      exact { h with machine? := .some machines, keys := rfl }
    | error machines faults =>
      refine .error ?_ (.fault faults)
      exact { h with machine? := .some machines, keys := rfl, trap? := .some faults }
  · rw [he, he']
    exact .error h hee'

def simulation : Simulation where
  vms vm other := vm.Fits c ∧ vm.Congruent c.memorySize other
  machines := Machine.Congruent c.memorySize
  errors := Error.Congruent c.memorySize
  changes := Eq
  alike _ _ := True
  ready h := h.2.ready
  frequency h := h.2.frequency
  setFrequency f h := by
    obtain ⟨hfits, hcongruent⟩ := h
    exact ⟨(invariant_fits c).setFrequency _ f hfits, { hcongruent with frequency := rfl }⟩
  setKey key down h :=
    ⟨(invariant_fits c).setKey _ key down h.1, h.2.changeKeys fun keys => keys.set key down⟩
  clearKeys h := ⟨(invariant_fits c).clearKeys _ h.1, h.2.changeKeys fun _ => {}⟩
  unmark h := ⟨(invariant_fits c).unmark _ h.1, h.2.unmark⟩
  tick h := ⟨(invariant_fits c).tick _ h.1, h.2.tick⟩
  changeKeys h := by
    rintro rfl
    exact ⟨h.1.changeKeys _, h.2.changeKeys _⟩
  step h _ _ _ := by
    obtain ⟨hfits, hcongruent⟩ := h
    obtain ⟨hvms, hresults⟩ := (hcongruent.step hc hfits).results
    exact ⟨⟨hfits.step, hvms⟩, hresults⟩
  load program entropy h := by
    obtain ⟨hfits, hcongruent⟩ := h
    obtain ⟨hvms, hresults⟩ := (hcongruent.load program entropy).results
    exact ⟨⟨hfits.load program entropy, hvms⟩, hresults⟩

theorem act (hfits : vm.Fits c) (h : vm.Congruent c.memorySize other) (a : Action) :
    (a.perform vm).1.Congruent c.memorySize (a.perform other).1 ∧
      (a.perform vm).2.Congruent c.memorySize (a.perform other).2 := by
  obtain ⟨⟨-, hvms⟩, hanswers, -⟩ := (simulation hc).act ⟨hfits, h⟩ ⟨rfl, fun _ => rfl⟩
    fun _ _ => trivial
  exact ⟨hvms, hanswers.congruent⟩

theorem undergo (hfits : vm.Fits c) (h : vm.Congruent c.memorySize other)
    (actions : List Action) :
    (vm.undergo actions).1.Congruent c.memorySize (other.undergo actions).1 ∧
      List.Forall₂ (Answer.Congruent c.memorySize) (vm.undergo actions).2
        (other.undergo actions).2 := by
  obtain ⟨⟨-, hvms⟩, hanswers, -⟩ := (simulation hc).undergo ⟨hfits, h⟩
    (Simulation.actions_self (fun _ => rfl) actions) fun _ _ => trivial
  exact ⟨hvms, hanswers.imp fun _ _ => Answers.congruent⟩

end Congruent

/-- In a memory whose size divides the number of words, addresses count modulo its size. Of two
virtual machines that differ only in addresses that mean the same cells, a step comes to the same
hint or to the same fault and keeps them so, and so does all that a host can do, whenever keys go up
and down. -/
theorem step_modulo_memory {c : Config} (hsize : c.memorySize ∣ 65536)
    (hsilent : c.dialect.indexFlagsOverflow = false) {vm other : Vm} {m : Machine}
    (hfits : vm.Fits c) (hm : vm.machine? = some m) (ht : vm.trap? = none)
    (h : vm.Congruent c.memorySize other) :
    ((∃ flow, vm.step.2 = .ok flow ∧ other.step.2 = .ok flow) ∨
        ∃ f g, f.Congruent c.memorySize g ∧ vm.step.2 = .error (.fault f) ∧
          other.step.2 = .error (.fault g)) ∧
      vm.step.1.Congruent c.memorySize other.step.1 ∧
      ∀ actions,
        (vm.undergo actions).1.Congruent c.memorySize (other.undergo actions).1 ∧
          List.Forall₂ (Answer.Congruent c.memorySize) (vm.undergo actions).2
            (other.undergo actions).2 := by
  have hc : c.Cyclic := ⟨hsize, hsilent⟩
  refine ⟨?_, (h.act hc hfits (.plain .step)).1, h.undergo hc hfits⟩
  rcases h.ready with ⟨m, n, hready, hready', hmn⟩ | ⟨e, -, he, -⟩
  · have hagree := hmn.step (hfits.cyclic hc (machine?_of_ready hready)) vm.keys
    rw [step_snd hready, step_snd hready', ← h.keys]
    generalize m.step vm.keys = result at hagree
    generalize n.step vm.keys = result' at hagree
    cases hagree with
    | ok machines flow => exact .inl ⟨flow, rfl, rfl⟩
    | error machines faults => exact .inr ⟨_, _, faults, rfl, rfl⟩
  · rw [ready_eq_ok_iff.2 ⟨ht, hm⟩] at he
    cases he

/-- A jump to itself, once at `0x200` and once at an address that memory folds onto it. -/
theorem step_modulo_memory_of_loop :
    ∃ vm m, vm = (new { seed := some 7 }).after [.load #[0x12, 0x00] default] ∧
      vm.machine? = some m ∧ m.pc = 0x200 ∧
      let other : Vm := { vm with machine? := some { m with pc := 0x1200 } }
      vm.step.2 = .ok .jump ∧ other.step.2 = .ok .jump ∧
        (vm.undergo [⟨.run 9, fun _ keys => keys.press 5⟩]).1.Congruent 4096
          (other.undergo [⟨.run 9, fun _ keys => keys.press 5⟩]).1 := by
  have ha : (new { seed := some 7 }).Accepts #[0x12, 0x00] Glyphs.chip48 :=
    .standard rfl rfl (by decide)
  obtain ⟨vm, m, hvm, hstarts, hready⟩ := ha.ready_after rfl
  obtain ⟨ht, hm⟩ := ready_eq_ok_iff.1 hready
  have hpc : m.pc = 0x200 := hstarts.pc_eq
  have hword : m.word = Instruction.word (.jump 0x200) := hstarts.word_eq rfl
  have hjump : vm.step.2 = .ok .jump :=
    congrArg Prod.snd (step_ok_of_ready hready (m.step_of_word hword vm.keys))
  have hfits : vm.Fits { seed := some 7 } := hvm ▸ fits_after _ _ _
  have hmoved : m.Congruent 4096 { m with pc := 0x1200 } :=
    (Machine.Congruent.refl 4096 m).withPc (hpc ▸ rfl)
  have hcongruent : vm.Congruent 4096 { vm with machine? := some { m with pc := 0x1200 } } :=
    { config := rfl, glyphSource := rfl, machine? := hm ▸ .some hmoved, keys := rfl,
      frequency := rfl, trap? := ht ▸ .none }
  obtain ⟨hstep, -, hlater⟩ :=
    step_modulo_memory (by decide) rfl hfits hm ht hcongruent
  refine ⟨vm, m, hvm, hm, hpc, hjump, ?_, (hlater _).1⟩
  rcases hstep with ⟨flow, hflow, hother⟩ | ⟨f, -, -, hfault, -⟩
  · rw [hflow] at hjump
    cases hjump
    exact hother
  · rw [hfault] at hjump
    cases hjump

end Vm

end Chip8

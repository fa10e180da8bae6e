import Chip8.Proofs.Machine.Timers
import Chip8.Proofs.Vm.Effect
import Chip8.Proofs.Vm.Fault

/-! Steps, runs and updates are one motion. A run comes to the last of its steps or to the first
that fails, so it can be cut anywhere; an update takes the mark off the screen, runs, and ticks the
timers if the run came to its end. -/

namespace Chip8.Vm

def stepped (vm : Vm) (count : Nat) : Vm := (fun vm => vm.step.1)^[count] vm

/-- A run of `count` steps ends with step `j`, the first being step `0`: all before it succeed, and
it is the last one or it fails. -/
structure EndsAt (vm : Vm) (count j : Nat) : Prop where
  lt : j < count
  before : ∀ i < j, ∃ flow, (vm.stepped i).step.2 = .ok flow
  last : j + 1 = count ∨ ∃ e, (vm.stepped j).step.2 = .error e

variable {vm : Vm} {m : Machine} {count j : Nat}

theorem stepped_succ (vm : Vm) (count : Nat) : vm.stepped (count + 1) = vm.step.1.stepped count :=
  Function.iterate_succ_apply ..

namespace EndsAt

theorem exists_succ (h : vm.EndsAt count j) : ∃ rest, count = rest + 1 :=
  Nat.exists_eq_succ_of_ne_zero (Nat.ne_of_gt (Nat.zero_lt_of_lt h.lt))

theorem cons {flow : Flow} (hflow : vm.step.2 = .ok flow) (h : vm.step.1.EndsAt count j) :
    vm.EndsAt (count + 1) (j + 1) where
  lt := Nat.succ_lt_succ h.lt
  before := by
    intro i hi
    cases i with
    | zero => exact ⟨flow, hflow⟩
    | succ i =>
      rw [stepped_succ]
      exact h.before i (Nat.lt_of_succ_lt_succ hi)
  last := by
    rw [stepped_succ]
    exact h.last.imp (congrArg Nat.succ) id

theorem tail (h : vm.EndsAt (count + 1) (j + 1)) : vm.step.1.EndsAt count j where
  lt := Nat.lt_of_succ_lt_succ h.lt
  before := by
    intro i hi
    rw [← stepped_succ]
    exact h.before (i + 1) (Nat.succ_lt_succ hi)
  last := by
    rw [← stepped_succ]
    exact h.last.imp Nat.succ.inj id

end EndsAt

theorem exists_endsAt (vm : Vm) (h : 0 < count) : ∃ j, vm.EndsAt count j := by
  induction count generalizing vm with
  | zero => exact absurd h (Nat.lt_irrefl 0)
  | succ count ih =>
    rcases hs : vm.step.2 with e | flow
    · exact ⟨0, Nat.succ_pos count, fun i hi => absurd hi (Nat.not_lt_zero i), .inr ⟨e, hs⟩⟩
    rcases Nat.eq_zero_or_pos count with rfl | hpos
    · exact ⟨0, Nat.one_pos, fun i hi => absurd hi (Nat.not_lt_zero i), .inl rfl⟩
    · obtain ⟨j, hj⟩ := ih vm.step.1 hpos
      exact ⟨j + 1, hj.cons hs⟩

theorem runFrom_of_endsAt (flow : Flow) (h : vm.EndsAt count j) :
    runFrom flow count vm = (vm.stepped j).step := by
  induction j generalizing flow vm count with
  | zero =>
    obtain ⟨count, rfl⟩ := h.exists_succ
    have hlast : 0 + 1 = count + 1 ∨ ∃ e, vm.step.2 = .error e := h.last
    change runFrom flow (count + 1) vm = vm.step
    rw [runFrom_succ]
    rcases hs : vm.step with ⟨next, e | last⟩
    · rfl
    · rcases hlast with hcount | ⟨e, he⟩
      · cases hcount
        rfl
      · rw [hs] at he
        cases he
  | succ j ih =>
    obtain ⟨count, rfl⟩ := h.exists_succ
    obtain ⟨last, hlast⟩ : ∃ last, vm.step.2 = .ok last := h.before 0 (Nat.succ_pos j)
    rw [stepped_succ, ← ih last h.tail, runFrom_succ]
    rcases hs : vm.step with ⟨next, e | flow'⟩
    · rw [hs] at hlast
      cases hlast
    · rw [hs] at hlast
      cases hlast
      rfl

theorem runFrom_of_pos (flow : Flow) (h : 0 < count) : runFrom flow count vm = vm.run count := by
  obtain ⟨j, hj⟩ := vm.exists_endsAt h
  rw [run, runFrom_of_endsAt flow hj, runFrom_of_endsAt .ok hj]

theorem runFrom_add (flow : Flow) (a b : Nat) (vm : Vm) :
    runFrom flow (a + b) vm =
      match runFrom flow a vm with
      | (next, .ok last) => runFrom last b next
      | (next, .error e) => (next, .error e) := by
  induction a generalizing flow vm with
  | zero => rw [Nat.zero_add, runFrom_zero]
  | succ a ih =>
    rw [Nat.succ_add, runFrom_succ, runFrom_succ]
    rcases vm.step with ⟨next, e | last⟩
    · rfl
    · exact ih last next

theorem run_add_of_error {a : Nat} {next : Vm} {e : Error} (h : vm.run a = (next, .error e))
    (b : Nat) : vm.run (a + b) = (next, .error e) := by
  rw [run, runFrom_add, ← run, h]

theorem run_add_of_ok {a : Nat} {next : Vm} {flow : Flow} (h : vm.run a = (next, .ok flow))
    (b : Nat) : vm.run (a + b) = if b = 0 then (next, .ok flow) else next.run b := by
  rw [run, runFrom_add, ← run, h]
  dsimp only
  split
  · rename_i hb
    rw [hb, runFrom_zero]
  · rename_i hb
    exact runFrom_of_pos flow (Nat.pos_of_ne_zero hb)

theorem ready_stepped (hr : vm.ready = .ok m)
    (hok : ∀ i < j, ∃ flow, (vm.stepped i).step.2 = .ok flow) :
    ∃ n, (vm.stepped j).ready = .ok n := by
  induction j with
  | zero => exact ⟨m, hr⟩
  | succ j ih =>
    obtain ⟨n, hn⟩ := ih fun i hi => hok i (Nat.lt_succ_of_lt hi)
    obtain ⟨flow, hflow⟩ := hok j j.lt_succ_self
    rw [stepped, Function.iterate_succ_apply', ← stepped]
    rcases step_of_ready hn with ⟨o, last, hs⟩ | ⟨o, f, hs⟩
    · rw [hs]
      exact ⟨o, ready_next hn o⟩
    · rw [hs] at hflow
      cases hflow

theorem timers_stepped (hr : vm.ready = .ok m)
    (hok : ∀ i < j, ∃ flow, (vm.stepped i).step.2 = .ok flow) {n : Machine}
    (hn : (vm.stepped j).machine? = some n) {t : Timer}
    (hstored : ∀ i < j, ∀ o, (vm.stepped i).machine? = some o →
      ∀ value, o.stored? ≠ some (t, value)) : n.timers.get t = m.timers.get t := by
  induction j generalizing n with
  | zero =>
    cases (machine?_of_ready hr).symm.trans hn
    rfl
  | succ j ih =>
    have hok' : ∀ i < j, ∃ flow, (vm.stepped i).step.2 = .ok flow :=
      fun i hi => hok i (Nat.lt_succ_of_lt hi)
    obtain ⟨o, ho⟩ := ready_stepped hr hok'
    have hkept := ih hok' (machine?_of_ready ho) fun i hi => hstored i (Nat.lt_succ_of_lt hi)
    rw [stepped, Function.iterate_succ_apply', ← stepped, machine?_step ho] at hn
    cases hn
    rw [Machine.timers_step, ← hkept]
    have hnone := hstored j j.lt_succ_self o (machine?_of_ready ho)
    rcases hs : o.stored? with _ | ⟨other, value⟩
    · rfl
    · have hother : other ≠ t := fun heq => hnone value (heq ▸ hs)
      exact (Timers.get_set ..).trans (if_neg hother)

theorem update_of_run_ok (hr : vm.ready = .ok m) {milliseconds : Float} {next : Vm} {flow : Flow}
    (h : vm.unmark.run (vm.frameSteps milliseconds) = (next, .ok flow)) :
    vm.update milliseconds = (next.tick, .ok ()) := by
  rw [update_eq, hr]
  dsimp only
  rw [h]

theorem update_of_run_error (hr : vm.ready = .ok m) {milliseconds : Float} {next : Vm} {e : Error}
    (h : vm.unmark.run (vm.frameSteps milliseconds) = (next, .error e)) :
    vm.update milliseconds = (next, .error e) := by
  rw [update_eq, hr]
  dsimp only
  rw [h]

theorem update_of_endsAt (hr : vm.ready = .ok m) {milliseconds : Float}
    (hj : vm.unmark.EndsAt (vm.frameSteps milliseconds) j) {e : Error}
    (he : (vm.unmark.stepped j).step.2 = .error e) :
    ∃ n f, (vm.unmark.stepped j).machine? = some n ∧ e = .fault f ∧ n.Faults f ∧
      vm.update milliseconds =
        ({ vm.unmark.stepped j with
            machine? := some { n with pc := n.pc + 2 }, trap? := some f }, .error e) := by
  obtain ⟨n, hn⟩ := ready_stepped (ready_unmark hr) hj.before
  obtain ⟨f, hf, rfl⟩ := faults_of_step_error hn he
  refine ⟨n, f, machine?_of_ready hn, rfl, hf, update_of_run_error hr ?_⟩
  rw [run, runFrom_of_endsAt .ok hj, step_of_fault hn hf]

theorem exists_tick_eq (hm : vm.machine? = some m) :
    ∃ ts, vm.tick = { vm with machine? := some { m with timers := ts } } ∧
      ∀ t, (ts.get t).toNat = (m.timers.get t).toNat - 1 :=
  ⟨_, tick_eq hm, m.timers.toNat_get_tick⟩

/-- A run is its steps in turn up to the first that fails, and can be done in two parts. An update
takes the mark off, runs as many steps as fit into its time, and one at least, and takes one off the
timers if they all succeed; if one fails, the steps before it are done, the fault is the answer, and
no timer counts down. -/
theorem advances_agree (vm : Vm) :
    (vm.run 0 = (vm, .ok .ok) ∧
      ∀ count, 0 < count → ∃ j, vm.EndsAt count j ∧ vm.run count = (vm.stepped j).step) ∧
    (∀ a b next,
      (∀ e, vm.run a = (next, .error e) → vm.run (a + b) = (next, .error e)) ∧
      ∀ flow, vm.run a = (next, .ok flow) →
        vm.run (a + b) = if b = 0 then (next, .ok flow) else next.run b) ∧
    ∀ m milliseconds, vm.machine? = some m → vm.trap? = none →
      let count := max 1 (vm.frequency.cyclesIn milliseconds)
      let cleared : Vm :=
        { vm with machine? := some { m with screen := { m.screen with dirty := false } } }
      (∀ next flow, cleared.run count = (next, .ok flow) →
        ∃ (n : Machine) (ts : Timers), next.machine? = some n ∧
          vm.update milliseconds =
            ({ next with machine? := some { n with timers := ts } }, .ok ()) ∧
          ∀ t, (ts.get t).toNat = (n.timers.get t).toNat - 1) ∧
      (∀ next e, cleared.run count = (next, .error e) →
        vm.update milliseconds = (next, .error e)) ∧
      ∀ j e, cleared.EndsAt count j → (cleared.stepped j).step.2 = .error e →
        ∃ n f, (cleared.stepped j).machine? = some n ∧ e = .fault f ∧ n.Faults f ∧
          vm.update milliseconds =
            ({ cleared.stepped j with
                machine? := some { n with pc := n.pc + 2 }, trap? := some f }, .error e) ∧
          ∀ t, (∀ i < j, ∀ o, (cleared.stepped i).machine? = some o →
            ∀ value, o.stored? ≠ some (t, value)) → n.timers.get t = m.timers.get t := by
  refine ⟨⟨rfl, fun count hcount => ?_⟩, fun a b next => ⟨?_, ?_⟩, ?_⟩
  · obtain ⟨j, hj⟩ := vm.exists_endsAt hcount
    exact ⟨j, hj, runFrom_of_endsAt .ok hj⟩
  · intro e h
    exact run_add_of_error h b
  · intro flow h
    exact run_add_of_ok h b
  intro m milliseconds hm ht count cleared
  have hr : vm.ready = .ok m := ready_eq_ok_iff.2 ⟨ht, hm⟩
  rw [show cleared = vm.unmark from (unmark_eq hm).symm]
  refine ⟨fun next flow hrun => ?_, fun next e hrun => update_of_run_error hr hrun,
    fun j e hj he => ?_⟩
  · obtain ⟨n, hn⟩ : ∃ n, next.machine? = some n := by
      rcases runFrom_of_ready count .ok (ready_unmark hr) with ⟨n, last, hn⟩ | ⟨n, f, hn⟩
      · exact ⟨n, congrArg machine? (Prod.mk.inj (hrun.symm.trans hn)).1⟩
      · cases (Prod.mk.inj (hrun.symm.trans hn)).2
    obtain ⟨ts, hticked, hdown⟩ := exists_tick_eq hn
    exact ⟨n, ts, hn, by rw [update_of_run_ok hr hrun, hticked], hdown⟩
  · obtain ⟨n, f, hn, hf, hwhy, hupdate⟩ := update_of_endsAt hr hj he
    exact ⟨n, f, hn, hf, hwhy, hupdate, fun t => timers_stepped (ready_unmark hr) hj.before hn⟩

/-- The screen is marked and the delay timer at five. A frame of one step takes the mark off and
one from the timer; a frame of three steps fails at the second of them and takes nothing. -/
theorem advances_agree_up_to_fault :
    let small : Config := { memorySize := 90, fontStart := 0, programStart := 80, seed := some 7 }
    let program : Array Byte := #[0x00, 0xE0, 0x60, 0x05, 0xF0, 0x15, 0x70, 0x01, 0xFF, 0xFF]
    let vm := (new { small with frequency := ⟨600⟩ }).after [.load program default, .run 3]
    ∃ m, vm.machine? = some m ∧ vm.trap? = none ∧
      m.screen.dirty = true ∧ m.timers.get .delay = 5 ∧
      (∃ next n, vm.update 0.0 = (next, .ok ()) ∧ next.machine? = some n ∧
        n.screen.dirty = false ∧ n.timers.get .delay = 4) ∧
      ∃ next n, vm.update 5.0 = (next, .error (.fault (.unsupported 0xFFFF 88))) ∧
        next.machine? = some n ∧ next.trap? = some (.unsupported 0xFFFF 88) ∧
        n.screen.dirty = false ∧ n.timers.get .delay = 5 := by
  intro small program vm
  obtain ⟨m, hm, hbefore⟩ : ∃ m, vm.machine? = some m ∧
      (m.screen.dirty, m.timers.get .delay) = (true, 5) :=
    Option.map_eq_some_iff.1 (by decide +kernel)
  have ht : vm.trap? = none := by decide +kernel
  have hone : max 1 (vm.frequency.cyclesIn 0.0) = 1 := by decide +kernel
  have hthree : max 1 (vm.frequency.cyclesIn 5.0) = 3 := by decide +kernel
  obtain ⟨o, ho, hstepped⟩ : ∃ o, (vm.unmark.run 1).1.machine? = some o ∧
      (o.screen.dirty, o.timers.get .delay) = (false, 5) :=
    Option.map_eq_some_iff.1 (by decide +kernel)
  have hrun : (vm.unmark.run 1).2 = .ok .ok := by decide +kernel
  have hfirst : (vm.unmark.stepped 0).step.2 = .ok .ok := by decide +kernel
  have hsecond : (vm.unmark.stepped 1).step.2 = .error (.fault (.unsupported 0xFFFF 88)) := by
    decide +kernel
  obtain ⟨p, hp, hfailed⟩ : ∃ p, (vm.unmark.stepped 1).machine? = some p ∧
      (p.screen.dirty, p.timers.get .delay) = (false, 5) :=
    Option.map_eq_some_iff.1 (by decide +kernel)
  clear_value vm
  have hcleared :
      { vm with machine? := some { m with screen := { m.screen with dirty := false } } } =
        vm.unmark := (unmark_eq hm).symm
  obtain ⟨-, -, hupdate⟩ := advances_agree vm
  obtain ⟨hmarked, hfive⟩ := Prod.mk.inj hbefore
  refine ⟨m, hm, ht, hmarked, hfive, ?_, ?_⟩
  · obtain ⟨hdone, -, -⟩ := hupdate m 0.0 hm ht
    rw [hone, hcleared] at hdone
    obtain ⟨n, ts, hn, hnext, hdown⟩ := hdone _ .ok (Prod.ext rfl hrun)
    cases ho.symm.trans hn
    obtain ⟨hclean, hdelay⟩ := Prod.mk.inj hstepped
    have hfour : ts.get .delay = 4 := UInt8.toNat_inj.1 ((hdown .delay).trans (by rw [hdelay]; rfl))
    exact ⟨_, _, hnext, rfl, hclean, hfour⟩
  · obtain ⟨-, -, hfault⟩ := hupdate m 5.0 hm ht
    rw [hthree, hcleared] at hfault
    have hends : vm.unmark.EndsAt 3 1 :=
      ⟨by decide, fun i hi => ⟨.ok, by rwa [Nat.lt_one_iff.1 hi]⟩, .inr ⟨_, hsecond⟩⟩
    obtain ⟨n, f, hn, hcause, -, hnext, -⟩ := hfault 1 _ hends hsecond
    cases hcause
    cases hp.symm.trans hn
    obtain ⟨hclean, hdelay⟩ := Prod.mk.inj hfailed
    exact ⟨_, _, hnext, rfl, rfl, hclean, hdelay⟩

end Chip8.Vm

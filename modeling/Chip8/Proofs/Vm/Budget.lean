import Chip8.Proofs.Pace.Sign
import Chip8.Proofs.Vm.Advance
import Chip8.Proofs.Vm.Reload

/-! How many steps an update carries out. A time that is negative or not finite leaves it a single
step, but an infinite time has the most steps there are, and only a fault cuts them short. -/

namespace Chip8.Vm

variable {vm : Vm} {m : Machine} {changes : Nat → Keypad → Keypad}

theorem length_moments_eq_one_iff (hr : vm.ready = .ok m) {count : Nat} (h : 0 < count) :
    (vm.moments changes count).length = 1 ↔
      count = 1 ∨ ∃ e, (vm.changeKeys (changes 0)).step.2 = .error e := by
  obtain ⟨rest, rfl⟩ := Nat.exists_eq_succ_of_ne_zero (Nat.ne_of_gt h)
  have hready : (vm.changeKeys (changes 0)).ready = .ok m := hr
  have hrest := @ready_of_step_error (vm.changeKeys (changes 0))
  rw [moments, hr]
  dsimp only
  rw [List.length_cons]
  rcases step_of_ready hready with ⟨n, flow, hs⟩ | ⟨n, f, hs⟩
  · rw [hs]
    have hnext := ready_next hready n
    cases rest with
    | zero => exact iff_of_true rfl (.inl rfl)
    | succ rest =>
      rw [moments, hnext]
      simp
  · rw [moments_of_unready (hrest (congrArg Prod.snd hs)), hs]
    exact iff_of_true rfl (.inr ⟨.fault f, rfl⟩)

theorem updateAmid_of_frameSteps_eq_one (hr : vm.ready = .ok m) {milliseconds : Float}
    (h : vm.frameSteps milliseconds = 1) :
    vm.updateAmid changes milliseconds =
      match (vm.unmark.changeKeys (changes 0)).step with
      | (next, .ok _) => (next.tick, .ok ())
      | (next, .error e) => (next, .error e) := by
  have hrun : vm.unmark.runFromAmid changes .ok (vm.frameSteps milliseconds) =
      (vm.unmark.changeKeys (changes 0)).step := by
    rw [h]
    exact runFromAmid_one ..
  unfold updateAmid
  rw [hr]
  generalize (vm.unmark.changeKeys (changes 0)).step = first at hrun
  rcases first with ⟨next, e | flow⟩
  · simp only [hrun]
  · simp only [hrun]

/-- No cycle fits into a time that is negative or not finite, so an update by it takes the mark off,
carries out one step and takes one off the timers if it succeeds. Infinity is the exception at all
frequencies but zero: it has as many cycles as there can be, and an update by it goes on until a
step fails. -/
theorem update_untimely (hm : vm.machine? = some m) (ht : vm.trap? = none) {milliseconds : Float}
    (h : milliseconds < 0 ∨ milliseconds.isFinite = false) :
    (∀ f : Frequency, f.cyclesIn milliseconds =
      if milliseconds = Float.inf ∧ f.hertz ≠ 0 then 2 ^ 64 - 1 else 0) ∧
    ∀ changes,
      let endless := milliseconds = Float.inf ∧ vm.frequency.hertz ≠ 0
      let cleared : Vm :=
        { vm with machine? := some { m with screen := { m.screen with dirty := false } } }
      let first := (cleared.changeKeys (changes 0)).step
      ((Action.executed vm ⟨.update milliseconds, changes⟩).length = 1 ↔
        ¬endless ∨ ∃ e, first.2 = .error e) ∧
      (¬endless →
        (∀ next e, first = (next, .error e) →
          vm.updateAmid changes milliseconds = (next, .error e)) ∧
        ∀ next flow, first = (next, .ok flow) →
          ∃ (n : Machine) (ts : Timers), next.machine? = some n ∧
            vm.updateAmid changes milliseconds =
              ({ next with machine? := some { n with timers := ts } }, .ok ()) ∧
            ∀ t, (ts.get t).toNat = (n.timers.get t).toNat - 1) := by
  have hr : vm.ready = .ok m := ready_eq_ok_iff.2 ⟨ht, hm⟩
  have hcycles := fun f : Frequency => f.cyclesIn_of_untimely h
  refine ⟨hcycles, fun changes => ?_⟩
  intro endless cleared first
  have hcleared : cleared = vm.unmark := (unmark_eq hm).symm
  have hsteps : vm.frameSteps milliseconds = 1 ↔ ¬endless := by
    rw [frameSteps, hcycles]
    by_cases hendless : endless
    · rw [if_pos hendless, iff_false_right (not_not_intro hendless)]
      decide
    · rw [if_neg hendless]
      exact iff_of_true rfl hendless
  refine ⟨?_, fun hendless => ?_⟩
  · have hpos : 0 < vm.frameSteps milliseconds := Nat.le_max_left ..
    rw [Action.executed_update hr, length_moments_eq_one_iff (ready_unmark hr) hpos, hsteps,
      ← hcleared]
  have hupdate : vm.updateAmid changes milliseconds =
      match first with
      | (next, .ok _) => (next.tick, .ok ())
      | (next, .error e) => (next, .error e) := by
    rw [updateAmid_of_frameSteps_eq_one hr (hsteps.2 hendless), ← hcleared]
  refine ⟨fun next e hfirst => ?_, fun next flow hfirst => ?_⟩
  · rw [hupdate, hfirst]
  · obtain ⟨-, n, -, -, hnext⟩ := machine_of_step_ok hfirst
    obtain ⟨ts, hticked, hdown⟩ := exists_tick_eq (congrArg machine? hnext)
    exact ⟨n, ts, congrArg machine? hnext, by rw [hupdate, hfirst, ← hticked], hdown⟩

/-- The one step of the frame is `7001`; the mark is taken off, and the delay timer was at five. -/
theorem update_untimely_negative :
    let small : Config := { memorySize := 88, fontStart := 0, programStart := 80, seed := some 7 }
    let program : Array Byte := #[0x00, 0xE0, 0x60, 0x05, 0xF0, 0x15, 0x70, 0x01]
    let vm := (new small).after [.load program default, .run 3]
    ∃ m, vm.machine? = some m ∧ vm.trap? = none ∧
      m.screen.dirty = true ∧ m.timers.get .delay = 5 ∧ (-5.0 : Float) < 0 ∧
      vm.frequency.cyclesIn (-5.0) = 0 ∧
      (Action.executed vm (.plain (.update (-5.0)))).length = 1 ∧
      ∃ next n, vm.update (-5.0) = (next, .ok ()) ∧ next.machine? = some n ∧
        n.screen.dirty = false ∧ n.timers.get .delay = 4 := by
  intro small program vm
  obtain ⟨m, hm, hbefore⟩ : ∃ m, vm.machine? = some m ∧
      (m.screen.dirty, m.timers.get .delay) = (true, 5) :=
    Option.map_eq_some_iff.1 (by decide +kernel)
  have ht : vm.trap? = none := by decide +kernel
  have hok : vm.unmark.step.2 = .ok .ok := by decide +kernel
  obtain ⟨o, ho, hafter⟩ : ∃ o, vm.unmark.step.1.machine? = some o ∧
      (o.screen.dirty, o.timers.get .delay) = (false, 5) :=
    Option.map_eq_some_iff.1 (by decide +kernel)
  clear_value vm
  have hneg : (-5.0 : Float) < 0 := by decide +kernel
  have hinf : (-5.0 : Float) ≠ Float.inf := by decide +kernel
  have hended : ¬((-5.0 : Float) = Float.inf ∧ vm.frequency.hertz ≠ 0) := fun h => hinf h.1
  obtain ⟨hcycles, hupdate⟩ := update_untimely hm ht (.inl hneg)
  obtain ⟨hlength, hresult⟩ := hupdate fun _ keys => keys
  have hcleared :
      { vm with machine? := some { m with screen := { m.screen with dirty := false } } } =
        vm.unmark := (unmark_eq hm).symm
  obtain ⟨-, hdone⟩ := hresult hended
  rw [hcleared] at hdone
  obtain ⟨n, ts, hn, hnext, hdown⟩ := hdone _ .ok (Prod.ext rfl hok)
  cases ho.symm.trans hn
  obtain ⟨hmarked, hfive⟩ := Prod.mk.inj hbefore
  obtain ⟨hclean, hdelay⟩ := Prod.mk.inj hafter
  have hfour : ts.get .delay = 4 := UInt8.toNat_inj.1 ((hdown .delay).trans (by rw [hdelay]; rfl))
  refine ⟨m, hm, ht, hmarked, hfive, hneg, ?_, hlength.2 (.inl hended), _, _, hnext, rfl, hclean,
    hfour⟩
  rw [hcycles, if_neg hended]

/-- An infinite time at 600 Hz: the program is run until it fails at its second word. -/
theorem update_infinite_goes_on :
    let small : Config := { memorySize := 86, fontStart := 0, programStart := 80, seed := some 7 }
    let vm := (new { small with frequency := ⟨600⟩ }).after
      [.load #[0x60, 0x01, 0xFF, 0xFF] default]
    vm.machine?.isSome ∧ vm.trap? = none ∧ Float.inf.isFinite = false ∧
      vm.frequency.cyclesIn Float.inf = 2 ^ 64 - 1 ∧
      (Action.executed vm (.plain (.update Float.inf))).length = 2 ∧
      (vm.update Float.inf).2 = .error (.fault (.unsupported 0xFFFF 82)) := by
  decide +kernel

end Chip8.Vm

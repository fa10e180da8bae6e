import Chip8.Command.Report
import Chip8.Proofs.Pace.Blinker
import Chip8.Proofs.Pace.Frame
import Chip8.Proofs.Vm.Keys

/-! What a run prints when its frames follow each other at once, and when they are waited for. The
two agree on all programs exactly if their frames have the same number of steps: a program that
blinks tells other numbers apart. -/

namespace Chip8

namespace Vm

theorem frequency_update (vm : Vm) (milliseconds : Float) :
    (vm.update milliseconds).1.frequency = vm.frequency := by
  have hstep : ∀ vm' : Vm, vm'.frequency = vm.frequency → vm'.step.1.frequency = vm.frequency := by
    intro vm' h
    unfold step
    split
    · exact h
    · split <;> exact h
  exact update_keeps hstep (fun _ h => h) (fun _ h => h) milliseconds vm rfl

theorem update_congr {vm : Vm} {a b : Float} (h : vm.frameSteps a = vm.frameSteps b) :
    vm.update a = vm.update b := by
  rw [update_eq, update_eq, h]

theorem frameSteps_congr {vm vm' : Vm} (h : vm.frequency = vm'.frequency) (milliseconds : Float) :
    vm.frameSteps milliseconds = vm'.frameSteps milliseconds := by
  rw [frameSteps, frameSteps, h]

theorem playFrom_congr {a b : Float} (count started : Nat) {vm : Vm}
    (h : vm.frameSteps a = vm.frameSteps b) :
    playFrom a started count vm = playFrom b started count vm := by
  induction count generalizing started vm with
  | zero => rfl
  | succ count ih =>
    have hkept := vm.frequency_update b
    rw [playFrom, playFrom, update_congr h]
    split
    · rename_i next heq
      rw [heq] at hkept
      apply ih
      rw [frameSteps_congr hkept, frameSteps_congr hkept, h]
    · rfl

theorem frequency_pressKeys (keys : List Key) (vm : Vm) :
    (keys.foldl pressKey vm).frequency = vm.frequency := by
  rw [foldl_pressKey]

theorem frequency_load {vm : Vm} {program : Array Byte} {entropy : Random.Key}
    (h : (vm.load program entropy).2 = .ok ()) :
    (vm.load program entropy).1.frequency = vm.config.frequency := by
  obtain ⟨glyphs, ha, hl⟩ := load_of_ok h
  rw [hl]
  rfl

end Vm

namespace Command

theorem runReport_seeded {settings : RunSettings} (h : settings.machine.seed.isSome)
    (program : Array Byte) (entropy entropy' : Random.Key) :
    runReport settings program entropy = runReport settings program entropy' := by
  obtain ⟨seed, hseed⟩ := Option.isSome_iff_exists.1 h
  have hkey := Config.randomKey_of_seed hseed
  unfold runReport
  rw [Vm.load_congr_key ((hkey entropy).trans (hkey entropy').symm)]

theorem runReport_congr {settings : RunSettings} (program : Array Byte) (entropy : Random.Key)
    (h : (Vm.new settings.machine).frameSteps Frequency.frameMilliseconds =
      (Vm.new settings.machine).frameSteps Frequency.frames.waitMilliseconds) :
    runReport { settings with unthrottled := true } program entropy =
      runReport { settings with unthrottled := false } program entropy := by
  have hload := @(Vm.new settings.machine).frequency_load program entropy
  unfold runReport
  dsimp only
  split
  · rfl
  · rename_i vm heq
    rw [heq] at hload
    have hf : (settings.keys.foldl Vm.pressKey vm).frequency =
        (Vm.new settings.machine).frequency :=
      (Vm.frequency_pressKeys settings.keys vm).trans (hload rfl)
    have hsteps : (settings.keys.foldl Vm.pressKey vm).frameSteps Frequency.frameMilliseconds =
        (settings.keys.foldl Vm.pressKey vm).frameSteps Frequency.frames.waitMilliseconds := by
      rw [Vm.frameSteps_congr hf, Vm.frameSteps_congr hf, h]
    have hplay : (settings.keys.foldl Vm.pressKey vm).play
        { settings with unthrottled := true }.frameMilliseconds settings.frames =
          (settings.keys.foldl Vm.pressKey vm).play
            { settings with unthrottled := false }.frameMilliseconds settings.frames :=
      Vm.playFrom_congr settings.frames 0 hsteps
    rw [hplay]

end Command

namespace Blinker

def settings (delay : Nat) (f : Frequency) (unthrottled : Bool) : RunSettings :=
  { frames := 1, unthrottled := unthrottled, machine := config delay f }

theorem head?_runReport (delay period : Nat) (f : Frequency) (unthrottled : Bool)
    (entropy : Random.Key) (hd : delay ≤ 200) (hp : 3 ≤ period) (hp' : period ≤ 256) :
    (Command.runReport (settings delay f unthrottled) (program delay period)
      entropy).output.toList.head? =
      some (if position delay period ((Vm.new (config delay f)).frameSteps
        (settings delay f unthrottled).frameMilliseconds) = delay + 1 then '#' else '.') := by
  obtain ⟨m, hload, hfresh⟩ : ∃ m, (Vm.new (config delay f)).load (program delay period) entropy =
      ((Vm.new (config delay f)).started m, .ok ()) ∧ Blinks delay period 0 m :=
    ⟨_, Vm.load_of_accepts (accepts f hd hp'), blinks_fresh f _ entropy hd hp hp'⟩
  obtain ⟨n, hupdate, hn⟩ := update_blinks ((Vm.new (config delay f)).started m)
    (settings delay f unthrottled).frameMilliseconds rfl rfl hfresh hd hp hp'
  rw [next_iterate (by omega)] at hn
  have hreport : (Command.runReport (settings delay f unthrottled) (program delay period)
      entropy).output = n.screen.text ++ "\n" := by
    unfold Command.runReport
    rw [show (Vm.new (settings delay f unthrottled).machine).load (program delay period) entropy = _
      from hload]
    change (Vm.playFrom (settings delay f unthrottled).frameMilliseconds 0 1
      ((Vm.new (config delay f)).started m)).1.screenText ++ "\n" = _
    rw [Vm.playFrom, hupdate]
    rfl
  have hw : 0 < n.screen.width := by
    rw [hn.width]
    decide
  have hh : 0 < n.screen.height := by
    rw [hn.height]
    decide
  rw [hreport, String.toList_append, List.head?_append, Screen.head?_text hw hh, hn.lit]
  simp only [decide_eq_true_eq, Option.some_or]
  rfl

theorem position_start {a period : Nat} (ha : 1 ≤ a) (hp : 2 ≤ period) :
    position ((a - 1) % period) period a = (a - 1) % period + 1 := by
  have hle : (a - 1) % period ≤ a - 1 := Nat.mod_le _ _
  have hsub : a - (a - 1) % period = 1 + period * ((a - 1) / period) := by
    have hdiv := Nat.mod_add_div (a - 1) period
    omega
  have hone : 1 % period = 1 := Nat.mod_eq_of_lt hp
  have hstarted : ¬a < (a - 1) % period := by omega
  rw [position, if_neg hstarted, hsub, Nat.add_mul_mod_self_left, hone]

theorem mod_eq_of_position {delay period n : Nat} (h : position delay period n = delay + 1) :
    n % period = (delay + 1) % period := by
  unfold position at h
  split at h
  · omega
  · have hmod : (n - delay) % period = 1 := by omega
    have hsplit : n = n - delay + delay := by omega
    rw [hsplit, ← Nat.mod_add_mod, hmod, Nat.add_comm]

theorem foldr_lcm_dvd {n : Nat} (l : List Nat) (h : ∀ q ∈ l, q ∣ n) : l.foldr Nat.lcm 1 ∣ n := by
  induction l with
  | nil => exact Nat.one_dvd n
  | cons q rest ih =>
    have hrest := ih fun p hp => h p (List.mem_cons_of_mem q hp)
    exact Nat.lcm_dvd (h q List.mem_cons_self) hrest

theorem exists_period {a b : Nat} (hlt : a < b) (hb : b < 2 ^ 64) :
    ∃ period, 3 ≤ period ∧ period ≤ 53 ∧ a % period ≠ b % period := by
  by_contra hnone
  push Not at hnone
  -- otherwise their difference is a multiple of more than all words
  have hdvd : ∀ q ∈ List.range' 3 51, q ∣ b - a := by
    intro q hq
    obtain ⟨h1, h2⟩ := List.mem_range'_1.1 hq
    have hmod := hnone q h1 (by omega)
    exact Nat.dvd_of_mod_eq_zero (Nat.sub_mod_eq_zero_of_mod_eq hmod.symm)
  have hlcm := Nat.le_of_dvd (by omega) (foldr_lcm_dvd _ hdvd)
  have hlarge : 2 ^ 64 ≤ (List.range' 3 51).foldr Nat.lcm 1 := by decide +kernel
  omega

theorem exists_output_ne {f : Frequency}
    (h : ∀ c : Config, c.frequency = f → (Vm.new c).frameSteps Frequency.frameMilliseconds ≠
      (Vm.new c).frameSteps Frequency.frames.waitMilliseconds) (entropy : Random.Key) :
    ∃ delay period,
      (Command.runReport (settings delay f false) (program delay period) entropy).output ≠
        (Command.runReport (settings delay f true) (program delay period) entropy).output := by
  obtain ⟨hfree, hfree'⟩ := frameSteps_lt (Vm.new (config 0 f)) Frequency.frameMilliseconds
  obtain ⟨-, hpaced⟩ := frameSteps_lt (Vm.new (config 0 f)) Frequency.frames.waitMilliseconds
  have hne := h (config 0 f) rfl
  have hfrees : ∀ delay, (Vm.new (config delay f)).frameSteps
      (settings delay f true).frameMilliseconds =
        (Vm.new (config 0 f)).frameSteps Frequency.frameMilliseconds := fun _ => rfl
  have hpaceds : ∀ delay, (Vm.new (config delay f)).frameSteps
      (settings delay f false).frameMilliseconds =
        (Vm.new (config 0 f)).frameSteps Frequency.frames.waitMilliseconds := fun _ => rfl
  generalize (Vm.new (config 0 f)).frameSteps Frequency.frameMilliseconds = a at *
  generalize (Vm.new (config 0 f)).frameSteps Frequency.frames.waitMilliseconds = b at *
  obtain ⟨period, hp, hp', hmod⟩ : ∃ period, 3 ≤ period ∧ period ≤ 53 ∧ a % period ≠ b % period := by
    rcases Nat.lt_or_gt_of_ne hne with hlt | hlt
    · exact exists_period hlt hpaced
    · obtain ⟨period, hp, hp', hmod⟩ := exists_period hlt hfree'
      exact ⟨period, hp, hp', hmod.symm⟩
  have hdelay : (a - 1) % period < period := Nat.mod_lt _ (by omega)
  refine ⟨(a - 1) % period, period, fun heq => hmod ?_⟩
  have hhead := congrArg (fun output => output.toList.head?) heq
  have hlit := position_start hfree (show 2 ≤ period by omega)
  rw [head?_runReport _ _ f false entropy (by omega) hp (by omega),
    head?_runReport _ _ f true entropy (by omega) hp (by omega), hfrees, hpaceds,
    if_pos hlit] at hhead
  -- the corner is lit after both, so both are one step into a period
  have hlit' : position ((a - 1) % period) period b = (a - 1) % period + 1 := by
    by_contra hdark
    rw [if_neg hdark] at hhead
    exact absurd hhead (by decide)
  rw [mod_eq_of_position hlit, mod_eq_of_position hlit']

end Blinker

namespace Command

/-- Waiting for the frames of a run changes neither what it prints nor its status, whatever the
program, for exactly these frequencies: 60 hertz, and those that are no more than 25000000 times
their rest modulo 60. -/
theorem runReport_pace_iff (f : Frequency) :
    (∀ (settings : RunSettings) (program : Array Byte) (entropy entropy' : Random.Key),
      settings.machine.frequency = f → settings.machine.seed.isSome →
        let free := runReport { settings with unthrottled := true } program entropy
        let paced := runReport { settings with unthrottled := false } program entropy'
        paced.output = free.output ∧ paced.status = free.status) ↔
      f.hertz.toNat = 60 ∨ f.hertz.toNat ≤ 25000000 * (f.hertz.toNat % 60) := by
  constructor
  · intro h
    by_contra hfreq
    have hne : ∀ c : Config, c.frequency = f →
        (Vm.new c).frameSteps Frequency.frameMilliseconds ≠
          (Vm.new c).frameSteps Frequency.frames.waitMilliseconds := by
      rintro c rfl heq
      exact hfreq ((frameSteps_eq_iff (Vm.new c)).1 heq)
    obtain ⟨delay, period, hout⟩ := Blinker.exists_output_ne hne default
    exact hout
      (h (Blinker.settings delay f true) (Blinker.program delay period) default default rfl rfl).1
  · intro hfreq settings program entropy entropy' hf hseed
    have hsteps := (frameSteps_eq_iff (Vm.new settings.machine)).2 (by rwa [← hf] at hfreq)
    have hpaced : { settings with unthrottled := false }.machine.seed.isSome := hseed
    rw [runReport_congr program entropy hsteps, runReport_seeded hpaced program entropy' entropy]
    exact ⟨rfl, rfl⟩

/-- At 600 hertz a frame has ten instructions, and nine if it is waited for. The tenth of this
program lights the corner. -/
theorem runReport_pace_600 :
    let settings : RunSettings :=
      { frames := 1
        machine := { programStart := 494, fontStart := 0, frequency := ⟨600⟩, seed := some 0 } }
    let program : Array Byte := #[
      0x60, 0x00, 0x60, 0x00, 0x60, 0x00, 0x60, 0x00, 0x60, 0x00, 0x60, 0x00, 0x60, 0x00, 0x60, 0x00,
      0x60, 0x00, 0xD0, 0x01, 0xD0, 0x01, 0x12, 0x00]
    (runReport { settings with unthrottled := true } program default).output.toList.head? =
        some '#' ∧
      (runReport { settings with unthrottled := false } program default).output.toList.head? =
        some '.' := by
  intro settings program
  have hprogram : program = Blinker.program 9 3 := by decide
  have hfree := Blinker.head?_runReport 9 3 ⟨600⟩ true default (by decide) (by decide) (by decide)
  have hpaced := Blinker.head?_runReport 9 3 ⟨600⟩ false default (by decide) (by decide) (by decide)
  have hsteps : (Vm.new (Blinker.config 9 ⟨600⟩)).frameSteps
      (Blinker.settings 9 ⟨600⟩ true).frameMilliseconds = 10 := by decide +kernel
  have hsteps' : (Vm.new (Blinker.config 9 ⟨600⟩)).frameSteps
      (Blinker.settings 9 ⟨600⟩ false).frameMilliseconds = 9 := by decide +kernel
  rw [hsteps] at hfree
  rw [hsteps'] at hpaced
  rw [hprogram]
  exact ⟨hfree, hpaced⟩

end Command

end Chip8

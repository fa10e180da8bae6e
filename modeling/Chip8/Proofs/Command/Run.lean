import Chip8.Command.Report
import Chip8.Proofs.Vm.Advance
import Chip8.Proofs.Vm.Keys

/-! What a run prints. The keys go down once the program is loaded and stay down, frames follow each
other up to the first that fails, and the screen is printed as it stands then, so that a fault
neither hides the picture nor is passed over. -/

namespace Chip8

theorem RunSettings.frameMilliseconds_eq (s : RunSettings) :
    s.frameMilliseconds =
      if s.unthrottled then 1000.0 / 60.0 else Frequency.waitMilliseconds ⟨60⟩ := by
  have hframes : Frequency.frames.hertz.toFloat = 60.0 := by decide +kernel
  rw [frameMilliseconds, Frequency.frameMilliseconds, hframes]
  rfl

namespace Vm

def played (vm : Vm) (milliseconds : Float) (count : Nat) : Vm :=
  (fun vm => (vm.update milliseconds).1)^[count] vm

variable {vm : Vm} {milliseconds : Float} {count j : Nat}

theorem played_succ (vm : Vm) (milliseconds : Float) (count : Nat) :
    vm.played milliseconds (count + 1) = (vm.update milliseconds).1.played milliseconds count :=
  Function.iterate_succ_apply ..

theorem played_succ' (vm : Vm) (milliseconds : Float) (count : Nat) :
    vm.played milliseconds (count + 1) = ((vm.played milliseconds count).update milliseconds).1 :=
  Function.iterate_succ_apply' ..

theorem playFrom_add
    (hok : ∀ i < count, ((vm.played milliseconds i).update milliseconds).2 = .ok ())
    (started more : Nat) :
    playFrom milliseconds started (count + more) vm =
      playFrom milliseconds (started + count) more (vm.played milliseconds count) := by
  induction count generalizing started vm with
  | zero => rw [Nat.zero_add, Nat.add_zero]; rfl
  | succ count ih =>
    -- the first frame is taken off, as it is where the run goes on from
    have hfirst : (vm.update milliseconds).2 = .ok () := hok 0 (Nat.succ_pos count)
    have hrest : ∀ i < count,
        (((vm.update milliseconds).1.played milliseconds i).update milliseconds).2 = .ok () := by
      intro i hi
      rw [← played_succ]
      exact hok (i + 1) (Nat.succ_lt_succ hi)
    have hlater := ih hrest (started + 1)
    rw [Nat.succ_add, playFrom, played_succ]
    generalize vm.update milliseconds = result at hfirst hlater
    obtain ⟨next, answer⟩ := result
    cases hfirst
    rwa [Nat.add_assoc, Nat.add_comm 1] at hlater

theorem play_of_ok
    (hok : ∀ i < count, ((vm.played milliseconds i).update milliseconds).2 = .ok ()) :
    vm.play milliseconds count = (vm.played milliseconds count, none, count) := by
  have hplay := playFrom_add hok 0 0
  rwa [Nat.zero_add] at hplay

theorem play_of_error (hj : j < count)
    (hok : ∀ i < j, ((vm.played milliseconds i).update milliseconds).2 = .ok ()) {e : Error}
    (he : ((vm.played milliseconds j).update milliseconds).2 = .error e) :
    vm.play milliseconds count = (vm.played milliseconds (j + 1), some e, j + 1) := by
  obtain ⟨rest, rfl⟩ := Nat.exists_eq_add_of_lt hj
  rw [play, Nat.add_assoc, playFrom_add hok, playFrom, played_succ', Nat.zero_add]
  generalize (vm.played milliseconds j).update milliseconds = result at he
  obtain ⟨next, answer⟩ := result
  cases he
  rfl

theorem playFrom_played (vm : Vm) (milliseconds : Float) (started count : Nat) :
    ∃ done, (playFrom milliseconds started count vm).1 = vm.played milliseconds done ∧
      (playFrom milliseconds started count vm).2.2 = started + done := by
  induction count generalizing started vm with
  | zero => exact ⟨0, rfl, rfl⟩
  | succ count ih =>
    have hnext := vm.played_succ milliseconds
    rw [playFrom]
    generalize vm.update milliseconds = result at hnext ⊢
    obtain ⟨next, e | _⟩ := result
    · exact ⟨1, (hnext 0).symm, rfl⟩
    · obtain ⟨done, hplayed, hcount⟩ := ih next (started + 1)
      exact ⟨done + 1, hplayed.trans (hnext done).symm,
        by rw [hcount, Nat.add_assoc, Nat.add_comm 1]⟩

theorem play_fst (vm : Vm) (milliseconds : Float) (count : Nat) :
    (vm.play milliseconds count).1 =
      vm.played milliseconds (vm.play milliseconds count).2.2 := by
  obtain ⟨done, hplayed, hcount⟩ := vm.playFrom_played milliseconds 0 count
  rw [Nat.zero_add] at hcount
  rw [play, hplayed, hcount]

theorem ready_of_update_ok (h : (vm.update milliseconds).2 = .ok ()) :
    ∃ m, (vm.update milliseconds).1.ready = .ok m := by
  cases hr : vm.ready with
  | error e =>
    rw [update_eq, hr] at h
    cases h
  | ok m =>
    rcases perform_of_ready hr (o := .update milliseconds) trivial with ⟨n, _, hp, -⟩ | ⟨n, f, hp⟩
    · have hnext : (vm.update milliseconds).1 = { vm with machine? := some n } :=
        congrArg Prod.fst hp
      rw [hnext]
      exact ⟨n, ready_next hr n⟩
    · have hfailed : Answer.ofUnit (vm.update milliseconds).2 = .failed (.fault f) :=
        congrArg Prod.snd hp
      rw [h] at hfailed
      cases hfailed

theorem ready_played {m : Machine} (hr : vm.ready = .ok m)
    (hok : ∀ i < j, ((vm.played milliseconds i).update milliseconds).2 = .ok ()) :
    ∃ n, (vm.played milliseconds j).ready = .ok n := by
  cases j with
  | zero => exact ⟨m, hr⟩
  | succ j =>
    rw [played_succ']
    exact ready_of_update_ok (hok j j.lt_succ_self)

theorem keys_of_mem_moments {moment : Moment}
    (h : moment ∈ vm.moments (fun _ keys => keys) count) : moment.keys = vm.keys := by
  induction count generalizing vm with
  | zero => cases h
  | succ count ih =>
    rw [moments] at h
    split at h
    · cases h
    · rcases List.mem_cons.1 h with rfl | hrest
      · rfl
      · rw [ih hrest]
        exact keys_step _

theorem keys_of_mem_executed {moment : Moment}
    (h : moment ∈ vm.executed (List.replicate count (.plain (.update milliseconds)))) :
    moment.keys = vm.keys := by
  induction count generalizing vm with
  | zero => cases h
  | succ count ih =>
    rw [List.replicate_succ, executed, Action.perform_plain] at h
    rcases List.mem_append.1 h with hfirst | hrest
    · cases hr : vm.ready with
      | error e =>
        rw [Action.plain, Action.executed, Action.effects, hr] at hfirst
        cases hfirst
      | ok m =>
        rw [Action.plain, Action.executed_update hr] at hfirst
        have hkept : moment.keys = vm.unmark.keys := keys_of_mem_moments hfirst
        exact hkept
    · rw [ih hrest]
      exact keys_update vm milliseconds

theorem update_error_cases {m : Machine} (hr : vm.ready = .ok m) {e : Error}
    (he : (vm.update milliseconds).2 = .error e) :
    ∃ k n f, vm.unmark.EndsAt (vm.frameSteps milliseconds) k ∧
      (vm.unmark.stepped k).machine? = some n ∧ n.Faults f ∧ e = .fault f ∧
      (vm.update milliseconds).1.screenText = n.screen.text := by
  have hpos : 0 < vm.frameSteps milliseconds := Nat.le_max_left ..
  obtain ⟨k, hk⟩ := vm.unmark.exists_endsAt hpos
  have hrun : vm.unmark.run (vm.frameSteps milliseconds) = (vm.unmark.stepped k).step :=
    runFrom_of_endsAt .ok hk
  rcases hstep : (vm.unmark.stepped k).step with ⟨next, e' | flow⟩
  · obtain ⟨n, f, hn, rfl, hf, hupdate⟩ := update_of_endsAt hr hk (congrArg Prod.snd hstep)
    rw [hupdate] at he ⊢
    cases he
    exact ⟨k, n, f, hk, hn, hf, rfl, rfl⟩
  · rw [update_of_run_ok hr (hrun.trans hstep)] at he
    cases he

end Vm

namespace Command

variable {settings : RunSettings} {program : Array Byte} {entropy : Random.Key}

theorem runReport_of_load {loaded : Vm}
    (hload : (Vm.new settings.machine).load program entropy = (loaded, .ok ())) :
    runReport settings program entropy =
      let start : Vm := { loaded with keys := settings.keys.foldl Keypad.press {} }
      let played := start.play settings.frameMilliseconds settings.frames
      { output := played.1.screenText ++ "\n"
        failure? := played.2.1.map .error
        frames := played.2.2 } := by
  have hkeys : loaded.keys = {} := by
    obtain ⟨glyphs, ha, hl⟩ := Vm.load_of_ok (congrArg Prod.snd hload)
    cases hload.symm.trans hl
    rfl
  unfold runReport
  rw [hload]
  dsimp only
  rw [Vm.foldl_pressKey, hkeys]

theorem report_run {reader : SettingsReader} {files : Files} {name : String}
    {settings? : Option String} {rom : ByteArray}
    (hsettings : files.settings reader settings? = .ok settings) (hrom : files name = some rom) :
    (run name settings?).report reader files entropy = runReport settings rom.data entropy := by
  rw [report, withFiles, hsettings]
  dsimp only
  rw [Files.program, hrom]

/-- A run whose load fails prints nothing. Else the keys of its settings, and no others, are down at
every step, and frames are played up to the first that fails, or as many as the settings ask for.
What is printed is the screen as it stands then, after a fault with all that the steps before it
have drawn, and the status tells whether a frame failed. All this holds for any reader of settings
and any key that is drawn where the settings have no seed. -/
theorem run_prints_screen {reader : SettingsReader} {files : Files} {name : String}
    {settings? : Option String} {rom : ByteArray}
    (hsettings : files.settings reader settings? = .ok settings)
    (hrom : files name = some rom) (entropy : Random.Key) :
    let config := settings.machine
    let elapsed : Float :=
      if settings.unthrottled then 1000.0 / 60.0 else Frequency.waitMilliseconds ⟨60⟩
    let r := (run name settings?).report reader files entropy
    (∀ kept e, (Vm.new config).load rom.data entropy = (kept, .error e) →
      r.output = "" ∧ r.status = 1 ∧ r.frames = 0) ∧
    ∀ loaded, (Vm.new config).load rom.data entropy = (loaded, .ok ()) →
      ∃ keys : Keypad, (∀ id, keys.isPressed id = true ↔ ∃ key ∈ settings.keys, key.val = id) ∧
        let start : Vm := { loaded with keys := keys }
        (∀ moment ∈ start.executed (List.replicate r.frames (.plain (.update elapsed))),
          moment.keys = keys) ∧
        r.output = (start.played elapsed r.frames).screenText ++ "\n" ∧
        (∀ j < settings.frames,
          (∀ i < j, ((start.played elapsed i).update elapsed).2 = .ok ()) →
          ∀ e, ((start.played elapsed j).update elapsed).2 = .error e →
            r.frames = j + 1 ∧ r.status = 1 ∧
            ∃ k n f, (start.played elapsed j).unmark.EndsAt
                ((start.played elapsed j).frameSteps elapsed) k ∧
              ((start.played elapsed j).unmark.stepped k).machine? = some n ∧
              n.Faults f ∧ e = .fault f ∧ r.output = n.screen.text ++ "\n") ∧
        ((∀ i < settings.frames, ((start.played elapsed i).update elapsed).2 = .ok ()) →
          r.frames = settings.frames ∧ r.status = 0) := by
  intro config elapsed r
  have helapsed : settings.frameMilliseconds = elapsed := settings.frameMilliseconds_eq
  have hr : r = runReport settings rom.data entropy := report_run hsettings hrom
  refine ⟨fun kept e hload => ?_, fun loaded hload => ?_⟩
  · rw [hr, runReport, hload]
    exact ⟨rfl, rfl, rfl⟩
  · refine ⟨settings.keys.foldl Keypad.press {}, fun id => ?_, ?_⟩
    · have hup : ({} : Keypad).isPressed id = false := BitVec.getLsbD_zero
      rw [Keypad.isPressed_foldl_press, hup]
      simp only [Bool.false_eq_true, false_or]
    · intro start
      obtain ⟨m, hready⟩ : ∃ m, start.ready = .ok m := by
        obtain ⟨glyphs, ha, hl⟩ := Vm.load_of_ok (congrArg Prod.snd hload)
        cases hload.symm.trans hl
        exact ⟨_, Vm.ready_eq_ok_iff.2 ⟨rfl, rfl⟩⟩
      have hreport : r =
          { output := (start.play elapsed settings.frames).1.screenText ++ "\n"
            failure? := (start.play elapsed settings.frames).2.1.map .error
            frames := (start.play elapsed settings.frames).2.2 } := by
        rw [hr, runReport_of_load hload, ← helapsed]
      rw [hreport]
      refine ⟨fun moment hmoment => Vm.keys_of_mem_executed hmoment, ?_,
        fun j hj hok e he => ?_, fun hok => ?_⟩
      · dsimp only
        rw [Vm.play_fst]
      · obtain ⟨n, hn⟩ := Vm.ready_played hready hok
        obtain ⟨k, o, f, hends, ho, hfault, hcause, hscreen⟩ := Vm.update_error_cases hn he
        rw [Vm.play_of_error hj hok he]
        refine ⟨rfl, rfl, k, o, f, hends, ho, hfault, hcause, ?_⟩
        rw [Vm.played_succ', hscreen]
      · rw [Vm.play_of_ok hok]
        exact ⟨rfl, rfl⟩

/-- The lower of two keys is waited for, its digit is drawn around the corner of a small screen, and
the frame fails behind that. -/
theorem run_prints_screen_of_held_keys :
    let machine : Config := {
      memorySize := 88, fontStart := 0, programStart := 80, screenWidth := 4, screenHeight := 5 }
    let text := "keys: [3, 1]\nmachine:\n  memory_size: 88\n  font_start: 0\n" ++
      "  program_start: 80\n  display_width: 4\n  display_height: 5\n"
    let reader : SettingsReader := fun input =>
      if input = text then .ok { keys := [3, 1], machine := machine } else .error "unknown"
    let program : Array Byte := #[0xF0, 0x0A, 0xF0, 0x29, 0xD0, 0x05, 0xFF, 0xFF]
    let files : Files := fun name =>
      if name = "held.yaml" then some text.toUTF8
      else if name = "digit.ch8" then some ⟨program⟩ else none
    let r := (run "digit.ch8" (some "held.yaml")).report reader files default
    files.settings reader (some "held.yaml") = .ok { keys := [3, 1], machine := machine } ∧
      files "digit.ch8" = some ⟨program⟩ ∧
      r.frames = 1 ∧ r.status = 1 ∧ r.output = "#.##\n...#\n..##\n...#\n...#\n\n" := by
  intro machine text reader program files r
  let vm : Vm := Vm.new machine
  have hsettings : files.settings reader (some "held.yaml") =
      .ok { keys := [3, 1], machine := machine } := by decide +kernel
  have hrom : files "digit.ch8" = some ⟨program⟩ := rfl
  have hdone : (vm.load program default).2 = .ok () := by
    have ha : vm.Accepts program Glyphs.chip48 :=
      ⟨Config.describes_of_check rfl, rfl, rfl, by decide, by decide⟩
    rw [Vm.load_of_accepts ha]
  have hload : vm.load program default = ((vm.load program default).1, .ok ()) := by rw [← hdone]
  obtain ⟨-, hrun⟩ := run_prints_screen hsettings hrom default
  obtain ⟨keys, hkeys, -, hprinted, hfails, -⟩ := hrun _ hload
  have hheld : keys = ⟨0b1010⟩ := by
    have hlist : ∀ key : Key, (∃ other ∈ [(3 : Key), 1], other.val = key.val) ↔
        (⟨0b1010⟩ : Keypad).isPressed key = true := by decide
    exact Keypad.ext_isPressed fun key => Bool.eq_iff_iff.2 ((hkeys key).trans (hlist key))
  subst hheld
  obtain ⟨hframes, hstatus, -⟩ := hfails 0 (by decide)
    (fun i hi => absurd hi (Nat.not_lt_zero i)) (.fault (.unsupported 0xFFFF 86))
    (by decide +kernel)
  refine ⟨hsettings, hrom, hframes, hstatus, ?_⟩
  rw [hprinted, hframes]
  decide +kernel

end Command

end Chip8

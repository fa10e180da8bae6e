import Chip8.Proofs.Machine.Timers
import Chip8.Proofs.Vm.Effect
import Chip8.Proofs.Vm.Reload

/-! The timers count frames. Whatever a host does between two loads, a timer shows the value that
was stored in it last, less one for every update that was done since. -/

namespace Chip8

inductive TimerEvent where
  | stored (timer : Timer) (value : Byte)
  | frame
  deriving DecidableEq, Repr

def Timers.record (ts : Timers) : TimerEvent → Timers
  | .stored t value => ts.set value t
  | .frame => ts.tick

def Effect.timerEvents : Effect → List TimerEvent
  | .unmark => []
  | .step moment => (moment.machine.stored?.map fun (t, value) => .stored t value).toList
  | .tick => [.frame]

namespace Timers

variable {t : Timer} {events : List TimerEvent}

theorem toNat_get_foldl (h : ∀ value, .stored t value ∉ events) (ts : Timers) :
    ((events.foldl record ts).get t).toNat = (ts.get t).toNat - events.count .frame := by
  induction events generalizing ts with
  | nil => rfl
  | cons e rest ih =>
    have hrest : ∀ value, .stored t value ∉ rest :=
      fun value hmem => h value (List.mem_cons_of_mem e hmem)
    rw [List.foldl_cons, ih hrest]
    cases e with
    | stored other value =>
      have hother : other ≠ t := fun heq => h value (heq ▸ List.mem_cons_self)
      rw [record, get_set, if_neg hother, List.count_cons_of_ne (by simp)]
    | frame => rw [record, toNat_get_tick, List.count_cons_self, Nat.sub_sub, Nat.add_comm 1]

theorem get_foldl_of_no_frame (h : .frame ∉ events) (ts : Timers) :
    (events.foldl record ts).get t = ts.get t ∨
      .stored t ((events.foldl record ts).get t) ∈ events := by
  induction events generalizing ts with
  | nil => exact .inl rfl
  | cons e rest ih =>
    have hrest : .frame ∉ rest := fun hmem => h (List.mem_cons_of_mem e hmem)
    rw [List.foldl_cons]
    rcases ih hrest (ts.record e) with hkept | hstored
    · cases e with
      | stored other value =>
        rw [hkept, record, get_set]
        split_ifs with heq
        · exact .inr (heq ▸ List.mem_cons_self)
        · exact .inl rfl
      | frame => exact absurd List.mem_cons_self h
    · exact .inr (List.mem_cons_of_mem e hstored)

end Timers

theorem recorded_timers :
    Recorded Machine.timers fun ts effect => effect.timerEvents.foldl Timers.record ts where
  unmark _ := rfl
  step moment := by
    rw [Moment.next, Machine.timers_step, Effect.timerEvents]
    rcases moment.machine.stored? with _ | ⟨t, value⟩ <;> rfl
  tick _ := rfl

namespace Vm

variable {vm : Vm} {t : Timer} {program : Array Byte} {entropy : Random.Key}

theorem operation_of_tick_mem {a : Action} (h : .tick ∈ a.effects vm) :
    (∃ milliseconds, a.operation = .update milliseconds) ∧ (a.perform vm).2 = .done := by
  have hsteps (moments : List Moment) : Effect.tick ∉ moments.map .step := by
    intro hmem
    obtain ⟨moment, heq⟩ := Effect.eq_step_of_mem hmem
    cases heq
  obtain ⟨o, changes⟩ := a
  unfold Action.effects at h
  cases o with
  | step => exact absurd h (hsteps _)
  | run count => exact absurd h (hsteps _)
  | update milliseconds =>
    refine ⟨⟨milliseconds, rfl⟩, ?_⟩
    dsimp only at h
    split at h
    · cases h
    · rcases List.mem_append.1 h with hrun | hlast
      · rcases List.mem_cons.1 hrun with heq | hmem
        · cases heq
        · exact absurd hmem (hsteps _)
      · unfold Answer.ticks at hlast
        split at hlast
        · assumption
        · cases hlast
        · cases hlast
  | _ => cases h

theorem frame_mem_iff {effects : List Effect} :
    .frame ∈ effects.flatMap Effect.timerEvents ↔ .tick ∈ effects := by
  rw [List.mem_flatMap]
  constructor
  · rintro ⟨effect, hmem, hframe⟩
    cases effect with
    | unmark => cases hframe
    | step moment => simp [Effect.timerEvents] at hframe
    | tick => exact hmem
  · intro hmem
    exact ⟨.tick, hmem, List.mem_singleton_self _⟩

theorem stored_mem_iff {effects : List Effect} {value : Byte} :
    .stored t value ∈ effects.flatMap Effect.timerEvents ↔
      ∃ moment, .step moment ∈ effects ∧ moment.machine.stored? = some (t, value) := by
  rw [List.mem_flatMap]
  constructor
  · rintro ⟨effect, hmem, hstored⟩
    cases effect with
    | unmark => cases hstored
    | step moment =>
      refine ⟨moment, hmem, ?_⟩
      simpa [Effect.timerEvents] using hstored
    | tick => simp [Effect.timerEvents] at hstored
  · rintro ⟨moment, hmem, heq⟩
    refine ⟨.step moment, hmem, ?_⟩
    rw [Effect.timerEvents, heq]
    exact List.mem_singleton_self _

theorem machine_of_load (h : (vm.load program entropy).2 = .ok ()) :
    ∃ m, (vm.load program entropy).1.machine? = some m ∧ m.timers = {} := by
  obtain ⟨glyphs, ha, hl⟩ := load_of_ok h
  rw [hl]
  exact ⟨_, rfl, rfl⟩

/-- Since a load, a timer shows the value that was stored in it last, less one for every update
that was done after that, down to zero. Nothing else counts down: what is no update, or an update
that fails, leaves a timer as it was or with a value that one of its instructions has stored. -/
theorem timers_count_frames {later : List Action} (hload : (vm.load program entropy).2 = .ok ())
    (hlater : (vm.load program entropy).1.Throughout (fun vm a => ¬vm.Loads a.operation) later) :
    let now := ((vm.load program entropy).1.undergo later).1
    let events := ((vm.load program entropy).1.effects later).flatMap Effect.timerEvents
    (∃ m, now.machine? = some m ∧ ∀ t,
        ((∀ value, .stored t value ∉ events) → m.timers.get t = 0) ∧
        ∀ before value after, events = before ++ .stored t value :: after →
          (∀ value', .stored t value' ∉ after) →
          (m.timers.get t).toNat = value.toNat - after.count .frame) ∧
      ∀ (other : Vm) (a : Action) (n : Machine), other.machine? = some n →
        ¬other.Loads a.operation →
        (∀ milliseconds, a.operation = .update milliseconds → (a.perform other).2 ≠ .done) →
        ∃ o, (a.perform other).1.machine? = some o ∧ ∀ t,
          o.timers.get t = n.timers.get t ∨
            ∃ moment, .step moment ∈ a.effects other ∧
              moment.machine.stored? = some (t, o.timers.get t) := by
  intro now events
  obtain ⟨fresh, hfresh, hzero⟩ := machine_of_load hload
  refine ⟨?_, fun other a n hn hidle hupdate => ?_⟩
  · obtain ⟨m, hm, htimers⟩ := recorded_timers.undergo hlater hfresh
    have htimers : m.timers = events.foldl Timers.record {} := by
      rw [htimers, hzero, List.foldl_flatMap]
    refine ⟨m, hm, fun t => ⟨fun hnone => ?_, fun before value after hevents hlast => ?_⟩⟩
    · refine UInt8.toNat_inj.1 ?_
      rw [htimers, Timers.toNat_get_foldl hnone]
      cases t <;> exact Nat.zero_sub _
    · rw [htimers, hevents, List.foldl_append, List.foldl_cons, Timers.toNat_get_foldl hlast,
        Timers.record, Timers.get_set, if_pos rfl]
  · obtain ⟨o, ho, htimers⟩ := recorded_timers.act hidle hn
    have hframe : .frame ∉ (a.effects other).flatMap Effect.timerEvents := by
      rw [frame_mem_iff]
      intro htick
      obtain ⟨⟨milliseconds, hop⟩, hdone⟩ := operation_of_tick_mem htick
      exact hupdate milliseconds hop hdone
    refine ⟨o, ho, fun t => ?_⟩
    rw [← stored_mem_iff, htimers, ← List.foldl_flatMap]
    exact Timers.get_foldl_of_no_frame hframe n.timers

theorem timers_count_frames_of_delay :
    let vm := new { memorySize := 86, fontStart := 0, programStart := 80, seed := some 7 }
    let program : Array Byte := #[0x60, 0x05, 0xF0, 0x15, 0x12, 0x04]
    let later : List Action := [.plain (.run 2), .plain (.update 0.0)]
    (vm.load program default).2 = .ok () ∧
      (vm.load program default).1.Throughout (fun vm a => ¬vm.Loads a.operation) later ∧
      ∃ m, ((vm.load program default).1.undergo later).1.machine? = some m ∧
        (m.timers.get .delay).toNat = 4 ∧ m.timers.get .sound = 0 := by
  intro vm program later
  have ha : vm.Accepts program Glyphs.chip48 :=
    ⟨Config.describes_of_check rfl, rfl, rfl, by decide, by decide⟩
  have hload : (vm.load program default).2 = .ok () := by rw [load_of_accepts ha]
  have hlater :
      (vm.load program default).1.Throughout (fun vm a => ¬vm.Loads a.operation) later := by
    refine ⟨?_, ?_, trivial⟩ <;> rintro ⟨program, entropy, ⟨⟩, -⟩
  have hevents : ((vm.load program default).1.effects later).flatMap Effect.timerEvents =
      [] ++ .stored .delay 5 :: [.frame] := by decide +kernel
  obtain ⟨⟨m, hm, htimers⟩, -⟩ := timers_count_frames hload hlater
  refine ⟨hload, hlater, m, hm, ?_, ?_⟩
  · exact (htimers .delay).2 _ _ _ hevents (by simp)
  · exact (htimers .sound).1 (by simp [hevents])

end Vm

end Chip8

import Chip8.Proofs.Vm.Invariant
import Chip8.Proofs.Vm.Load

/-! The three states of a virtual machine: without a machine, with one that can be stepped, and with
one that is trapped. Only a load that succeeds leads out of the first and the last. -/

namespace Chip8

def Operation.Advances : Operation → Prop
  | .step | .update _ => True
  | .run count => 0 < count
  | .load _ _ | .setFrequency _ | .setKey _ _ | .clearKeys => False

theorem Answer.ofUnit_eq_done_iff {r : Except Error Unit} : ofUnit r = .done ↔ r = .ok () := by
  rcases r with e | ⟨⟩
  · simp [ofUnit]
  · simp [ofUnit]

namespace Vm

def Loads (vm : Vm) (o : Operation) : Prop :=
  ∃ program entropy, o = .load program entropy ∧ (o.perform vm).2 = .done

def LoadsIn : Vm → List Operation → Prop
  | _, [] => False
  | vm, o :: rest => vm.Loads o ∨ LoadsIn (o.perform vm).1 rest

theorem ready_of_trap {vm : Vm} {f : Fault} (h : vm.trap? = some f) :
    vm.ready = .error (.fault f) := by
  unfold ready
  rw [h]

theorem trap?_of_ready {vm : Vm} {f : Fault} (h : vm.ready = .error (.fault f)) :
    vm.trap? = some f := by
  unfold ready at h
  split at h
  · rename_i heq
    cases h
    exact heq
  · cases h
  · cases h

theorem ready_of_unloaded {vm : Vm} (ht : vm.trap? = none) (hm : vm.machine? = none) :
    vm.ready = .error .notLoaded := by
  unfold ready
  rw [ht, hm]

theorem ready_congr {vm vm' : Vm} (ht : vm'.trap? = vm.trap?) (hm : vm'.machine? = vm.machine?) :
    vm'.ready = vm.ready := by
  unfold ready
  rw [ht, hm]

theorem step_of_ready {vm : Vm} {m : Machine} (h : vm.ready = .ok m) :
    (∃ n flow, vm.step = ({ vm with machine? := some n }, .ok flow)) ∨
      ∃ n f, vm.step =
        ({ vm with machine? := some n, trap? := some f }, .error (.fault f)) := by
  unfold step
  rw [h]
  dsimp only
  split
  · rename_i n flow heq
    exact .inl ⟨n, flow, rfl⟩
  · rename_i n f heq
    exact .inr ⟨n, f, rfl⟩

theorem runFrom_of_ready (count : Nat) (flow : Flow) {vm : Vm} {m : Machine}
    (h : vm.ready = .ok m) :
    (∃ n last, runFrom flow count vm = ({ vm with machine? := some n }, .ok last)) ∨
      ∃ n f, runFrom flow count vm =
        ({ vm with machine? := some n, trap? := some f }, .error (.fault f)) := by
  induction count generalizing flow vm m with
  | zero =>
    refine .inl ⟨m, flow, ?_⟩
    rw [machine?_self (machine?_of_ready h)]
    rfl
  | succ count ih =>
    rcases step_of_ready h with ⟨n, last, hs⟩ | ⟨n, f, hs⟩
    · rw [runFrom_succ, hs]
      exact ih last (ready_next h n)
    · rw [runFrom_succ, hs]
      exact .inr ⟨n, f, rfl⟩

theorem runFrom_of_unready {vm : Vm} {e : Error} (h : vm.ready = .error e) {count : Nat}
    (hc : 0 < count) (flow : Flow) : runFrom flow count vm = (vm, .error e) := by
  obtain ⟨count, rfl⟩ := Nat.exists_eq_succ_of_ne_zero (Nat.ne_of_gt hc)
  rw [runFrom_succ, step, h]

theorem perform_of_unready {vm : Vm} {e : Error} (h : vm.ready = .error e) {o : Operation}
    (ho : o.Advances) : o.perform vm = (vm, .failed e) := by
  cases o with
  | step =>
    rw [Operation.perform, step, h]
    rfl
  | run count =>
    rw [Operation.perform, run, runFrom_of_unready h ho]
    rfl
  | update milliseconds =>
    rw [Operation.perform, update_eq, h]
    rfl
  | _ => exact ho.elim

theorem perform_of_ready {vm : Vm} {m : Machine} (h : vm.ready = .ok m) {o : Operation}
    (ho : o.Advances) :
    (∃ n a, o.perform vm = ({ vm with machine? := some n }, a) ∧ ∀ e, a ≠ .failed e) ∨
      ∃ n f, o.perform vm =
        ({ vm with machine? := some n, trap? := some f }, .failed (.fault f)) := by
  cases o with
  | step =>
    rcases step_of_ready h with ⟨n, flow, hs⟩ | ⟨n, f, hs⟩
    · rw [Operation.perform, hs]
      exact .inl ⟨n, .flow flow, rfl, by simp⟩
    · rw [Operation.perform, hs]
      exact .inr ⟨n, f, rfl⟩
  | run count =>
    rcases runFrom_of_ready count .ok h with ⟨n, last, hr⟩ | ⟨n, f, hr⟩
    · rw [Operation.perform, run, hr]
      exact .inl ⟨n, .flow last, rfl, by simp⟩
    · rw [Operation.perform, run, hr]
      exact .inr ⟨n, f, rfl⟩
  | update milliseconds =>
    rw [Operation.perform, update_eq, h]
    dsimp only
    rcases runFrom_of_ready (vm.frameSteps milliseconds) .ok (ready_unmark h) with
      ⟨n, last, hr⟩ | ⟨n, f, hr⟩
    · rw [run, hr]
      exact .inl ⟨_, .done, rfl, by simp⟩
    · rw [run, hr]
      exact .inr ⟨n, f, rfl⟩
  | _ => exact ho.elim

theorem perform_of_idle {vm : Vm} {o : Operation} (ho : ¬o.Advances) (hl : ¬vm.Loads o) :
    (o.perform vm).1.trap? = vm.trap? ∧ (o.perform vm).1.machine? = vm.machine? := by
  cases o with
  | load program entropy =>
    rcases vm.load_cases program entropy with ⟨e, -, he⟩ | ⟨glyphs, e, -, -, he⟩ | ⟨glyphs, ha, he⟩
    · rw [Operation.perform, he]
      exact ⟨rfl, rfl⟩
    · rw [Operation.perform, he]
      exact ⟨rfl, rfl⟩
    · refine absurd ⟨program, entropy, rfl, ?_⟩ hl
      rw [Operation.perform, he]
      rfl
  | run count =>
    obtain rfl : count = 0 := Nat.eq_zero_of_not_pos ho
    exact ⟨rfl, rfl⟩
  | step => exact absurd trivial ho
  | update milliseconds => exact absurd trivial ho
  | setFrequency f => exact ⟨rfl, rfl⟩
  | setKey key down => exact ⟨rfl, rfl⟩
  | clearKeys => exact ⟨rfl, rfl⟩

theorem unready_after {vm : Vm} {e : Error} (h : vm.ready = .error e) {later : List Operation}
    (hl : ¬vm.LoadsIn later) :
    (vm.after later).trap? = vm.trap? ∧ (vm.after later).machine? = vm.machine? := by
  induction later generalizing vm with
  | nil => exact ⟨rfl, rfl⟩
  | cons o rest ih =>
    have hone : ¬vm.Loads o := fun ho => hl (.inl ho)
    have hrest : ¬(o.perform vm).1.LoadsIn rest := fun hr => hl (.inr hr)
    -- what would step it is refused, and what does not is no load that succeeds
    have hkept : (o.perform vm).1.trap? = vm.trap? ∧ (o.perform vm).1.machine? = vm.machine? := by
      by_cases ho : o.Advances
      · rw [perform_of_unready h ho]
        exact ⟨rfl, rfl⟩
      · exact perform_of_idle ho hone
    obtain ⟨ht, hm⟩ := ih ((ready_congr hkept.1 hkept.2).trans h) hrest
    exact ⟨ht.trans hkept.1, hm.trans hkept.2⟩

theorem load_keeps_or_starts (vm : Vm) (program : Array Byte) (entropy : Random.Key) :
    (∃ keys, (vm.load program entropy).1 = { vm with keys := keys }) ∨
      (vm.load program entropy).1.machine?.isSome := by
  rcases vm.load_cases program entropy with ⟨e, -, hl⟩ | ⟨glyphs, e, -, -, hl⟩ | ⟨glyphs, ha, hl⟩
  · rw [hl]
    exact .inl ⟨vm.keys, rfl⟩
  · rw [hl]
    exact .inl ⟨{}, rfl⟩
  · rw [hl]
    exact .inr rfl

theorem step_keeps_or_advances (vm : Vm) : vm.step.1 = vm ∨ vm.step.1.machine?.isSome := by
  cases hr : vm.ready with
  | error e =>
    rw [step, hr]
    exact .inl rfl
  | ok m =>
    rcases step_of_ready hr with ⟨n, flow, hs⟩ | ⟨n, f, hs⟩
    · rw [hs]
      exact .inr rfl
    · rw [hs]
      exact .inr rfl

theorem invariant_loaded : Invariant fun vm => vm.machine?.isSome where
  load vm program entropy h := by
    rcases vm.load_keeps_or_starts program entropy with ⟨keys, hl⟩ | hl
    · rwa [hl]
    · exact hl
  step vm h := by
    rcases vm.step_keeps_or_advances with hs | hs
    · rwa [hs]
    · exact hs
  unmark vm h := by rwa [unmark, mapMachine, Option.isSome_map]
  tick vm h := by rwa [tick, mapMachine, Option.isSome_map]
  setFrequency _ _ h := h
  setKey _ _ _ h := h
  clearKeys _ h := h

theorem invariant_trap : Invariant fun vm => vm.trap?.isSome → vm.machine?.isSome where
  load vm program entropy h := by
    rcases vm.load_keeps_or_starts program entropy with ⟨keys, hl⟩ | hl
    · rwa [hl]
    · exact fun _ => hl
  step vm h := by
    rcases vm.step_keeps_or_advances with hs | hs
    · rwa [hs]
    · exact fun _ => hs
  unmark vm h := by rwa [unmark, mapMachine, Option.isSome_map]
  tick vm h := by rwa [tick, mapMachine, Option.isSome_map]
  setFrequency _ _ h := h
  setKey _ _ _ h := h
  clearKeys _ h := h

theorem loaded_after {vm : Vm} {operations : List Operation} (h : vm.LoadsIn operations) :
    (vm.after operations).machine?.isSome := by
  induction operations generalizing vm with
  | nil => exact h.elim
  | cons o rest ih =>
    rcases h with ⟨program, entropy, rfl, hdone⟩ | hrest
    · apply invariant_loaded.after rest
      obtain ⟨glyphs, ha, hl⟩ := load_of_ok (Answer.ofUnit_eq_done_iff.1 hdone)
      change (vm.load program entropy).1.machine?.isSome
      rw [hl]
      rfl
    · exact ih hrest

theorem unloaded_after_iff (c : Config) (source : GlyphSource) (operations : List Operation) :
    ((new c source).after operations).ready = .error .notLoaded ↔
      ¬(new c source).LoadsIn operations := by
  constructor
  · intro h hl
    have hm := loaded_after hl
    unfold ready at h
    split at h
    · cases h
    · cases h
    · rename_i hnone
      rw [hnone] at hm
      cases hm
  · intro hl
    obtain ⟨ht, hm⟩ := unready_after (ready_of_unloaded rfl rfl) hl
    exact ready_of_unloaded ht hm

theorem trap_of_fault {vm : Vm} {o : Operation} {f : Fault} (ho : o.Advances)
    (h : (o.perform vm).2 = .failed (.fault f)) : (o.perform vm).1.trap? = some f := by
  cases hr : vm.ready with
  | error e =>
    rw [perform_of_unready hr ho] at h ⊢
    cases h
    exact trap?_of_ready hr
  | ok m =>
    rcases perform_of_ready hr ho with ⟨n, a, hp, ha⟩ | ⟨n, f', hp⟩
    · rw [hp] at h
      exact absurd h (ha _)
    · rw [hp] at h ⊢
      cases h
      rfl

theorem answers_not_loaded_iff {vm : Vm} {o : Operation} (ho : o.Advances) :
    (o.perform vm).2 = .failed .notLoaded ↔ vm.ready = .error .notLoaded := by
  cases hr : vm.ready with
  | error e =>
    rw [perform_of_unready hr ho]
    constructor
    · rintro ⟨⟩
      rfl
    · rintro ⟨⟩
      rfl
  | ok m =>
    rcases perform_of_ready hr ho with ⟨n, a, hp, ha⟩ | ⟨n, f, hp⟩
    · rw [hp]
      exact ⟨fun h => absurd h (ha _), fun h => nomatch h⟩
    · rw [hp]
      exact ⟨fun h => (nomatch h), fun h => nomatch h⟩

/-- Before the first load that succeeds there is nothing to step; a fault stops the machine where it
is until the next one. -/
theorem states_after (c : Config) (source : GlyphSource) (operations : List Operation) :
    let vm := (new c source).after operations
    (∀ o : Operation, o.Advances →
        ((o.perform vm).2 = .failed .notLoaded ↔ ¬(new c source).LoadsIn operations)) ∧
      (∀ (o : Operation) (f : Fault), o.Advances → (o.perform vm).2 = .failed (.fault f) →
        ∀ later, ¬(o.perform vm).1.LoadsIn later →
          let now := (o.perform vm).1.after later
          now.trap? = some f ∧ now.machine? = (o.perform vm).1.machine? ∧
            ∀ o' : Operation, o'.Advances → o'.perform now = (now, .failed (.fault f))) ∧
      (vm.trap?.isSome → vm.machine?.isSome) ∧
      (vm.machine?.isSome → ∀ later, (vm.after later).machine?.isSome) := by
  intro vm
  refine ⟨?_, ?_, ?_, ?_⟩
  · intro o ho
    exact (answers_not_loaded_iff ho).trans (unloaded_after_iff c source operations)
  · intro o f ho hf later hl now
    have htrap := trap_of_fault ho hf
    obtain ⟨ht, hm⟩ := unready_after (ready_of_trap htrap) hl
    have hnow : now.trap? = some f := ht.trans htrap
    exact ⟨hnow, hm, fun o' ho' => perform_of_unready (ready_of_trap hnow) ho'⟩
  · exact invariant_trap.after operations (new c source) (fun h => nomatch h)
  · intro h later
    exact invariant_loaded.after later vm h

end Vm

end Chip8

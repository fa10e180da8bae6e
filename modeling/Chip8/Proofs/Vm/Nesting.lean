import Chip8.Proofs.Machine.Step
import Chip8.Proofs.Vm.Invariant
import Chip8.Proofs.Vm.Reload
import Mathlib.Logic.Relation

/-! Subroutine calls nest. From a call on, what lies below its return address on the stack cannot be
reached but by the return that takes this address off, whatever code runs in between. -/

namespace Chip8.Vm

/-- What happens to a machine between two loads: a step that does not fail, or what a host does
around the steps. -/
inductive Move : Vm → Vm → Prop
  | step {vm next : Vm} {flow : Flow} (h : vm.step = (next, .ok flow)) : Move vm next
  | unmark (vm : Vm) : Move vm vm.unmark
  | tick (vm : Vm) : Move vm vm.tick
  | setFrequency (vm : Vm) (f : Frequency) : Move vm (vm.setFrequency f)
  | setKey (vm : Vm) (key : Key) (down : Bool) : Move vm (vm.setKey key down)
  | clearKeys (vm : Vm) : Move vm vm.clearKeys

def frames (vm : Vm) : List Word :=
  match vm.machine? with
  | some m => m.stack.toList
  | none => []

/-- The stack holds a return address on top of what was there before it. -/
structure Within (vm : Vm) (base : List Word) (back : Word) : Prop where
  deeper : base.length < vm.frames.length
  entry : vm.frames[base.length]? = some back
  below : vm.frames.take base.length = base

def ReturnsTo (vm next : Vm) (back : Word) : Prop :=
  ∃ m n : Machine, vm.machine? = some m ∧ m.word = 0x00EE ∧ vm.step = (next, .ok .jump) ∧
    next.machine? = some n ∧ n.pc = back

variable {vm next : Vm} {base : List Word} {back : Word}

theorem frames_eq {m : Machine} (h : vm.machine? = some m) : vm.frames = m.stack.toList := by
  rw [frames, h]

theorem frames_mapMachine {f : Machine → Machine} (hf : ∀ m, (f m).stack = m.stack) :
    (vm.mapMachine f).frames = vm.frames := by
  unfold frames mapMachine
  cases vm.machine? with
  | none => rfl
  | some m => exact congrArg CallStack.toList (hf m)

namespace Move

theorem keeps_or_returns (h : Move vm next) (hin : base ++ [back] <+: vm.frames) :
    base ++ [back] <+: next.frames ∨ next.frames = base ∧ ReturnsTo vm next back := by
  cases h with
  | step h =>
    obtain ⟨m, n, hready, hs, rfl⟩ := machine_of_step_ok h
    have hm := machine?_of_ready hready
    rw [frames_eq hm] at hin
    have ho := m.step_outcome vm.keys
    rw [hs] at ho
    change base ++ [back] <+: n.stack.toList ∨ n.stack.toList = base ∧ _
    cases ho with
    | flat no_call no_ret stack => exact .inl (stack ▸ hin)
    | called word pc stack =>
      rw [stack]
      exact .inl (hin.trans (List.prefix_append ..))
    | returned word stack =>
      -- the address that is taken off is either ours or lies above it
      rw [stack, List.prefix_concat_iff] at hin
      rcases hin with heq | hin
      · obtain ⟨hbase, hback⟩ := List.append_inj' heq rfl
        have hpc : back = n.pc := List.singleton_inj.1 hback
        exact .inr ⟨hbase.symm, m, n, hm, word, h, rfl, hpc.symm⟩
      · exact .inl hin
  | unmark =>
    have hsame : vm.unmark.frames = vm.frames := frames_mapMachine fun _ => rfl
    exact .inl (hsame ▸ hin)
  | tick =>
    have hsame : vm.tick.frames = vm.frames := frames_mapMachine fun _ => rfl
    exact .inl (hsame ▸ hin)
  | setFrequency => exact .inl hin
  | setKey => exact .inl hin
  | clearKeys => exact .inl hin

end Move

theorem moves_runFrom {flow last : Flow} {count : Nat}
    (h : runFrom flow count vm = (next, .ok last)) :
    Relation.ReflTransGen Move vm next := by
  induction count generalizing flow vm with
  | zero =>
    cases h
    exact .refl
  | succ count ih =>
    rw [runFrom_succ] at h
    split at h
    · rename_i first flow' hs
      exact .head (.step hs) (ih h)
    · cases h

theorem moves_update {milliseconds : Float} (h : vm.update milliseconds = (next, .ok ())) :
    Relation.ReflTransGen Move vm next := by
  rw [update_eq] at h
  split at h
  · cases h
  · split at h
    · rename_i last flow hrun
      cases h
      exact .head (.unmark vm) ((moves_runFrom hrun).tail (.tick last))
    · cases h

theorem moves_perform {o : Operation}
    (hload : ∀ program entropy, o ≠ .load program entropy)
    (hok : ∀ e, (o.perform vm).2 ≠ .failed e) : Relation.ReflTransGen Move vm (o.perform vm).1 := by
  cases o with
  | load program entropy => exact absurd rfl (hload program entropy)
  | step =>
    rcases hs : vm.step with ⟨next, e | flow⟩
    · rw [Operation.perform, hs] at hok
      exact absurd rfl (hok e)
    · rw [Operation.perform, hs]
      exact .single (.step hs)
  | run count =>
    rcases hr : vm.run count with ⟨next, e | flow⟩
    · rw [Operation.perform, hr] at hok
      exact absurd rfl (hok e)
    · rw [Operation.perform, hr]
      exact moves_runFrom hr
  | update milliseconds =>
    rcases hu : vm.update milliseconds with ⟨next, e | _⟩
    · rw [Operation.perform, hu] at hok
      exact absurd rfl (hok e)
    · rw [Operation.perform, hu]
      exact moves_update hu
  | setFrequency f => exact .single (.setFrequency vm f)
  | setKey key down => exact .single (.setKey vm key down)
  | clearKeys => exact .single (.clearKeys vm)

theorem within_of_append (h : base ++ [back] <+: vm.frames) : vm.Within base back := by
  obtain ⟨rest, hrest⟩ := h
  constructor <;> rw [← hrest] <;> simp

theorem frames_of_call {m : Machine} {flow : Flow} (hm : vm.machine? = some m)
    (hword : m.word.t = 0x2) (h : vm.step = (next, .ok flow)) :
    next.frames = m.stack.toList ++ [m.pc + 2] := by
  obtain ⟨m', n, hready, hs, rfl⟩ := machine_of_step_ok h
  cases (machine?_of_ready hready).symm.trans hm
  have ho := m.step_outcome vm.keys
  rw [hs] at ho
  cases ho with
  | flat no_call no_ret stack => exact absurd hword no_call
  | called word pc stack => exact stack
  | returned word stack =>
    rw [word] at hword
    exact absurd hword (by decide)

theorem prefix_of_moves {run : Nat → Vm} {n : Nat} (h : base ++ [back] <+: (run 1).frames)
    (hmoves : ∀ k, 0 < k → k < n → Move (run k) (run (k + 1))) {k : Nat} (hk : 1 ≤ k) (hkn : k ≤ n)
    (haway : ∀ j, 0 < j → j ≤ k → (run j).frames.length ≠ base.length) :
    base ++ [back] <+: (run k).frames := by
  induction k, hk using Nat.le_induction with
  | base => exact h
  | succ k hk ih =>
    have hin := ih (Nat.le_of_succ_le hkn) fun j hj hjk => haway j hj (Nat.le_succ_of_le hjk)
    rcases (hmoves k hk hkn).keeps_or_returns hin with hkept | ⟨hback, -⟩
    · exact hkept
    · exact absurd (congrArg List.length hback) (haway (k + 1) k.succ_pos le_rfl)

/-- Calls nest. The call at `m.pc` puts the address behind it on the stack; until the depth is again
what it was before the call, this address stays where it is and nothing below it is changed; and
when the depth is so again, then by a return to this address. -/
theorem calls_nest {run : Nat → Vm} {n : Nat} {m : Machine} {flow : Flow}
    (hm : (run 0).machine? = some m) (hword : m.word.t = 0x2)
    (hcall : (run 0).step = (run 1, .ok flow))
    (hmoves : ∀ k, 0 < k → k < n → Move (run k) (run (k + 1))) :
    (run 1).frames = m.stack.toList ++ [m.pc + 2] ∧
      ∀ k, 0 < k → k ≤ n →
        (∀ j, 0 < j → j ≤ k → (run j).frames.length ≠ m.stack.depth) →
        (run k).Within m.stack.toList (m.pc + 2) ∧
          (k < n → (run (k + 1)).frames.length = m.stack.depth →
            (run (k + 1)).frames = m.stack.toList ∧
              (run k).ReturnsTo (run (k + 1)) (m.pc + 2)) := by
  have hfirst := frames_of_call hm hword hcall
  refine ⟨hfirst, fun k hk hkn haway => ?_⟩
  have hstart : m.stack.toList ++ [m.pc + 2] <+: (run 1).frames := by rw [hfirst]
  have hin := prefix_of_moves hstart hmoves hk hkn haway
  refine ⟨within_of_append hin, fun hlt hdepth => ?_⟩
  rcases (hmoves k hk hlt).keeps_or_returns hin with hkept | hreturned
  · have hdeeper := (within_of_append hkept).deeper
    exact absurd hdepth (Nat.ne_of_gt hdeeper)
  · exact hreturned

theorem calls_nest_once :
    ∃ run : Nat → Vm,
      run 0 = (new { seed := some 7 }).after [.load #[0x22, 0x04, 0x00, 0x00, 0x00, 0xEE] default] ∧
      (∀ k, run (k + 1) = (run k).step.1) ∧
      (run 1).frames = [0x202] ∧ (run 2).frames = [] ∧ (run 1).ReturnsTo (run 2) 0x202 := by
  have ha : (new { seed := some 7 }).Accepts #[0x22, 0x04, 0x00, 0x00, 0x00, 0xEE] Glyphs.chip48 :=
    .standard rfl rfl (by decide)
  obtain ⟨vm, m, hvm, hstarts, hready⟩ := ha.ready_after rfl
  have hpc : m.pc = 0x200 := hstarts.pc_eq
  have hempty : m.stack.toList = [] := hstarts.stack
  have hword : m.word = 0x2204 := hstarts.word_eq rfl
  have hcall : m.word.t = 0x2 := by rw [hword]; rfl
  have hroom : m.stack.depth < m.stack.capacity := by
    have hcapacity : m.stack.capacity = 16 := congrArg Shape.stackCapacity hstarts.shape
    have hdepth : m.stack.depth = 0 := congrArg List.length hempty
    rw [hcapacity, hdepth]
    decide
  have hret : m.memory.fetch (UInt16.ofNat m.word.address.val).toNat = 0x00EE := by
    rw [hword]
    exact hstarts.memory.program_holds.fetch (k := 4) rfl
  obtain ⟨n, rest, hfirst, hstack, hsecond, hrest⟩ := m.call_and_return hcall hroom hret vm.keys
  have hstep1 := step_ok_of_ready hready hfirst
  have hstep2 := step_ok_of_ready (ready_next hready n) hsecond
  obtain ⟨run, hrun0, hnext⟩ : ∃ run : Nat → Vm, run 0 = vm ∧ ∀ k, run (k + 1) = (run k).step.1 :=
    ⟨fun k => (fun vm : Vm => vm.step.1)^[k] vm, rfl, fun k => Function.iterate_succ_apply' ..⟩
  have hrun1 : run 1 = { vm with machine? := some n } := by rw [hnext 0, hrun0, hstep1]
  have hcalled : (run 0).step = (run 1, .ok .jump) := by rw [hrun1, hrun0, hstep1]
  have hreturned : (run 1).step = (run 2, .ok .jump) := by rw [hnext 1, hrun1, hstep2]
  have hframes1 : (run 1).frames = [0x202] := by
    rw [hrun1]
    exact hstack.trans (by rw [hempty, hpc]; rfl)
  have hframes2 : (run 2).frames = [] := by
    rw [hnext 1, hrun1, hstep2]
    exact hrest.trans hempty
  have hmoves : ∀ k, 0 < k → k < 2 → Move (run k) (run (k + 1)) := by
    intro k hk hk2
    obtain rfl : k = 1 := by omega
    exact .step hreturned
  obtain ⟨-, hnest⟩ := calls_nest (machine?_of_ready (hrun0 ▸ hready)) hcall hcalled hmoves
  obtain ⟨-, hback⟩ := hnest 1 (by decide) (by decide) fun j hj hj1 => by
    obtain rfl : j = 1 := by omega
    rw [hframes1]
    exact fun h => nomatch h.trans (congrArg List.length hempty)
  obtain ⟨-, hto⟩ := hback (by decide) (by rw [hframes2]; exact (congrArg List.length hempty).symm)
  rw [hpc] at hto
  exact ⟨run, hrun0.trans hvm, hnext, hframes1, hframes2, hto⟩

end Chip8.Vm

import Chip8.Proofs.Keypad.Events
import Chip8.Proofs.Machine.Timers
import Chip8.Proofs.Vm.Advance
import Chip8.Proofs.Vm.Reload

/-! Waiting for a key. At `FX0A` a machine stands still as long as no key is down: steps and runs
leave it as it is, frames go on counting down its timers, and the first key that it sees lets it go
on as if it had come there just then. -/

namespace Chip8

namespace Operation

/-- The operations that neither load a program nor press a key. -/
def Quiet : Operation → Prop
  | load _ _ | setKey _ true => False
  | _ => True

def stalled : Operation → Answer
  | step | run (_ + 1) => .flow .keyWait
  | run 0 => .flow .ok
  | _ => .done

def isUpdate : Operation → Bool
  | update _ => true
  | _ => false

def frequencyAfter (f : Frequency) : Operation → Frequency
  | setFrequency g => g
  | _ => f

end Operation

/-- Neither the operation nor what happens to the keys meanwhile presses one of them. -/
structure Action.Quiet (a : Action) : Prop where
  operation : a.operation.Quiet
  changes : ∀ k, a.changes k {} = {}

theorem Timers.toNat_get_iterate_tick (ts : Timers) (count : Nat) (t : Timer) :
    ((tick^[count] ts).get t).toNat = (ts.get t).toNat - count := by
  induction count with
  | zero => rfl
  | succ count ih => rw [Function.iterate_succ_apply', toNat_get_tick, ih, Nat.sub_sub]

namespace Machine

variable {m : Machine} {keys : Keypad} {x : Digit}

def idleFrame (m : Machine) : Machine :=
  { m with screen := m.screen.unmark, timers := m.timers.tick }

theorem iterate_idleFrame (m : Machine) (count : Nat) :
    idleFrame^[count] m =
      { m with
        screen := { m.screen with dirty := if count = 0 then m.screen.dirty else false }
        timers := Timers.tick^[count] m.timers } := by
  induction count with
  | zero => rfl
  | succ count ih =>
    rw [Function.iterate_succ_apply', ih, Function.iterate_succ_apply']
    rfl

theorem step_of_waitKey_of_none (hword : m.word = (Instruction.waitKey x).word)
    (hkeys : keys.first? = none) : m.step keys = (m, .ok .keyWait) := by
  rw [step_of_word hword, execute, waitKey, hkeys]
  dsimp only
  rw [UInt16.add_sub_cancel]

theorem step_of_waitKey_of_some (hword : m.word = (Instruction.waitKey x).word) {key : Key}
    (hkeys : keys.first? = some key) :
    m.step keys =
      ({ m with
          pc := m.pc + 2
          registers := m.registers.set x (UInt8.ofNat key.val) }, .ok .ok) := by
  rw [step_of_word hword, execute, waitKey, hkeys]

end Machine

namespace Vm

structure Waits (vm : Vm) (m : Machine) (x : Digit) : Prop where
  ready : vm.ready = .ok m
  word : m.word = (Instruction.waitKey x).word
  keys : vm.keys = {}

variable {vm : Vm} {m : Machine} {x : Digit} {changes : Nat → Keypad → Keypad}

namespace Waits

theorem step (h : vm.Waits m x) : vm.step = (vm, .ok .keyWait) := by
  have hnone : vm.keys.first? = none := by
    rw [h.keys]
    exact Keypad.first?_eq_none_iff.2 rfl
  rw [step_ok_of_ready h.ready (Machine.step_of_waitKey_of_none h.word hnone),
    machine?_self (machine?_of_ready h.ready)]

theorem setKeys_eq (h : vm.Waits m x) {keys : Keypad} (hkeys : keys = {}) :
    { vm with keys := keys } = vm := by
  rw [hkeys, ← h.keys]

theorem changeKeys (h : vm.Waits m x) {change : Keypad → Keypad} (hchange : change {} = {}) :
    vm.changeKeys change = vm := by
  refine h.setKeys_eq ?_
  rw [h.keys, hchange]

theorem stepped (h : vm.Waits m x) (count : Nat) : vm.stepped count = vm := by
  induction count with
  | zero => rfl
  | succ count ih => rw [stepped_succ, h.step, ih]

theorem runFromAmid (h : vm.Waits m x) (hchanges : ∀ k, changes k {} = {}) (flow : Flow)
    (count : Nat) :
    vm.runFromAmid changes flow count = (vm, .ok (if count = 0 then flow else .keyWait)) := by
  induction count generalizing changes flow with
  | zero => rfl
  | succ count ih =>
    rw [runFromAmid_succ, h.changeKeys (hchanges 0), h.step]
    dsimp only
    rw [ih (fun k => hchanges (k + 1)), if_neg (Nat.succ_ne_zero count), ite_self]

theorem withMachine (h : vm.Waits m x) (n : Machine) (hpc : n.pc = m.pc)
    (hmemory : n.memory = m.memory) (f : Frequency) :
    { vm with machine? := some n, frequency := f }.Waits n x where
  ready := ready_next h.ready n
  word := by rw [← h.word, Machine.word, Machine.word, hpc, hmemory]
  keys := h.keys

theorem unmark (h : vm.Waits m x) :
    vm.unmark.Waits { m with screen := m.screen.unmark } x := by
  rw [unmark_eq (machine?_of_ready h.ready)]
  exact h.withMachine { m with screen := m.screen.unmark } rfl rfl vm.frequency

theorem updateAmid (h : vm.Waits m x) (hchanges : ∀ k, changes k {} = {}) (milliseconds : Float) :
    vm.updateAmid changes milliseconds = ({ vm with machine? := some m.idleFrame }, .ok ()) := by
  have hunmarked := machine?_of_ready h.unmark.ready
  rw [Vm.updateAmid, h.ready]
  dsimp only
  rw [h.unmark.runFromAmid hchanges]
  dsimp only
  rw [tick_eq hunmarked]
  rfl

theorem perform (h : vm.Waits m x) {a : Action} (ha : a.Quiet) :
    a.perform vm =
      ({ vm with
          machine? := some (if a.operation.isUpdate then m.idleFrame else m)
          frequency := a.operation.frequencyAfter vm.frequency }, a.operation.stalled) := by
  have hsame : { vm with machine? := some m } = vm := machine?_self (machine?_of_ready h.ready)
  obtain ⟨o, changes⟩ := a
  obtain ⟨hquiet, hchanges⟩ := ha
  cases o with
  | load program entropy => exact hquiet.elim
  | step =>
    rw [Action.perform, h.changeKeys (hchanges 0), h.step]
    exact congrArg (·, _) hsame.symm
  | run count =>
    rw [Action.perform, h.runFromAmid hchanges]
    cases count with
    | zero => exact congrArg (·, _) hsame.symm
    | succ count => exact congrArg (·, _) hsame.symm
  | update milliseconds =>
    rw [Action.perform, h.updateAmid hchanges]
    rfl
  | setFrequency f => exact congrArg (fun vm : Vm => (vm.setFrequency f, _)) hsame.symm
  | setKey key down =>
    cases down with
    | true => exact hquiet.elim
    | false =>
      -- no key is down, so there is none to let go
      have hup : vm.keys.set key false = {} := by
        rw [h.keys]
        exact congrArg Keypad.mk BitVec.zero_and
      exact congrArg (·, _) ((h.setKeys_eq hup).trans hsame.symm)
  | clearKeys => exact congrArg (·, _) ((h.setKeys_eq rfl).trans hsame.symm)

theorem undergo (h : vm.Waits m x) {actions : List Action} (hall : ∀ a ∈ actions, a.Quiet) :
    vm.undergo actions =
      ({ vm with
          machine? := some (Machine.idleFrame^[actions.countP fun a => a.operation.isUpdate] m)
          frequency := actions.foldl (fun f a => a.operation.frequencyAfter f) vm.frequency },
        actions.map fun a => a.operation.stalled) := by
  induction actions generalizing vm m with
  | nil => exact congrArg (·, []) (machine?_self (machine?_of_ready h.ready)).symm
  | cons a rest ih =>
    have hrest : ∀ b ∈ rest, b.Quiet := fun b hb => hall b (List.mem_cons_of_mem a hb)
    rw [undergo_cons, h.perform (hall a List.mem_cons_self), List.map_cons, List.foldl_cons,
      List.countP_cons]
    cases hupdate : a.operation.isUpdate with
    | false =>
      rw [if_neg Bool.false_ne_true, if_neg Bool.false_ne_true, Nat.add_zero,
        ih (h.withMachine m rfl rfl _) hrest]
    | true =>
      rw [if_pos rfl, if_pos rfl, Function.iterate_succ_apply,
        ih (h.withMachine m.idleFrame rfl rfl _) hrest]

theorem step_of_keys (h : vm.Waits m x) {keys : Keypad} (hkeys : keys.mask ≠ 0) :
    ∃ key : Key, keys.mask.toNat.testBit key.val = true ∧
      (∀ lower < key, keys.mask.toNat.testBit lower.val = false) ∧
      { vm with keys := keys }.step =
        ({ vm with
            keys := keys
            machine? := some
              { m with
                pc := m.pc + 2
                registers := m.registers.set x (UInt8.ofNat key.val) } }, .ok .ok) := by
  have hany : keys.any = true := bne_iff_ne.2 hkeys
  have hsome : keys.first? ≠ none := by
    rw [Ne, Keypad.first?_eq_none_iff, hany]
    decide
  obtain ⟨key, hkey⟩ := Option.ne_none_iff_exists'.1 hsome
  obtain ⟨hdown, hlower⟩ := Keypad.first?_eq_some_iff.1 hkey
  have hready : { vm with keys := keys }.ready = .ok m := h.ready
  exact ⟨key, hdown, hlower,
    step_ok_of_ready hready (Machine.step_of_waitKey_of_some h.word hkey)⟩

end Waits

/-- As long as no key goes down, steps and runs at `FX0A` ask for a key and change nothing, and any
updates, at any frequencies, succeed with the mark taken off and the timers counted down, by one
each. Whenever a key is down at last, the next step puts the lowest one into `VX` and goes on behind
the instruction. -/
theorem key_wait_stutters (hm : vm.machine? = some m) (ht : vm.trap? = none)
    (hword : m.word = (Instruction.waitKey x).word) (hkeys : vm.keys.mask = 0) :
    (∀ count, vm.stepped count = vm ∧ (vm.stepped count).step.2 = .ok .keyWait) ∧
    (∀ count, 0 < count → vm.run count = (vm, .ok .keyWait)) ∧
    ∀ actions : List Action, (∀ a ∈ actions, a.Quiet) →
      let now := (vm.undergo actions).1
      let updates := actions.countP fun a => a.operation.isUpdate
      (vm.undergo actions).2 = actions.map (fun a => a.operation.stalled) ∧
      ∃ n, now =
          { vm with
            machine? := some n
            frequency := actions.foldl (fun f a => a.operation.frequencyAfter f) vm.frequency } ∧
        n = { m with screen := n.screen, timers := n.timers } ∧
        n.screen =
          { m.screen with dirty := if updates = 0 then m.screen.dirty else false } ∧
        (∀ t, (n.timers.get t).toNat = (m.timers.get t).toNat - updates) ∧
        ∀ keys : Keypad, keys.mask ≠ 0 → ∃ (key : Key) (o : Machine),
          keys.mask.toNat.testBit key.val = true ∧
          (∀ lower < key, keys.mask.toNat.testBit lower.val = false) ∧
          { now with keys := keys }.step =
            ({ now with keys := keys, machine? := some o }, .ok .ok) ∧
          o = { n with pc := o.pc, registers := m.registers.set x (UInt8.ofNat key.val) } ∧
          o.pc.toNat = (m.pc.toNat + 2) % 65536 := by
  have hwaits : vm.Waits m x :=
    ⟨ready_eq_ok_iff.2 ⟨ht, hm⟩, hword, congrArg Keypad.mk hkeys⟩
  refine ⟨fun count => ?_, fun count hcount => ?_, fun actions hall => ?_⟩
  · rw [hwaits.stepped, hwaits.step]
    exact ⟨rfl, rfl⟩
  · rw [run, runFrom, hwaits.runFromAmid (fun _ => rfl), if_neg (Nat.ne_of_gt hcount)]
  · intro now updates
    let n := Machine.idleFrame^[updates] m
    have hn : n =
        { m with
          screen := { m.screen with dirty := if updates = 0 then m.screen.dirty else false }
          timers := Timers.tick^[updates] m.timers } := m.iterate_idleFrame updates
    have hpc : n.pc = m.pc := by rw [hn]
    have hregisters : n.registers = m.registers := by rw [hn]
    have hundergo := hwaits.undergo hall
    have hnow : now.Waits n x := by
      rw [show now = _ from congrArg Prod.fst hundergo]
      exact hwaits.withMachine n hpc (by rw [hn]) _
    refine ⟨congrArg Prod.snd hundergo, n, congrArg Prod.fst hundergo, by rw [hn], by rw [hn],
      fun t => ?_, fun keys hkeys => ?_⟩
    · rw [hn]
      exact m.timers.toNat_get_iterate_tick updates t
    · obtain ⟨key, hdown, hlower, hstep⟩ := hnow.step_of_keys hkeys
      rw [hpc, hregisters] at hstep
      exact ⟨key, _, hdown, hlower, hstep, rfl, UInt16.toNat_add ..⟩

/-- The instruction stands at the last two addresses of the largest memory. Of the keys 2 and 5 it
takes 2, and the counter goes on at zero. -/
theorem key_wait_stutters_at_last_address :
    let large : Config :=
      { memorySize := 65536, fontStart := 0, programStart := 65534, seed := some 7 }
    let vm := (new large).after [.load #[0xF3, 0x0A] default]
    let actions : List Action :=
      [.plain (.update 0.0), .plain (.setFrequency ⟨1⟩), .plain (.update 5000.0), .plain .step]
    ∃ m n o now, now = (vm.undergo actions).1 ∧ vm.machine? = some m ∧ vm.trap? = none ∧
      m.word = (Instruction.waitKey 3).word ∧ vm.keys.mask = 0 ∧
      vm.run 7 = (vm, .ok .keyWait) ∧ (∀ a ∈ actions, a.Quiet) ∧
      (vm.undergo actions).2 = [.done, .done, .done, .flow .keyWait] ∧
      now = { vm with machine? := some n, frequency := ⟨1⟩ } ∧ n.registers = m.registers ∧
      n.screen.dirty = false ∧ n.screen.pixels = m.screen.pixels ∧
      { now with keys := ⟨0b100100⟩ }.step =
        ({ now with keys := ⟨0b100100⟩, machine? := some o }, .ok .ok) ∧
      o.registers = m.registers.set 3 2 ∧ o.pc.toNat = 0 := by
  intro large vm actions
  have ha : (new large).Accepts #[0xF3, 0x0A] Glyphs.chip48 :=
    ⟨Config.describes_of_check rfl, rfl, rfl, by decide, by decide⟩
  obtain ⟨m, hstarts, hl⟩ := ha.load_starts rfl
  have hvm : vm = (new large).started m := by rw [show vm = _ from after_load .., hl]
  have hm : vm.machine? = some m := congrArg machine? hvm
  have ht : vm.trap? = none := congrArg trap? hvm
  have hkeys : vm.keys.mask = 0 := congrArg (fun vm => vm.keys.mask) hvm
  have hword : m.word = (Instruction.waitKey 3).word := hstarts.word_eq rfl
  have hquiet : ∀ a ∈ actions, a.Quiet := by
    simp only [actions, List.forall_mem_cons, List.not_mem_nil, false_implies, implies_true,
      and_true]
    exact ⟨⟨trivial, fun _ => rfl⟩, ⟨trivial, fun _ => rfl⟩, ⟨trivial, fun _ => rfl⟩,
      trivial, fun _ => rfl⟩
  obtain ⟨-, hrun, hactions⟩ := key_wait_stutters hm ht hword hkeys
  obtain ⟨hanswers, n, hn, heq, hscreen, -, hresume⟩ := hactions actions hquiet
  obtain ⟨key, o, hdown, hlower, hstep, ho, hpc⟩ := hresume ⟨0b100100⟩ (by decide)
  have hlowest : ∀ key : Key, Nat.testBit 0b100100 key.val = true →
      (∀ lower < key, Nat.testBit 0b100100 lower.val = false) → key = 2 := by decide
  cases hlowest key hdown hlower
  have hregisters : n.registers = m.registers := by rw [heq]
  have hclean : n.screen.dirty = false := by rw [hscreen]; rfl
  have hpixels : n.screen.pixels = m.screen.pixels := by rw [hscreen]
  have hset : o.registers = m.registers.set 3 2 := by rw [ho]; rfl
  have hstart : m.pc.toNat = 65534 := hstarts.pc
  have hzero : o.pc.toNat = 0 := by rw [hpc, hstart]
  exact ⟨m, n, o, _, rfl, hm, ht, hword, hkeys, hrun 7 (by decide), hquiet, hanswers, hn,
    hregisters, hclean, hpixels, hstep, hset, hzero⟩

end Vm

end Chip8

import Chip8.CallStack

/-! Stacks that serve requests as a bounded list does. The call stack is one. Another keeps its
addresses in slots of a fixed number: what was popped stays in its slot until it is overwritten, and
still no request tells it from the list. -/

namespace Chip8

inductive StackRequest where
  | push (a : Word)
  | pop
  | clear
  deriving DecidableEq, Repr

inductive StackAnswer where
  | done
  | popped (a : Word)
  | refused
  deriving DecidableEq, Repr

/-- How a list of at most `capacity` addresses answers, the oldest address first. -/
def StackRequest.onList (capacity : Nat) (l : List Word) : StackRequest → List Word × StackAnswer
  | push a => if l.length = capacity then (l, .refused) else (l ++ [a], .done)
  | pop =>
    match l.getLast? with
    | some a => (l.dropLast, .popped a)
    | none => (l, .refused)
  | clear => ([], .done)

def serve {σ : Type} (step : σ → StackRequest → σ × StackAnswer) (s : σ) :
    List StackRequest → σ × List StackAnswer
  | [] => (s, [])
  | request :: rest =>
    let (next, answer) := step s request
    let (last, answers) := serve step next rest
    (last, answer :: answers)

structure StackOperations (σ : Type) where
  push? : σ → Word → Option σ
  pop? : σ → Option (Word × σ)
  clear : σ → σ
  toList : σ → List Word
  depth : σ → Nat
  isEmpty : σ → Bool
  capacity : σ → Nat

namespace StackOperations

variable {σ : Type}

def perform (ops : StackOperations σ) (s : σ) : StackRequest → σ × StackAnswer
  | .push a =>
    match ops.push? s a with
    | some t => (t, .done)
    | none => (s, .refused)
  | .pop =>
    match ops.pop? s with
    | some (a, t) => (t, .popped a)
    | none => (s, .refused)
  | .clear => (ops.clear s, .done)

structure Lawful (ops : StackOperations σ) : Prop where
  push_none : ∀ s a, ops.push? s a = none ↔ (ops.toList s).length = ops.capacity s
  push_some : ∀ {s t a}, ops.push? s a = some t →
    ops.toList t = ops.toList s ++ [a] ∧ ops.capacity t = ops.capacity s
  pop_none : ∀ s, ops.pop? s = none ↔ ops.toList s = []
  pop_some : ∀ {s t a}, ops.pop? s = some (a, t) →
    ops.toList s = ops.toList t ++ [a] ∧ ops.capacity t = ops.capacity s
  clear : ∀ s, ops.toList (ops.clear s) = [] ∧ ops.capacity (ops.clear s) = ops.capacity s
  depth : ∀ s, ops.depth s = (ops.toList s).length
  isEmpty : ∀ s, ops.isEmpty s = true ↔ ops.toList s = []

/-- Nothing that can be seen of the stack tells it from the list, and it refuses what the list
refuses. -/
structure Matches (ops : StackOperations σ) (bound : Nat) (s : σ) (l : List Word) : Prop where
  toList : ops.toList s = l
  depth : ops.depth s = l.length
  isEmpty : ops.isEmpty s = true ↔ l = []
  capacity : ops.capacity s = bound
  overflow : ∀ a, ops.push? s a = none ↔ l.length = bound
  underflow : ops.pop? s = none ↔ l = []
  refused : ∀ request, (ops.perform s request).2 = .refused → (ops.perform s request).1 = s

variable {ops : StackOperations σ} {s : σ}

theorem perform_of_refused {request : StackRequest}
    (h : (ops.perform s request).2 = .refused) : (ops.perform s request).1 = s := by
  cases request with
  | push a =>
    rw [perform] at h ⊢
    cases hpush : ops.push? s a with
    | none => rfl
    | some t =>
      rw [hpush] at h
      cases h
  | pop =>
    rw [perform] at h ⊢
    rcases hpop : ops.pop? s with _ | ⟨a, t⟩
    · rfl
    · rw [hpop] at h
      cases h
  | clear => cases h

namespace Lawful

theorem perform_eq_onList (h : ops.Lawful) (s : σ) (request : StackRequest) :
    ops.capacity (ops.perform s request).1 = ops.capacity s ∧
      (ops.toList (ops.perform s request).1, (ops.perform s request).2) =
        request.onList (ops.capacity s) (ops.toList s) := by
  cases request with
  | push a =>
    rw [perform, StackRequest.onList]
    cases hpush : ops.push? s a with
    | none => exact ⟨rfl, (if_pos ((h.push_none s a).1 hpush)).symm⟩
    | some t =>
      have hroom : (ops.toList s).length ≠ ops.capacity s := by
        intro hfull
        rw [(h.push_none s a).2 hfull] at hpush
        cases hpush
      obtain ⟨hlist, hcapacity⟩ := h.push_some hpush
      refine ⟨hcapacity, ?_⟩
      rw [if_neg hroom, hlist]
  | pop =>
    rw [perform, StackRequest.onList]
    rcases hpop : ops.pop? s with _ | ⟨a, t⟩
    · rw [(h.pop_none s).1 hpop]
      exact ⟨rfl, rfl⟩
    · obtain ⟨hlist, hcapacity⟩ := h.pop_some hpop
      refine ⟨hcapacity, ?_⟩
      rw [hlist, List.getLast?_concat, List.dropLast_concat]
  | clear =>
    obtain ⟨hlist, hcapacity⟩ := h.clear s
    exact ⟨hcapacity, congrArg (·, StackAnswer.done) hlist⟩

theorem serve_eq_onList (h : ops.Lawful) (s : σ) (requests : List StackRequest) :
    let run := serve ops.perform s requests
    ops.capacity run.1 = ops.capacity s ∧ (ops.toList run.1, run.2) =
      serve (StackRequest.onList (ops.capacity s)) (ops.toList s) requests := by
  induction requests generalizing s with
  | nil => exact ⟨rfl, rfl⟩
  | cons request rest ih =>
    obtain ⟨hcapacity, hfirst⟩ := h.perform_eq_onList s request
    obtain ⟨hkept, hrest⟩ := ih (ops.perform s request).1
    rw [hcapacity] at hkept hrest
    refine ⟨hkept, ?_⟩
    rw [serve, serve, ← hfirst]
    dsimp only
    rw [← hrest]

theorem matches_toList (h : ops.Lawful) (s : σ) :
    ops.Matches (ops.capacity s) s (ops.toList s) where
  toList := rfl
  depth := h.depth s
  isEmpty := h.isEmpty s
  capacity := rfl
  overflow := h.push_none s
  underflow := h.pop_none s
  refused _ := perform_of_refused

theorem serves_list (h : ops.Lawful) {bound : Nat} (hcapacity : ops.capacity s = bound)
    (hempty : ops.toList s = []) (requests : List StackRequest) :
    let list := serve (StackRequest.onList bound) [] requests
    let run := serve ops.perform s requests
    run.2 = list.2 ∧ ops.Matches bound run.1 list.1 := by
  intro list run
  obtain ⟨hkept, hrun⟩ := h.serve_eq_onList s requests
  rw [hcapacity] at hkept hrun
  rw [hempty] at hrun
  have hseen : ops.toList run.1 = list.1 := congrArg Prod.fst hrun
  have hmatches := h.matches_toList run.1
  rw [hkept, hseen] at hmatches
  exact ⟨congrArg Prod.snd hrun, hmatches⟩

end Lawful

end StackOperations

def CallStack.operations : StackOperations CallStack :=
  { push?, pop?, clear, toList, depth, isEmpty, capacity }

theorem CallStack.lawful : operations.Lawful where
  push_none := push?_eq_none_iff
  push_some := toList_push?
  pop_none := pop?_eq_none_iff
  pop_some := toList_pop?
  clear _ := ⟨rfl, rfl⟩
  depth _ := rfl
  isEmpty s := by simp [operations, isEmpty, toList]

/-- A stack of slots, of which those below the depth hold its addresses. The others hold what was
there before, and do not count. -/
structure SlotStack where
  slots : Array Word
  depth : Nat
  depth_le : depth ≤ slots.size

namespace SlotStack

variable {s t : SlotStack} {a : Word}

def empty (capacity : Nat) : SlotStack := ⟨Array.replicate capacity 0, 0, Nat.zero_le _⟩

def capacity (s : SlotStack) : Nat := s.slots.size

def toList (s : SlotStack) : List Word := s.slots.toList.take s.depth

def isEmpty (s : SlotStack) : Bool := s.depth == 0

def push? (s : SlotStack) (a : Word) : Option SlotStack :=
  if h : s.depth < s.slots.size then
    some ⟨s.slots.set s.depth a h, s.depth + 1, by rw [Array.size_set]; exact h⟩
  else none

/-- The address is not taken out of its slot. -/
def pop? (s : SlotStack) : Option (Word × SlotStack) :=
  if h : 0 < s.depth then
    have htop : s.depth - 1 < s.slots.size := Nat.sub_one_lt_of_le h s.depth_le
    some (s.slots[s.depth - 1], ⟨s.slots, s.depth - 1, Nat.le_of_lt htop⟩)
  else none

def clear (s : SlotStack) : SlotStack := empty s.capacity

def operations : StackOperations SlotStack :=
  { push?, pop?, clear, toList, depth, isEmpty, capacity }

theorem length_toList (s : SlotStack) : s.toList.length = s.depth := by
  rw [toList, List.length_take, Array.length_toList, Nat.min_eq_left s.depth_le]

theorem push?_eq_none_iff (s : SlotStack) (a : Word) :
    s.push? a = none ↔ s.toList.length = s.capacity := by
  have h := s.depth_le
  rw [length_toList, push?, capacity]
  split <;> simp <;> omega

theorem toList_push? (h : s.push? a = some t) :
    t.toList = s.toList ++ [a] ∧ t.capacity = s.capacity := by
  unfold push? at h
  split at h
  · rename_i hroom
    cases h
    refine ⟨?_, Array.size_set hroom⟩
    have hset : s.depth < (s.slots.toList.set s.depth a).length := by
      rw [List.length_set]
      exact hroom
    rw [toList, toList, Array.toList_set, List.take_succ_eq_append_getElem hset,
      List.take_set_of_le (Nat.le_refl _), List.getElem_set_self]
  · cases h

theorem pop?_eq_none_iff (s : SlotStack) : s.pop? = none ↔ s.toList = [] := by
  rw [← List.length_eq_zero_iff, length_toList, pop?]
  split <;> simp <;> omega

theorem toList_pop? (h : s.pop? = some (a, t)) :
    s.toList = t.toList ++ [a] ∧ t.capacity = s.capacity := by
  unfold pop? at h
  split at h
  · rename_i hpos
    have htop : s.depth - 1 < s.slots.toList.length := Nat.sub_one_lt_of_le hpos s.depth_le
    have htake := List.take_succ_eq_append_getElem htop
    rw [Nat.sub_one_add_one_eq_of_pos hpos] at htake
    cases h
    exact ⟨htake, rfl⟩
  · cases h

/-- The address that was popped is still in its slot, and is not seen. -/
example :
    (((empty 2).push? 7).bind pop?).map (fun popped => (popped.2.slots, popped.2.toList)) =
      some (#[7, 0], []) := by decide

theorem lawful : operations.Lawful where
  push_none := push?_eq_none_iff
  push_some := toList_push?
  pop_none := pop?_eq_none_iff
  pop_some := toList_pop?
  clear s := ⟨rfl, Array.size_replicate⟩
  depth s := s.length_toList.symm
  isEmpty s := by
    rw [← List.length_eq_zero_iff]
    change (s.depth == 0) = true ↔ s.toList.length = 0
    rw [length_toList, beq_iff_eq]

end SlotStack

/-- Through any requests the call stack and the stack of slots answer as a list does that has room
for `capacity` addresses: a push appends unless the list is full, a pop takes its last address
unless it is empty. At the end nothing tells them from the list. -/
theorem stacks_serve_list (capacity : Nat) (requests : List StackRequest) :
    let list := serve (StackRequest.onList capacity) [] requests
    let stack := serve CallStack.operations.perform (.empty capacity) requests
    let slots := serve SlotStack.operations.perform (.empty capacity) requests
    (stack.2 = list.2 ∧ CallStack.operations.Matches capacity stack.1 list.1) ∧
      (slots.2 = list.2 ∧ SlotStack.operations.Matches capacity slots.1 list.1) := by
  have hsize : (SlotStack.empty capacity).capacity = capacity := Array.size_replicate
  exact ⟨CallStack.lawful.serves_list rfl rfl requests,
    SlotStack.lawful.serves_list hsize rfl requests⟩

end Chip8

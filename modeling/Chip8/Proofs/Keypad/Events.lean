import Mathlib.Data.Fin.Tuple.Basic
import Mathlib.Data.List.Basic
import Mathlib.Tactic.SplitIfs
import Chip8.Keypad
import Chip8.Proofs.History

/-! What happens to the keys. Every event writes the bits of some keys and leaves the others, so a
key shows what was written to it last. -/

namespace Chip8

/-- What a handle of the keypad does in one atomic access. -/
inductive KeyEvent where
  | press (key : Key)
  | release (key : Key)
  | set (key : Key) (down : Bool)
  | clear
  deriving DecidableEq, Repr

namespace KeyEvent

def apply (keys : Keypad) : KeyEvent → Keypad
  | press key => keys.press key
  | release key => keys.release key
  | set key down => keys.set key down
  | clear => {}

def written? (key : Key) : KeyEvent → Option Bool
  | press other => if other = key then some true else none
  | release other => if other = key then some false else none
  | set other down => if other = key then some down else none
  | clear => some false

def lastWritten? (key : Key) (events : List KeyEvent) : Option Bool :=
  (events.filterMap (written? key)).getLast?

end KeyEvent

namespace Keypad

variable {keys : Keypad} {key : Key}

theorem isPressed_iff {id : Nat} :
    keys.isPressed id = true ↔ id < 16 ∧ keys.mask.toNat.testBit id = true := by
  rw [isPressed, BitVec.getLsbD]
  refine ⟨fun h => ⟨?_, h⟩, And.right⟩
  by_contra hge
  rw [← BitVec.getLsbD, BitVec.getLsbD_of_ge _ _ (Nat.le_of_not_lt hge)] at h
  cases h

theorem ext_isPressed {other : Keypad} (h : ∀ key : Key, keys.isPressed key = other.isPressed key) :
    keys = other := by
  obtain ⟨mask⟩ := keys
  obtain ⟨mask'⟩ := other
  exact congrArg mk (BitVec.eq_of_getLsbD_eq fun id hid => h ⟨id, hid⟩)

theorem isPressed_set (keys : Keypad) (other key : Key) (down : Bool) :
    (keys.set other down).isPressed key =
      (if other = key then some down else none).getD (keys.isPressed key) := by
  have hsame : decide (key.val = other.val) = decide (other = key) := by
    rw [decide_eq_decide, Fin.val_inj, eq_comm]
  unfold set
  cases down with
  | false =>
    rw [if_neg Bool.false_ne_true, isPressed_release, hsame]
    split_ifs with h <;> simp [h]
  | true =>
    rw [if_pos rfl, isPressed_press, hsame]
    split_ifs with h <;> simp [h]

theorem isPressed_apply (keys : Keypad) (e : KeyEvent) (key : Key) :
    (e.apply keys).isPressed key = (e.written? key).getD (keys.isPressed key) := by
  cases e with
  | press other => exact isPressed_set keys other key true
  | release other => exact isPressed_set keys other key false
  | set other down => exact isPressed_set keys other key down
  | clear => exact BitVec.getLsbD_zero

theorem apply_comm {e e' : KeyEvent}
    (h : ∀ key, e.written? key = none ∨ e'.written? key = none) (keys : Keypad) :
    e'.apply (e.apply keys) = e.apply (e'.apply keys) := by
  refine ext_isPressed fun key => ?_
  simp only [isPressed_apply]
  rcases h key with hnone | hnone
  · rw [hnone]
    rfl
  · rw [hnone]
    rfl

theorem isPressed_foldl_press (list : List Key) (keys : Keypad) (id : Nat) :
    (list.foldl press keys).isPressed id = true ↔
      keys.isPressed id = true ∨ ∃ key ∈ list, key.val = id := by
  induction list generalizing keys with
  | nil => simp
  | cons key rest ih =>
    rw [List.foldl_cons, ih, isPressed_press, Bool.or_eq_true, decide_eq_true_iff, or_assoc,
      List.exists_mem_cons_iff, eq_comm (a := id)]

theorem isPressed_foldl (events : List KeyEvent) (keys : Keypad) (key : Key) :
    (events.foldl KeyEvent.apply keys).isPressed key =
      (KeyEvent.lastWritten? key events).getD (keys.isPressed key) :=
  view_foldl (P := fun _ => True) (f := fun keys : Keypad => keys.isPressed key) trivial
    fun keys _ e _ => ⟨trivial, isPressed_apply keys e key⟩

theorem first?_eq_some_iff :
    keys.first? = some key ↔
      keys.isPressed key = true ∧ ∀ lower < key, keys.isPressed lower = false := by
  rw [first?, ← Fin.find?_eq_find?_finRange, Fin.find?_eq_some_iff]

theorem first?_eq_none_iff : keys.first? = none ↔ keys.any = false := by
  have hempty : keys.any = false ↔ keys = {} := by
    rw [any, bne_eq_false_iff_eq]
    exact ⟨congrArg mk, congrArg mask⟩
  rw [first?, List.find?_eq_none, hempty]
  constructor
  · intro h
    refine ext_isPressed fun key => ?_
    rw [Bool.eq_false_iff.2 (h key (List.mem_finRange key))]
    exact BitVec.getLsbD_zero.symm
  · rintro rfl key -
    exact ne_true_of_eq_false BitVec.getLsbD_zero

end Keypad

end Chip8

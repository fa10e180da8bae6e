import Chip8.Proofs.Machine.Shape
import Mathlib.Data.List.Forall2
import Mathlib.Data.Nat.ModEq

/-! Addresses that mean the same cell of memory. If the size of memory divides the number of words,
it makes no difference which of them a machine holds in its counter, in `I` and on its stack: for
two machines that differ only so, one step comes to the same and keeps them so. -/

namespace Chip8

namespace Word

/-- The addresses mean the same cell of a memory of the given size. -/
def Congruent (size : Nat) (a b : Word) : Prop := a.toNat ≡ b.toNat [MOD size]

namespace Congruent

variable {size : Nat} {a b : Word}

theorem refl (size : Nat) (a : Word) : Congruent size a a := Nat.ModEq.refl _

theorem ofNat (hsize : size ∣ UInt16.size) {k l : Nat} (h : k ≡ l [MOD size]) :
    Congruent size (UInt16.ofNat k) (UInt16.ofNat l) := by
  have hwrap (j : Nat) : (UInt16.ofNat j).toNat ≡ j [MOD size] := by
    rw [UInt16.toNat_ofNat']
    exact (Nat.mod_modEq j UInt16.size).of_dvd hsize
  exact (hwrap k).trans (h.trans (hwrap l).symm)

theorem add (hsize : size ∣ UInt16.size) (h : Congruent size a b) (d : Word) :
    Congruent size (a + d) (b + d) := by
  have hsum : Congruent size (.ofNat (a.toNat + d.toNat)) (.ofNat (b.toNat + d.toNat)) :=
    ofNat hsize (Nat.ModEq.add_right _ h)
  simpa only [UInt16.ofNat_add, UInt16.ofNat_toNat] using hsum

theorem sub (hsize : size ∣ UInt16.size) (h : Congruent size a b) (d : Word) :
    Congruent size (a - d) (b - d) := by
  rw [UInt16.sub_eq_add_neg, UInt16.sub_eq_add_neg]
  exact h.add hsize (-d)

end Congruent

end Word

namespace Memory

variable {m : Memory} {a b : Nat}

theorem read_congr (h : a ≡ b [MOD m.capacity]) : m.read a = m.read b := by
  have hcell : a % m.cells.size = b % m.cells.size := h
  simp only [read, hcell]

theorem write_congr (h : a ≡ b [MOD m.capacity]) (value : Byte) :
    m.write a value = m.write b value := by
  have hcell : a % m.cells.size = b % m.cells.size := h
  simp only [write, hcell]

theorem fetch_congr (h : a ≡ b [MOD m.capacity]) : m.fetch a = m.fetch b := by
  rw [fetch, fetch, read_congr h, read_congr (h.add_right 1)]

theorem readBlock_congr (h : a ≡ b [MOD m.capacity]) (count : Nat) :
    m.readBlock a count = m.readBlock b count :=
  List.map_congr_left fun k _ => read_congr (h.add_right k)

theorem writeBlock_congr (h : a ≡ b [MOD m.capacity]) (bytes : List Byte) :
    m.writeBlock a bytes = m.writeBlock b bytes := by
  induction bytes generalizing m a b with
  | nil => rfl
  | cons value rest ih =>
    rw [writeBlock, writeBlock, write_congr h]
    refine ih ?_
    rw [capacity_write]
    exact h.add_right 1

end Memory

structure Registers.Congruent (size : Nat) (r s : Registers) : Prop where
  v : r.v = s.v
  index : Word.Congruent size r.index s.index

namespace Registers.Congruent

variable {size : Nat} {r s : Registers}

theorem get (h : r.Congruent size s) (x : Digit) : r.get x = s.get x := by
  rw [Registers.get, Registers.get, h.v]

theorem upTo (h : r.Congruent size s) (x : Digit) : r.upTo x = s.upTo x := by
  rw [Registers.upTo, Registers.upTo, h.v]

theorem set (h : r.Congruent size s) (x : Digit) (value : Byte) :
    (r.set x value).Congruent size (s.set x value) :=
  ⟨congrArg (fun v : Vector Byte 16 => v.set x value) h.v, h.index⟩

theorem setWithFlag (h : r.Congruent size s) (x : Digit) (value : Byte) (on : Bool) :
    (r.setWithFlag x value on).Congruent size (s.setWithFlag x value on) :=
  (h.set x value).set flag _

theorem setIndex {a b : Word} (h : r.Congruent size s) (hindex : Word.Congruent size a b) :
    (r.setIndex a).Congruent size (s.setIndex b) :=
  ⟨h.v, hindex⟩

theorem setBlock (h : r.Congruent size s) (bytes : List Byte) :
    (r.setBlock bytes).Congruent size (s.setBlock bytes) where
  v := by simp only [Registers.setBlock, h.get]
  index := by simpa only [Registers.setBlock] using h.index

end Registers.Congruent

theorem Condition.holds_congr {size : Nat} {r s : Registers} (h : r.Congruent size s)
    (keys : Keypad) (c : Condition) : c.holds keys r = c.holds keys s := by
  cases c <;> simp only [holds, h.get]

structure CallStack.Congruent (size : Nat) (s t : CallStack) : Prop where
  capacity : s.capacity = t.capacity
  addresses : List.Forall₂ (Word.Congruent size) s.toList t.toList

theorem forall₂_concat_iff {α β : Type} {R : α → β → Prop} {l : List α} {k : List β} {a : α}
    {b : β} : List.Forall₂ R (l ++ [a]) (k ++ [b]) ↔ R a b ∧ List.Forall₂ R l k := by
  rw [← List.forall₂_reverse_iff, List.reverse_concat, List.reverse_concat, List.forall₂_cons,
    List.forall₂_reverse_iff]

namespace CallStack.Congruent

variable {size : Nat} {s t : CallStack} {a b : Word}

theorem push? (h : s.Congruent size t) (hab : Word.Congruent size a b) :
    Option.Rel (CallStack.Congruent size) (s.push? a) (t.push? b) := by
  have hfull : s.push? a = none ↔ t.push? b = none := by
    rw [push?_eq_none_iff, push?_eq_none_iff, h.addresses.length_eq, h.capacity]
  rcases hs : s.push? a with - | s'
  · rw [hfull.1 hs]
    exact .none
  · rcases ht : t.push? b with - | t'
    · rw [hfull.2 ht] at hs
      cases hs
    · obtain ⟨hs, hs'⟩ := toList_push? hs
      obtain ⟨ht, ht'⟩ := toList_push? ht
      refine .some ⟨hs'.trans (h.capacity.trans ht'.symm), ?_⟩
      rw [hs, ht]
      exact forall₂_concat_iff.2 ⟨hab, h.addresses⟩

theorem pop? (h : s.Congruent size t) :
    Option.Rel (fun p q => Word.Congruent size p.1 q.1 ∧ p.2.Congruent size q.2) s.pop? t.pop? := by
  have hempty : s.pop? = none ↔ t.pop? = none := by
    rw [pop?_eq_none_iff, pop?_eq_none_iff, ← List.length_eq_zero_iff, ← List.length_eq_zero_iff,
      h.addresses.length_eq]
  rcases hs : s.pop? with - | ⟨a, s'⟩
  · rw [hempty.1 hs]
    exact .none
  · rcases ht : t.pop? with - | ⟨b, t'⟩
    · rw [hempty.2 ht] at hs
      cases hs
    · obtain ⟨hs, hs'⟩ := toList_pop? hs
      obtain ⟨ht, ht'⟩ := toList_pop? ht
      have haddresses := h.addresses
      rw [hs, ht] at haddresses
      obtain ⟨hab, hrest⟩ := forall₂_concat_iff.1 haddresses
      exact .some ⟨hab, hs'.trans (h.capacity.trans ht'.symm), hrest⟩

end CallStack.Congruent

inductive Fault.Congruent (size : Nat) : Fault → Fault → Prop
  | unsupported (word : Word) {a b : Word} (address : Word.Congruent size a b) :
    Congruent size (.unsupported word a) (.unsupported word b)
  | stackOverflow (capacity : Nat) {a b : Word} (address : Word.Congruent size a b) :
    Congruent size (.stackOverflow a capacity) (.stackOverflow b capacity)
  | stackUnderflow {a b : Word} (address : Word.Congruent size a b) :
    Congruent size (.stackUnderflow a) (.stackUnderflow b)

namespace Machine

/-- Equal but for the addresses that they hold, and these mean the same cells. -/
structure Congruent (size : Nat) (m n : Machine) : Prop where
  pc : Word.Congruent size m.pc n.pc
  registers : m.registers.Congruent size n.registers
  timers : m.timers = n.timers
  memory : m.memory = n.memory
  stack : m.stack.Congruent size n.stack
  screen : m.screen = n.screen
  random : m.random = n.random
  dialect : m.dialect = n.dialect

/-- The counter comes around at a multiple of the size of memory, and no flag tells where `I` is. -/
structure Cyclic (size : Nat) (m : Machine) : Prop where
  divides : size ∣ UInt16.size
  capacity : m.memory.capacity = size
  silent : m.dialect.indexFlagsOverflow = false

inductive Agree (size : Nat) : Machine × Except Fault Flow → Machine × Except Fault Flow → Prop
  | ok {m n : Machine} (machines : m.Congruent size n) (flow : Flow) :
    Agree size (m, .ok flow) (n, .ok flow)
  | error {m n : Machine} {f g : Fault} (machines : m.Congruent size n)
    (faults : f.Congruent size g) : Agree size (m, .error f) (n, .error g)

variable {size : Nat} {m n : Machine}

theorem Congruent.refl (size : Nat) (m : Machine) : m.Congruent size m where
  pc := .refl size _
  registers := ⟨rfl, .refl size _⟩
  timers := rfl
  memory := rfl
  stack := ⟨rfl, List.forall₂_same.2 fun a _ => .refl size a⟩
  screen := rfl
  random := rfl
  dialect := rfl

theorem Cyclic.of_shape (hc : m.Cyclic size) (h : n.shape = m.shape) : n.Cyclic size where
  divides := hc.divides
  capacity := (congrArg Shape.capacity h).trans hc.capacity
  silent := (congrArg (fun s => s.dialect.indexFlagsOverflow) h).trans hc.silent

theorem Cyclic.index_modEq (hc : m.Cyclic size) (h : m.Congruent size n) :
    m.registers.index.toNat ≡ n.registers.index.toNat [MOD m.memory.capacity] :=
  hc.capacity ▸ h.registers.index

theorem word_congr (hc : m.Cyclic size) (h : m.Congruent size n) : m.word = n.word := by
  have hpc : m.pc.toNat ≡ n.pc.toNat [MOD m.memory.capacity] := hc.capacity ▸ h.pc
  rw [word, word, ← h.memory, Memory.fetch_congr hpc]

namespace Congruent

theorem withPc {a b : Word} (h : m.Congruent size n) (hab : Word.Congruent size a b) :
    { m with pc := a }.Congruent size { n with pc := b } := { h with pc := hab }

theorem withRegisters {r s : Registers} (h : m.Congruent size n) (hrs : r.Congruent size s) :
    { m with registers := r }.Congruent size { n with registers := s } :=
  { h with registers := hrs }

theorem withTimers (h : m.Congruent size n) (timers : Timers) :
    { m with timers := timers }.Congruent size { n with timers := timers } :=
  { h with timers := rfl }

theorem skipIf (hc : m.Cyclic size) (h : m.Congruent size n) (condition : Bool) :
    (m.skipIf condition).Congruent size (n.skipIf condition) := by
  cases condition with
  | false => exact h
  | true => exact h.withPc (h.pc.add hc.divides 2)

theorem applyAlu (h : m.Congruent size n) (op : Alu) (x y : Digit) :
    (m.applyAlu op x y).Congruent size (n.applyAlu op x y) := by
  have happly : op.apply m.dialect (m.registers.get x) (m.registers.get y) =
      op.apply n.dialect (n.registers.get x) (n.registers.get y) := by
    rw [h.dialect, h.registers.get, h.registers.get]
  unfold Machine.applyAlu
  rw [← happly]
  split
  · exact h.withRegisters (h.registers.set x _)
  · exact h.withRegisters (h.registers.setWithFlag x _ _)

theorem spriteCells (hc : m.Cyclic size) (h : m.Congruent size n) (x y rows : Digit) :
    m.spriteCells x y rows = n.spriteCells x y rows := by
  rw [Machine.spriteCells, Machine.spriteCells, ← h.screen, ← h.memory, ← h.registers.get,
    ← h.registers.get, Memory.readBlock_congr (hc.index_modEq h)]

theorem drawSprite (hc : m.Cyclic size) (h : m.Congruent size n) (x y rows : Digit) :
    (m.drawSprite x y rows).Congruent size (n.drawSprite x y rows) := by
  have hdraw : m.screen.draw (m.spriteCells x y rows) = n.screen.draw (n.spriteCells x y rows) := by
    rw [h.spriteCells hc, h.screen]
  unfold Machine.drawSprite
  rw [← hdraw]
  obtain ⟨screen, hit⟩ := m.screen.draw (m.spriteCells x y rows)
  exact { h with screen := rfl, registers := h.registers.set Registers.flag _ }

theorem takeRandom (h : m.Congruent size n) (x : Digit) (mask : Byte) :
    (m.takeRandom x mask).Congruent size (n.takeRandom x mask) := by
  unfold Machine.takeRandom
  rw [← h.random]
  exact { h with registers := h.registers.set x _, random := rfl }

theorem addIndex (hc : m.Cyclic size) (h : m.Congruent size n) (x : Digit) :
    (m.addIndex x).Congruent size (n.addIndex x) := by
  have hsilent : n.dialect.indexFlagsOverflow = false := h.dialect ▸ hc.silent
  have hsum := Nat.ModEq.add_right (m.registers.get x).toNat h.registers.index
  unfold Machine.addIndex
  rw [hc.silent, hsilent, ← h.registers.get]
  exact h.withRegisters (h.registers.setIndex (.ofNat hc.divides hsum))

theorem indexAfterBlock (hc : m.Cyclic size) (h : m.Congruent size n) (x : Digit) :
    Word.Congruent size (m.indexAfterBlock x) (n.indexAfterBlock x) := by
  unfold Machine.indexAfterBlock
  rw [← h.dialect]
  split
  · exact h.registers.index.add hc.divides _
  · exact h.registers.index

theorem writeBlock (hc : m.Cyclic size) (h : m.Congruent size n) (bytes : List Byte) :
    m.memory.writeBlock m.registers.index.toNat bytes =
      n.memory.writeBlock n.registers.index.toNat bytes := by
  rw [← h.memory, Memory.writeBlock_congr (hc.index_modEq h)]

theorem readBlock (hc : m.Cyclic size) (h : m.Congruent size n) (count : Nat) :
    m.memory.readBlock m.registers.index.toNat count =
      n.memory.readBlock n.registers.index.toNat count := by
  rw [← h.memory, Memory.readBlock_congr (hc.index_modEq h)]

theorem storeDecimal (hc : m.Cyclic size) (h : m.Congruent size n) (x : Digit) :
    (m.storeDecimal x).Congruent size (n.storeDecimal x) := by
  unfold Machine.storeDecimal
  rw [← h.writeBlock hc, ← h.registers.get]
  exact { h with memory := rfl }

theorem storeBlock (hc : m.Cyclic size) (h : m.Congruent size n) (x : Digit) :
    (m.storeBlock x).Congruent size (n.storeBlock x) := by
  unfold Machine.storeBlock
  rw [← h.writeBlock hc, ← h.registers.upTo]
  exact { h with memory := rfl, registers := h.registers.setIndex (h.indexAfterBlock hc x) }

theorem loadBlock (hc : m.Cyclic size) (h : m.Congruent size n) (x : Digit) :
    (m.loadBlock x).Congruent size (n.loadBlock x) := by
  unfold Machine.loadBlock
  dsimp only
  rw [← h.readBlock hc]
  exact h.withRegisters ((h.registers.setBlock _).setIndex (h.indexAfterBlock hc x))

theorem call (h : m.Congruent size n) {a b : Word} (hab : Word.Congruent size a b)
    (target : ShortAddress) : Agree size (m.call a target) (n.call b target) := by
  have hpush := h.stack.push? h.pc
  unfold Machine.call
  generalize m.stack.push? m.pc = pushed at hpush
  generalize n.stack.push? n.pc = pushed' at hpush
  cases hpush with
  | some hstack =>
    refine .ok ?_ .jump
    exact { h with pc := .refl size _, stack := hstack }
  | none => exact .error h (h.stack.capacity ▸ .stackOverflow _ hab)

theorem ret (h : m.Congruent size n) {a b : Word} (hab : Word.Congruent size a b) :
    Agree size (m.ret a) (n.ret b) := by
  have hpop := h.stack.pop?
  unfold Machine.ret
  generalize m.stack.pop? = popped at hpop
  generalize n.stack.pop? = popped' at hpop
  cases hpop with
  | some hboth =>
    refine .ok ?_ .jump
    exact { h with pc := hboth.1, stack := hboth.2 }
  | none => exact .error h (.stackUnderflow hab)

theorem waitKey (hc : m.Cyclic size) (h : m.Congruent size n) (keys : Keypad) (x : Digit) :
    Agree size (m.waitKey keys x) (n.waitKey keys x) := by
  unfold Machine.waitKey
  split
  · exact .ok (h.withRegisters (h.registers.set x _)) .ok
  · exact .ok (h.withPc (h.pc.sub hc.divides 2)) .keyWait

theorem execute (hc : m.Cyclic size) (h : m.Congruent size n) (keys : Keypad) {a b : Word}
    (hab : Word.Congruent size a b) (i : Instruction) :
    Agree size (m.execute keys a i) (n.execute keys b i) := by
  cases i with
  | clearScreen =>
    refine .ok ?_ .draw
    exact { h with screen := congrArg (fun s => s.clear.mark) h.screen }
  | ret => exact h.ret hab
  | jump target => exact .ok (h.withPc (.refl size _)) .jump
  | call target => exact h.call hab target
  | skip condition =>
    rw [Machine.execute, Machine.execute, ← condition.holds_congr h.registers]
    exact .ok (h.skipIf hc _) .ok
  | loadByte x byte => exact .ok (h.withRegisters (h.registers.set x byte)) .ok
  | addByte x byte =>
    rw [Machine.execute, Machine.execute, ← h.registers.get]
    exact .ok (h.withRegisters (h.registers.set x _)) .ok
  | alu op x y => exact .ok (h.applyAlu op x y) .ok
  | loadIndex target => exact .ok (h.withRegisters (h.registers.setIndex (.refl size _))) .ok
  | jumpOffset base =>
    have hoffset : m.registers.get (Instruction.offsetRegister m.dialect base) =
        n.registers.get (Instruction.offsetRegister n.dialect base) := by
      rw [h.dialect, h.registers.get]
    rw [Machine.execute, Machine.execute, ← hoffset]
    exact .ok (h.withPc (.refl size _)) .jump
  | random x mask => exact .ok (h.takeRandom x mask) .ok
  | draw x y rows => exact .ok (h.drawSprite hc x y rows) .draw
  | readDelay x =>
    have hdelay : m.timers.delay = n.timers.delay := congrArg Timers.delay h.timers
    rw [Machine.execute, Machine.execute, ← hdelay]
    exact .ok (h.withRegisters (h.registers.set x _)) .ok
  | waitKey x => exact h.waitKey hc keys x
  | setDelay x =>
    rw [Machine.execute, Machine.execute, ← h.timers, ← h.registers.get]
    exact .ok (h.withTimers _) .ok
  | setSound x =>
    rw [Machine.execute, Machine.execute, ← h.timers, ← h.registers.get]
    exact .ok (h.withTimers _) .sound
  | addIndex x => exact .ok (h.addIndex hc x) .ok
  | loadGlyph x =>
    have hglyph : m.glyphAddress (m.registers.get x) = n.glyphAddress (n.registers.get x) := by
      rw [glyphAddress, glyphAddress, ← h.memory, ← h.registers.get]
    rw [Machine.execute, Machine.execute, ← hglyph]
    exact .ok (h.withRegisters (h.registers.setIndex (.refl size _))) .ok
  | storeDecimal x => exact .ok (h.storeDecimal hc x) .ok
  | storeBlock x => exact .ok (h.storeBlock hc x) .ok
  | loadBlock x => exact .ok (h.loadBlock hc x) .ok

theorem step (hc : m.Cyclic size) (h : m.Congruent size n) (keys : Keypad) :
    Agree size (m.step keys) (n.step keys) := by
  have hnext := h.withPc (h.pc.add hc.divides 2)
  have hcnext : { m with pc := m.pc + 2 }.Cyclic size := hc.of_shape rfl
  unfold Machine.step
  -- both counters mean the same cell, so both machines read the same word
  rw [← word_congr hc h]
  dsimp only
  split
  · exact hnext.execute hcnext keys h.pc _
  · exact .error hnext (.unsupported _ h.pc)

end Congruent

end Machine

end Chip8

import Chip8.Proofs.Machine.Step
import Chip8.Proofs.Memory.Block
import Chip8.Proofs.Screen.Lit
import Chip8.Proofs.Vm.Invariant
import Chip8.Proofs.Vm.Load
import Chip8.Instruction.Lemmas
import Mathlib.Logic.Function.Iterate

/-! A program that shows how many of its instructions were carried out, up to a period: after a
delay the corner of the screen is lit for one instruction of each period. -/

namespace Chip8

namespace Instruction

def code : List Instruction → List Byte
  | [] => []
  | i :: rest => i.word.high :: i.word.low :: code rest

theorem length_code (l : List Instruction) : (code l).length = 2 * l.length := by
  induction l with
  | nil => rfl
  | cons i rest ih =>
    rw [code, List.length_cons, List.length_cons, ih, List.length_cons]
    omega

theorem getElem?_code (l : List Instruction) (k : Nat) :
    (code l)[2 * k]? = l[k]?.map (fun i => i.word.high) ∧
      (code l)[2 * k + 1]? = l[k]?.map fun i => i.word.low := by
  induction l generalizing k with
  | nil => exact ⟨rfl, rfl⟩
  | cons i rest ih =>
    cases k with
    | zero => exact ⟨rfl, rfl⟩
    | succ k => exact ih k

end Instruction

namespace Memory

theorem fetch_writeBlock_code {m : Memory} {a k : Nat} {l : List Instruction}
    (h : a + 2 * l.length ≤ m.capacity) (hk : k < l.length) :
    (m.writeBlock a (Instruction.code l)).fetch (a + 2 * k) = l[k].word := by
  have hlen := Instruction.length_code l
  obtain ⟨hhigh, hlow⟩ := Instruction.getElem?_code l k
  have hfit : (Instruction.code l).length ≤ m.capacity := by omega
  have h0 : 2 * k < (Instruction.code l).length := by omega
  have h1 : 2 * k + 1 < (Instruction.code l).length := by omega
  rw [List.getElem?_eq_getElem h0, List.getElem?_eq_getElem hk] at hhigh
  rw [List.getElem?_eq_getElem h1, List.getElem?_eq_getElem hk] at hlow
  rw [fetch, Nat.add_assoc, read_writeBlock hfit h0, read_writeBlock hfit h1,
    Option.some.inj hhigh, Option.some.inj hlow]
  exact Word.ofBytes_high_low _

end Memory

namespace Blinker

variable (delay period : Nat)

/-- The corner is toggled twice at the start of a period, and a jump closes it. -/
def instructionAt (k : Nat) : Instruction :=
  if k = delay ∨ k = delay + 1 then .draw 0 0 1
  else if k + 1 = delay + period then .jump 512
  else .loadByte 0 0

def instructions : List Instruction :=
  (List.range (delay + period)).map (instructionAt delay period)

def program : Array Byte := (Instruction.code (instructions delay period)).toArray

/-- The periods start at address 512, and the font where the sprites are read. -/
def config (f : Frequency) : Config :=
  { programStart := 512 - 2 * delay, fontStart := 0, frequency := f, seed := some 0 }

def next (k : Nat) : Nat := if k + 1 = delay + period then delay else k + 1

def position (n : Nat) : Nat := if n < delay then n else delay + (n - delay) % period

structure Blinks (k : Nat) (m : Machine) : Prop where
  sprite : m.memory.read 0 = 0xF0
  code : ∀ i < delay + period,
    m.memory.fetch (512 - 2 * delay + 2 * i) = (instructionAt delay period i).word
  index : m.registers.index = 0
  corner : m.registers.get 0 = 0
  place : k < delay + period
  pc : m.pc.toNat = 512 - 2 * delay + 2 * k
  width : m.screen.width = 64
  height : m.screen.height = 32
  lit : m.screen.lit 0 0 = decide (k = delay + 1)

variable {delay period : Nat}

theorem next_iterate (hp : 0 < period) (n : Nat) :
    (next delay period)^[n] 0 = position delay period n := by
  induction n with
  | zero =>
    rw [Function.iterate_zero_apply, position, Nat.zero_sub, Nat.zero_mod]
    split
    · rfl
    · omega
  | succ n ih =>
    rw [Function.iterate_succ_apply', ih]
    unfold next position
    by_cases hn : n < delay
    · have hopen : ¬n + 1 = delay + period := by omega
      rw [if_pos hn, if_neg hopen]
      by_cases hn' : n + 1 < delay
      · rw [if_pos hn']
      · have hfirst : n + 1 - delay = 0 := by omega
        rw [if_neg hn', hfirst, Nat.zero_mod]
        omega
    · have hn' : ¬n + 1 < delay := by omega
      have hlt : (n - delay) % period < period := Nat.mod_lt _ hp
      have hsucc : (n + 1 - delay) % period = ((n - delay) % period + 1) % period := by
        rw [Nat.mod_add_mod, Nat.sub_add_comm (Nat.le_of_not_lt hn)]
      rw [if_neg hn, if_neg hn', hsucc]
      by_cases hlast : (n - delay) % period + 1 = period
      · have hclosed : delay + (n - delay) % period + 1 = delay + period := by omega
        rw [if_pos hclosed, hlast, Nat.mod_self, Nat.add_zero]
      · have hopen : ¬delay + (n - delay) % period + 1 = delay + period := by omega
        have hsmall : (n - delay) % period + 1 < period := by omega
        rw [if_neg hopen, Nat.mod_eq_of_lt hsmall, Nat.add_assoc]

namespace Blinks

variable {m : Machine} {k : Nat}

theorem lit_drawSprite (h : Blinks delay period k m) :
    (m.drawSprite 0 0 1).screen.lit 0 0 = !m.screen.lit 0 0 := by
  have hcells : m.spriteCells 0 0 1 = [(0, 0), (1, 0), (2, 0), (3, 0)] := by
    have hread : m.memory.readBlock m.registers.index.toNat (1 : Digit).val = [0xF0] := by
      rw [h.index]
      change [m.memory.read 0] = [0xF0]
      rw [h.sprite]
    rw [Machine.spriteCells, h.width, h.height, h.corner, hread]
    decide
  have hin : ∀ c ∈ m.spriteCells 0 0 1, m.screen.place c.1 c.2 < m.screen.pixels.size := by
    intro c hc
    rw [hcells] at hc
    apply Screen.place_lt
    · rw [h.width]
      revert c
      decide
    · rw [h.height]
      revert c
      decide
  have hhits : m.screen.hits (m.spriteCells 0 0 1) 0 0 = 1 := by
    rw [hcells]
    simp [Screen.hits, Screen.place]
  change (m.screen.draw (m.spriteCells 0 0 1)).1.lit 0 0 = _
  rw [Screen.lit_draw hin, hhits]
  exact Bool.xor_true _

theorem word (h : Blinks delay period k m) : m.word = (instructionAt delay period k).word := by
  rw [Machine.word, h.pc, h.code k h.place]

theorem pc_add_two (h : Blinks delay period k m) (hd : delay ≤ 256) (hp : period ≤ 256) :
    (m.pc + 2).toNat = 512 - 2 * delay + 2 * (k + 1) := by
  have hplace := h.place
  rw [UInt16.toNat_add, h.pc]
  change (512 - 2 * delay + 2 * k + 2) % 2 ^ 16 = _
  omega

theorem step (h : Blinks delay period k m) (hd : delay ≤ 256) (hp : 3 ≤ period)
    (hp' : period ≤ 256) (keys : Keypad) :
    ∃ n flow, m.step keys = (n, .ok flow) ∧ Blinks delay period (next delay period k) n := by
  have hplace := h.place
  have hpc := h.pc_add_two hd hp'
  rw [Machine.step_of_word h.word]
  unfold instructionAt next
  -- the corner is toggled, the period closed, or a register set to what it is
  by_cases hdraw : k = delay ∨ k = delay + 1
  · obtain ⟨hw, hh⟩ := m.screen.width_draw (m.spriteCells 0 0 1)
    rw [if_pos hdraw, if_neg (by omega)]
    refine ⟨_, .draw, rfl, h.sprite, h.code, h.index, ?_, by omega, hpc, hw.trans h.width,
      hh.trans h.height, ?_⟩
    · change (m.registers.set _ _).get 0 = 0
      rw [Registers.get_set, if_neg (by decide)]
      exact h.corner
    · change (m.drawSprite 0 0 1).screen.lit 0 0 = _
      rw [h.lit_drawSprite, h.lit, ← decide_not, decide_eq_decide]
      omega
  · rw [if_neg hdraw]
    by_cases hlast : k + 1 = delay + period
    · rw [if_pos hlast, if_pos hlast]
      refine ⟨_, .jump, rfl, h.sprite, h.code, h.index, h.corner, by omega, ?_, h.width, h.height,
        ?_⟩
      · change 512 = 512 - 2 * delay + 2 * delay
        omega
      · change m.screen.lit 0 0 = _
        rw [h.lit, decide_eq_decide]
        omega
    · rw [if_neg hlast, if_neg hlast]
      refine ⟨_, .ok, rfl, h.sprite, h.code, h.index, ?_, by omega, hpc, h.width, h.height, ?_⟩
      · change (m.registers.set _ _).get 0 = 0
        rw [Registers.get_set, if_pos rfl]
      · change m.screen.lit 0 0 = _
        rw [h.lit, decide_eq_decide]
        omega

end Blinks

theorem length_instructions (delay period : Nat) :
    (instructions delay period).length = delay + period := by
  rw [instructions, List.length_map, List.length_range]

theorem size_program (delay period : Nat) : (program delay period).size = 2 * (delay + period) := by
  rw [program, List.size_toArray, Instruction.length_code, length_instructions]

theorem accepts (f : Frequency) (hd : delay ≤ 200) (hp : period ≤ 256) :
    (Vm.new (config delay f)).Accepts (program delay period) Glyphs.chip48 := by
  have hstart : (config delay f).programStart = 512 - 2 * delay := rfl
  have hsize := size_program delay period
  refine ⟨⟨show 0 < 4096 by decide, show 4096 ≤ 65536 by decide, ?_, show 0 < 4096 by decide,
    show 0 < 16 by decide, show 16 ≤ 256 by decide, show 0 < 64 by decide,
    show 64 ≤ 256 by decide, show 0 < 32 by decide, show 32 ≤ 256 by decide, ?_⟩, rfl, rfl,
    show 0 + 80 ≤ 4096 by decide, ?_⟩
  · change 512 - 2 * delay < 4096
    omega
  · rintro ⟨-, -, hover⟩
    change 512 - 2 * delay < 80 at hover
    omega
  · change 512 - 2 * delay + (program delay period).size ≤ 4096
    omega

theorem blinks_fresh (f : Frequency) (h : 0 < (config delay f).memorySize) (entropy : Random.Key)
    (hd : delay ≤ 200) (hp : 3 ≤ period) (hp' : period ≤ 256) :
    Blinks delay period 0
      (.fresh (config delay f) h Glyphs.chip48 (program delay period) entropy) := by
  have hlen := length_instructions delay period
  have hzeros : (Memory.zeros 4096 h 0 (512 - 2 * delay)).capacity = 4096 :=
    Memory.capacity_zeros 4096 h 0 (512 - 2 * delay)
  have hfont : ((Memory.zeros 4096 h 0 (512 - 2 * delay)).writeBlock 0
      Glyphs.chip48.toList).capacity = 4096 := by
    rw [Memory.capacity_writeBlock, hzeros]
  have hglyphs : Glyphs.chip48.toList.length = 80 := rfl
  have hcode : 512 - 2 * delay + (Instruction.code (instructions delay period)).length ≤ 4096 := by
    rw [Instruction.length_code, hlen]
    omega
  constructor
  · change (((Memory.zeros 4096 h 0 (512 - 2 * delay)).writeBlock 0
      Glyphs.chip48.toList).writeBlock (512 - 2 * delay)
        (Instruction.code (instructions delay period))).read 0 = 0xF0
    rw [Memory.read_writeBlock_of_outside (by omega) (by omega) (.inl (by omega))]
    exact Memory.read_writeBlock (i := 0) (by omega) (by omega)
  · intro i hi
    have hlt : i < (instructions delay period).length := by omega
    have hat : (instructions delay period)[i] = instructionAt delay period i := by
      simp [instructions]
    have hfit : 512 - 2 * delay + 2 * (instructions delay period).length ≤
        ((Memory.zeros 4096 h 0 (512 - 2 * delay)).writeBlock 0 Glyphs.chip48.toList).capacity := by
      omega
    rw [← hat]
    exact Memory.fetch_writeBlock_code hfit hlt
  · rfl
  · change ({} : Registers).get 0 = 0
    decide
  · omega
  · change (UInt16.ofNat (512 - 2 * delay)).toNat = 512 - 2 * delay + 2 * 0
    rw [UInt16.toNat_ofNat']
    omega
  · rfl
  · rfl
  · have hdark : decide (0 = delay + 1) = false := decide_eq_false (by omega)
    rw [hdark]
    exact Screen.lit_of_dark rfl 0 0

theorem runFrom_blinks (count : Nat) (flow : Flow) (vm : Vm) {m : Machine} {k : Nat}
    (ht : vm.trap? = none) (hm : vm.machine? = some m) (h : Blinks delay period k m)
    (hd : delay ≤ 200) (hp : 3 ≤ period) (hp' : period ≤ 256) :
    ∃ n last, Vm.runFrom flow count vm = ({ vm with machine? := some n }, .ok last) ∧
      Blinks delay period ((next delay period)^[count] k) n := by
  induction count generalizing flow vm m k with
  | zero =>
    refine ⟨m, flow, ?_, h⟩
    rw [Vm.machine?_self hm]
    rfl
  | succ count ih =>
    obtain ⟨n, last, hstep, hn⟩ := h.step (by omega) hp hp' vm.keys
    rw [Vm.runFrom_succ, Vm.step_ok_of_ready (Vm.ready_eq_ok_iff.2 ⟨ht, hm⟩) hstep]
    exact ih last { vm with machine? := some n } ht rfl hn

theorem update_blinks (vm : Vm) (milliseconds : Float) {m : Machine} {k : Nat}
    (ht : vm.trap? = none) (hm : vm.machine? = some m) (h : Blinks delay period k m)
    (hd : delay ≤ 200) (hp : 3 ≤ period) (hp' : period ≤ 256) :
    ∃ n, vm.update milliseconds = ({ vm with machine? := some n }, .ok ()) ∧
      Blinks delay period ((next delay period)^[vm.frameSteps milliseconds] k) n := by
  have hunmark : Blinks delay period k { m with screen := m.screen.unmark } := { h with }
  have hmachine : vm.unmark.machine? = some { m with screen := m.screen.unmark } := by
    rw [Vm.unmark, Vm.mapMachine, hm]
    rfl
  obtain ⟨n, last, hrun, hn⟩ :=
    runFrom_blinks (vm.frameSteps milliseconds) .ok vm.unmark ht hmachine hunmark hd hp hp'
  refine ⟨{ n with timers := n.timers.tick }, ?_, { hn with }⟩
  rw [Vm.update_eq, Vm.ready_eq_ok_iff.2 ⟨ht, hm⟩]
  dsimp only
  rw [Vm.run, hrun]
  rfl

end Blinker

end Chip8

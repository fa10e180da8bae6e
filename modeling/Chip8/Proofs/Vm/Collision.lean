import Chip8.Proofs.Screen.Collision
import Chip8.Proofs.Vm.Drawing
import Mathlib.Data.List.ProdSigma

/-! What one draw instruction does. On a screen that is smaller than the sprite it comes back to the
same pixel several times; how often decides on the pixel, on the flag and on the mark. -/

namespace Chip8

namespace Machine

variable {m : Machine} {x y rows : Digit}

def hits (m : Machine) (x y rows : Digit) (p q : Nat) : Nat :=
  (List.range rows.val ×ˢ List.range 8).countP fun (r, c) =>
    m.spriteBit r c ∧ ((m.registers.get x).toNat + c) % m.screen.width = p ∧
      ((m.registers.get y).toNat + r) % m.screen.height = q

/-- A pixel of the sprite falls on one that is lit, or two of them fall on the same. -/
def Collides (m : Machine) (x y rows : Digit) : Prop :=
  ∃ p < m.screen.width, ∃ q < m.screen.height,
    1 ≤ m.hits x y rows p q ∧ m.screen.lit p q ∨ 2 ≤ m.hits x y rows p q

instance (m : Machine) (x y rows : Digit) : Decidable (m.Collides x y rows) :=
  inferInstanceAs (Decidable (∃ p < m.screen.width, ∃ q < m.screen.height, _))

/-- The machine `n` is `m` with a sprite drawn, `N` rows of it with the corner at `(VX, VY)`. -/
structure SpriteDrawn (m : Machine) (x y rows : Digit) (n : Machine) : Prop where
  width : n.screen.width = m.screen.width
  height : n.screen.height = m.screen.height
  lit : ∀ p < m.screen.width, ∀ q < m.screen.height,
    n.screen.lit p q = (m.screen.lit p q ^^ decide (m.hits x y rows p q % 2 = 1))
  flag : n.registers.get 0xF = if m.Collides x y rows then 1 else 0
  dirty : n.screen.dirty = true ↔ m.screen.dirty = true ∨
    ∃ p < m.screen.width, ∃ q < m.screen.height, 0 < m.hits x y rows p q
  memory : n.memory = m.memory
  index : n.registers.index = m.registers.index
  stack : n.stack = m.stack
  timers : n.timers = m.timers
  registers : ∀ k ≠ 0xF, n.registers.get k = m.registers.get k

theorem hits_spriteCells {p : Nat} (hp : p < m.screen.width) (q : Nat) :
    m.screen.hits (m.spriteCells x y rows) p q = m.hits x y rows p q := by
  have hw : 0 < m.screen.width := Nat.zero_lt_of_lt hp
  -- on the screen a place has one column and one row only
  have hcell (r c : Nat) :
      m.screen.place (((m.registers.get x).toNat + c) % m.screen.width)
          (((m.registers.get y).toNat + r) % m.screen.height) = m.screen.place p q ↔
        ((m.registers.get x).toNat + c) % m.screen.width = p ∧
          ((m.registers.get y).toNat + r) % m.screen.height = q :=
    ⟨Screen.place_inj (Nat.mod_lt _ hw) hp, fun ⟨hcolumn, hrow⟩ => by rw [hcolumn, hrow]⟩
  have hcells : m.spriteCells x y rows = (List.range rows.val).flatMap fun r =>
      Sprite.rowCells m.screen.width m.screen.height (m.registers.get x).toNat
        (m.registers.get y).toNat r (m.memory.read (m.registers.index.toNat + r)) (List.range 8) :=
    Sprite.cells_map_range ..
  have hpairs : List.range rows.val ×ˢ List.range 8 =
      (List.range rows.val).flatMap fun r => (List.range 8).map fun c => (r, c) := rfl
  rw [Screen.hits, hcells, hits, hpairs, List.countP_flatMap, List.countP_flatMap]
  refine congrArg List.sum (List.map_congr_left fun r _ => ?_)
  rw [Function.comp_apply, Function.comp_apply, Sprite.rowCells, List.countP_map, List.countP_map,
    List.countP_filter]
  refine List.countP_congr fun c _ => ?_
  simp only [Function.comp_apply, hcell, Bool.and_eq_true, decide_eq_true_eq]
  exact and_comm

section

variable (hw : 0 < m.screen.width) (hh : 0 < m.screen.height) (x y rows : Digit)
include hw hh

theorem covers_spriteCells : m.screen.Covers (m.spriteCells x y rows) :=
  covers_cellsOf hw hh (m.placement x y rows)

theorem exists_mem_spriteCells_iff {P : Nat → Nat → Prop} :
    (∃ c ∈ m.spriteCells x y rows, P c.1 c.2) ↔
      ∃ p < m.screen.width, ∃ q < m.screen.height, 0 < m.hits x y rows p q ∧ P p q := by
  have hcovers := covers_spriteCells hw hh x y rows
  constructor
  · rintro ⟨⟨p, q⟩, hc, h⟩
    obtain ⟨hp, hq⟩ := hcovers _ hc
    refine ⟨p, hp, q, hq, ?_, h⟩
    rw [← hits_spriteCells hp q]
    exact Screen.hits_pos_iff.2 ⟨_, hc, rfl⟩
  · rintro ⟨p, hp, q, hq, hpos, h⟩
    rw [← hits_spriteCells hp q] at hpos
    obtain ⟨⟨a, b⟩, hc, hplace⟩ := Screen.hits_pos_iff.1 hpos
    obtain ⟨rfl, rfl⟩ := Screen.place_inj (hcovers _ hc).1 hp hplace
    exact ⟨_, hc, h⟩

theorem draw_spriteCells_hit_iff :
    (m.screen.draw (m.spriteCells x y rows)).2 = true ↔ m.Collides x y rows := by
  rw [Screen.draw_hit_iff (covers_spriteCells hw hh x y rows).place_lt,
    exists_mem_spriteCells_iff hw hh x y rows
      (P := fun p q => m.screen.Found (m.spriteCells x y rows) (p, q))]
  refine exists_congr fun p => and_congr_right fun hp => exists_congr fun q =>
    and_congr_right fun _ => ?_
  rw [Screen.Found, hits_spriteCells hp q, and_or_left]
  exact or_congr Iff.rfl (and_iff_right_of_imp (Nat.lt_of_lt_of_le Nat.two_pos))

theorem spriteDrawn_drawSprite : m.SpriteDrawn x y rows (m.drawSprite x y rows) where
  width := (m.screen.width_draw _).1
  height := (m.screen.width_draw _).2
  lit p hp q hq := by
    rw [← hits_spriteCells hp q]
    exact Screen.lit_draw (covers_spriteCells hw hh x y rows).place_lt p q
  flag := by
    have hflag := m.get_flag_drawSprite x y rows
    have hhit := draw_spriteCells_hit_iff hw hh x y rows
    by_cases hcollides : m.Collides x y rows
    · rw [if_pos hcollides]
      exact hflag.trans (if_pos (hhit.2 hcollides))
    · rw [if_neg hcollides]
      exact hflag.trans (if_neg fun h => hcollides (hhit.1 h))
  dirty := by
    have hsome := exists_mem_spriteCells_iff hw hh x y rows (P := fun _ _ => True)
    simp only [and_true] at hsome
    rw [← hsome]
    exact Screen.dirty_draw_iff
  memory := rfl
  index := rfl
  stack := rfl
  timers := rfl
  registers k hk := by
    rw [registers_drawSprite, Registers.setFlag, Registers.get_set]
    exact if_neg hk.symm

end

end Machine

namespace Vm

variable {vm : Vm} {m : Machine}

/-- A draw instruction toggles each pixel as often as bits of the sprite fall on it. The flag tells
whether one of them was lit before or is covered twice, the mark whether there are any, and nothing
else of the machine changes but the counter. -/
theorem step_draws_sprite {c : Config} {source : GlyphSource} {actions : List Action}
    (hvm : vm = ((new c source).undergo actions).1) (hm : vm.machine? = some m)
    {x y rows : Digit} (hword : m.word = (Instruction.draw x y rows).word) :
    ∃ n, (∀ keys, m.step keys = (n, .ok .draw)) ∧
      (vm.trap? = none → vm.step = ({ vm with machine? := some n }, .ok .draw)) ∧
      m.SpriteDrawn x y rows n := by
  have hfits : m.Fits c := fits_of_undergo hvm hm
  have hstep := Machine.step_of_draw hword
  refine ⟨_, hstep, fun ht => step_ok_of_ready (ready_eq_ok_iff.2 ⟨ht, hm⟩) (hstep vm.keys), ?_⟩
  have hdrawn := Machine.spriteDrawn_drawSprite (m := { m with pc := m.pc + 2 })
    (hfits.width ▸ hfits.width_pos) (hfits.height ▸ hfits.height_pos) x y rows
  exact { hdrawn with }

/-- On a screen of three columns the first pixel of a row is the fourth, too. -/
theorem step_draws_sprite_around :
    let small : Config := { memorySize := 86, fontStart := 0, programStart := 80, seed := some 7 }
    let vm := (new { small with screenWidth := 3, screenHeight := 2 }).after
      [.load #[0xD0, 0x01] default]
    ∃ m n, vm.machine? = some m ∧ m.word = (Instruction.draw 0 0 1).word ∧
      vm.step = ({ vm with machine? := some n }, .ok .draw) ∧ n.registers.get 0xF = 1 ∧
      n.screen.lit 0 0 = false ∧ n.screen.lit 1 0 = true := by
  intro small vm
  obtain ⟨m, hm, hfacts⟩ : ∃ m, vm.machine? = some m ∧
      (m.word, [m.screen.width, m.screen.height], [m.screen.lit 0 0, m.screen.lit 1 0],
        [m.hits 0 0 1 0 0, m.hits 0 0 1 1 0]) =
        ((Instruction.draw 0 0 1).word, [3, 2], [false, false], [2, 1]) :=
    Option.map_eq_some_iff.1 (by decide +kernel)
  simp only [Prod.mk.injEq, List.cons.injEq, and_true] at hfacts
  obtain ⟨hword, ⟨hw, hh⟩, ⟨hcorner, hsecond⟩, htwice, honce⟩ := hfacts
  have hcollides : m.Collides 0 0 1 :=
    ⟨0, by omega, 0, by omega, .inr (Nat.le_of_eq htwice.symm)⟩
  obtain ⟨n, -, hstep, hdrawn⟩ := step_draws_sprite (undergo_plain _ _).symm hm hword
  refine ⟨m, n, hm, hword, hstep (by decide +kernel), ?_, ?_, ?_⟩
  · rw [hdrawn.flag, if_pos hcollides]
  · rw [hdrawn.lit 0 (by omega) 0 (by omega), hcorner, htwice]
    rfl
  · rw [hdrawn.lit 1 (by omega) 0 (by omega), hsecond, honce]
    rfl

end Vm

end Chip8

import Chip8.Proofs.Machine.Step
import Chip8.Proofs.Screen.Parity
import Chip8.Proofs.Vm.Fits
import Chip8.Proofs.Vm.Reload

/-! Sprites on the screen of a machine. A list of sprites that is drawn from the same memory comes
to the same pixels in any order, and drawn a second time it takes itself away. -/

namespace Chip8

structure Placement where
  x : Byte
  y : Byte
  index : Word
  rows : Digit
  deriving DecidableEq, Repr

namespace Machine

def placement (m : Machine) (x y rows : Digit) : Placement :=
  ⟨m.registers.get x, m.registers.get y, m.registers.index, rows⟩

def cellsOf (m : Machine) (p : Placement) : List (Nat × Nat) :=
  Sprite.cells m.screen.width m.screen.height p.x.toNat p.y.toNat
    (m.memory.readBlock p.index.toNat p.rows.val)

structure SameCanvas (m n : Machine) : Prop where
  memory : n.memory = m.memory
  width : n.screen.width = m.screen.width
  height : n.screen.height = m.screen.height
  pixels : n.screen.pixels = m.screen.pixels

/-- The sprites are drawn in turn, by instructions with any registers, flag and all. Before each,
and at the end, all may have changed but memory and pixels. -/
inductive Draws : Machine → List Placement → Machine → Prop
  | nil {m n : Machine} (between : m.SameCanvas n) : Draws m [] n
  | cons {m n o : Machine} {ps : List Placement} (between : m.SameCanvas n) (x y rows : Digit)
    (keys : Keypad) (address : Word)
    (rest : Draws (n.execute keys address (.draw x y rows)).1 ps o) :
    Draws m (n.placement x y rows :: ps) o

def drawn (m : Machine) (cells : List (Nat × Nat)) : Machine :=
  { m with screen := (m.screen.draw cells).1 }

variable {m n o : Machine} {ps qs : List Placement} {x y rows : Digit}

namespace SameCanvas

theorem refl (m : Machine) : m.SameCanvas m := ⟨rfl, rfl, rfl, rfl⟩

theorem trans (h : m.SameCanvas n) (h' : n.SameCanvas o) : m.SameCanvas o :=
  ⟨h'.memory.trans h.memory, h'.width.trans h.width, h'.height.trans h.height,
    h'.pixels.trans h.pixels⟩

theorem cellsOf (h : m.SameCanvas n) : n.cellsOf = m.cellsOf := by
  funext p
  rw [Machine.cellsOf, Machine.cellsOf, h.memory, h.width, h.height]

theorem drawn (h : m.SameCanvas n) (cells : List (Nat × Nat)) :
    (m.drawn cells).SameCanvas (n.drawn cells) where
  memory := h.memory
  width := (n.screen.width_draw cells).1.trans (h.width.trans (m.screen.width_draw cells).1.symm)
  height := (n.screen.width_draw cells).2.trans (h.height.trans (m.screen.width_draw cells).2.symm)
  pixels := Screen.pixels_draw_congr h.width h.pixels cells

theorem execute_draw (h : m.SameCanvas n) (x y rows : Digit) (keys : Keypad) (address : Word) :
    (m.drawn (m.cellsOf (n.placement x y rows))).SameCanvas
      (n.execute keys address (.draw x y rows)).1 := by
  rw [← h.cellsOf]
  exact (h.drawn _).trans ⟨rfl, rfl, rfl, rfl⟩

end SameCanvas

theorem drawn_append (m : Machine) (cells more : List (Nat × Nat)) :
    (m.drawn cells).drawn more = m.drawn (cells ++ more) := by
  simp only [drawn, Screen.draw_append]

theorem cellsOf_drawn (m : Machine) (cells : List (Nat × Nat)) :
    (m.drawn cells).cellsOf = m.cellsOf := by
  obtain ⟨hw, hh⟩ := m.screen.width_draw cells
  funext p
  unfold cellsOf drawn
  rw [hw, hh]

namespace Draws

theorem drawn (h : m.Draws ps n) : (m.drawn (ps.flatMap m.cellsOf)).SameCanvas n := by
  induction h with
  | nil between => exact between
  | @cons m n o ps between x y rows keys address rest ih =>
    -- the first sprite changes neither memory nor the sides, so the others have the same cells
    have hfirst := between.execute_draw x y rows keys address
    have hcells : (n.execute keys address (.draw x y rows)).1.cellsOf = m.cellsOf :=
      hfirst.cellsOf.trans (m.cellsOf_drawn _)
    rw [hcells] at ih
    rw [List.flatMap_cons, ← drawn_append]
    exact (hfirst.drawn _).trans ih

theorem exists_draws (m : Machine) (ps : List Placement) : ∃ n, m.Draws ps n := by
  induction ps generalizing m with
  | nil => exact ⟨m, .nil (.refl m)⟩
  | cons p ps ih =>
    let placed : Machine :=
      { m with registers := ((m.registers.set 0 p.x).set 1 p.y).setIndex p.index }
    have hplaced : placed.placement 0 1 p.rows = p := by
      simp [placed, placement, Registers.setIndex, Registers.get, Registers.set]
    obtain ⟨n, hn⟩ := ih (placed.execute {} 0 (.draw 0 1 p.rows)).1
    have hdraws := Draws.cons (m := m) (n := placed) ⟨rfl, rfl, rfl, rfl⟩ 0 1 p.rows {} 0 hn
    exact ⟨n, hplaced ▸ hdraws⟩

end Draws

theorem covers_cellsOf (hw : 0 < m.screen.width) (hh : 0 < m.screen.height) (p : Placement) :
    m.screen.Covers (m.cellsOf p) := by
  intro c hc
  obtain ⟨r, -, k, -, -, rfl⟩ := Sprite.mem_cells_map_range.1 hc
  exact ⟨Nat.mod_lt _ hw, Nat.mod_lt _ hh⟩

theorem covers_flatMap (hw : 0 < m.screen.width) (hh : 0 < m.screen.height)
    (ps : List Placement) : m.screen.Covers (ps.flatMap m.cellsOf) := by
  intro c hc
  obtain ⟨p, -, hp⟩ := List.mem_flatMap.1 hc
  exact covers_cellsOf hw hh p c hp

namespace Draws

variable (hw : 0 < m.screen.width) (hh : 0 < m.screen.height)
include hw hh

theorem pixels_perm (hperm : ps.Perm qs) (hn : m.Draws ps n) (ho : m.Draws qs o) :
    n.screen.pixels = o.screen.pixels := by
  rw [hn.drawn.pixels, ho.drawn.pixels]
  exact Screen.pixels_draw_perm (covers_flatMap hw hh ps) (hperm.flatMap_right _)

theorem pixels_append_perm (hperm : ps.Perm qs) (hn : m.Draws (ps ++ qs) n) :
    n.screen.pixels = m.screen.pixels := by
  rw [hn.drawn.pixels, List.flatMap_append]
  exact Screen.pixels_draw_append_perm (covers_flatMap hw hh ps) (hperm.flatMap_right _)

end Draws

/-! The same draw instruction twice. -/

theorem step_of_draw (h : m.word = (Instruction.draw x y rows).word) (keys : Keypad) :
    m.step keys = ({ m with pc := m.pc + 2 }.drawSprite x y rows, .ok .draw) :=
  step_of_word h keys

theorem Draws.of_step (h : m.word = (Instruction.draw x y rows).word) (keys : Keypad)
    (rest : Draws (m.step keys).1 ps n) : m.Draws (m.placement x y rows :: ps) n := by
  have hmoved : m.SameCanvas { m with pc := m.pc + 2 } := ⟨rfl, rfl, rfl, rfl⟩
  rw [step_of_draw h] at rest
  exact .cons hmoved x y rows keys m.pc rest

theorem registers_drawSprite (m : Machine) (x y rows : Digit) :
    (m.drawSprite x y rows).registers =
      m.registers.setFlag (m.screen.draw (m.cellsOf (m.placement x y rows))).2 := rfl

theorem get_flag_drawSprite (m : Machine) (x y rows : Digit) :
    (m.drawSprite x y rows).registers.get Registers.flag =
      if (m.screen.draw (m.cellsOf (m.placement x y rows))).2 then 1 else 0 := by
  rw [registers_drawSprite, Registers.setFlag, Registers.get_set, if_pos rfl]

theorem placement_drawSprite (hx : x ≠ Registers.flag) (hy : y ≠ Registers.flag) :
    (m.drawSprite x y rows).placement x y rows = m.placement x y rows := by
  rw [placement, placement, registers_drawSprite, Registers.setFlag, Registers.get_set,
    Registers.get_set, if_neg hx.symm, if_neg hy.symm]
  rfl

theorem cellsOf_drawSprite (m : Machine) (x y rows : Digit) :
    (m.drawSprite x y rows).cellsOf = m.cellsOf :=
  m.cellsOf_drawn (m.cellsOf (m.placement x y rows))

theorem two_steps_of_draw (hx : x ≠ Registers.flag) (hy : y ≠ Registers.flag)
    (hfirst : m.word = (Instruction.draw x y rows).word)
    (hsecond : m.memory.fetch (m.pc + 2).toNat = (Instruction.draw x y rows).word)
    (keys keys' : Keypad) :
    ∃ n o, m.step keys = (n, .ok .draw) ∧ n.step keys' = (o, .ok .draw) ∧
      m.Draws [m.placement x y rows, m.placement x y rows] o ∧
      n.registers.get Registers.flag =
        (if (m.screen.draw (m.cellsOf (m.placement x y rows))).2 then 1 else 0) ∧
      o.registers.get Registers.flag =
        if ((m.screen.draw (m.cellsOf (m.placement x y rows))).1.draw
          (m.cellsOf (m.placement x y rows))).2 then 1 else 0 := by
  generalize hn : { m with pc := m.pc + 2 }.drawSprite x y rows = n
  have hword : n.word = (Instruction.draw x y rows).word := by
    rw [← hn]
    exact hsecond
  have hplace : n.placement x y rows = m.placement x y rows := hn ▸ placement_drawSprite hx hy
  have hcells : n.cellsOf = m.cellsOf := hn ▸ cellsOf_drawSprite _ x y rows
  have hscreen : n.screen = (m.screen.draw (m.cellsOf (m.placement x y rows))).1 := by
    rw [← hn]
    rfl
  refine ⟨n, _, hn ▸ step_of_draw hfirst keys, step_of_draw hword keys', ?_, ?_, ?_⟩
  · have hlast := Draws.of_step hword keys' (.nil (.refl (n.step keys').1))
    rw [hplace, step_of_draw hword] at hlast
    refine .of_step hfirst keys ?_
    rw [step_of_draw hfirst, hn]
    exact hlast
  · rw [← hn]
    exact get_flag_drawSprite _ x y rows
  · rw [get_flag_drawSprite, ← hscreen, ← hplace, ← hcells]
    rfl

def spriteBit (m : Machine) (r c : Nat) : Bool :=
  (m.memory.read (m.registers.index.toNat + r)).toNat.testBit (7 - c)

theorem mem_cellsOf_placement {c : Nat × Nat} :
    c ∈ m.cellsOf (m.placement x y rows) ↔
      ∃ r < rows.val, ∃ k < 8, m.spriteBit r k ∧
        c = (((m.registers.get x).toNat + k) % m.screen.width,
          ((m.registers.get y).toNat + r) % m.screen.height) :=
  Sprite.mem_cells_map_range

end Machine

namespace Vm

variable {vm : Vm} {m : Machine}

/-- Sprites that are drawn from the same memory come to the same pixels in every order, and drawn
once more, in any order, they leave the pixels that were there before. So does an instruction `DXYN`
that is done twice; if all that it draws was dark and it fits on the screen, only the second time
tells of a collision. -/
theorem draws_commute {c : Config} {source : GlyphSource} {actions : List Action}
    (hvm : vm = ((new c source).undergo actions).1) (hm : vm.machine? = some m) :
    (∀ ps, ∃ n, m.Draws ps n) ∧
      (∀ ps qs n o, ps.Perm qs → m.Draws ps n → m.Draws qs o →
        n.screen.pixels = o.screen.pixels) ∧
      (∀ ps qs n, ps.Perm qs → m.Draws (ps ++ qs) n → n.screen.pixels = m.screen.pixels) ∧
      ∀ x y rows keys keys', x ≠ 0xF → y ≠ 0xF →
        m.word = (Instruction.draw x y rows).word →
        m.memory.fetch (m.pc + 2).toNat = (Instruction.draw x y rows).word →
        ∃ n o, m.step keys = (n, .ok .draw) ∧ n.step keys' = (o, .ok .draw) ∧
          o.screen.pixels = m.screen.pixels ∧
          ((∀ r < rows.val, ∀ k < 8, m.spriteBit r k →
              m.screen.lit (((m.registers.get x).toNat + k) % m.screen.width)
                (((m.registers.get y).toNat + r) % m.screen.height) = false) →
            (∃ r < rows.val, ∃ k < 8, m.spriteBit r k) →
            8 ≤ m.screen.width → rows.val ≤ m.screen.height →
            n.registers.get 0xF = 0 ∧ o.registers.get 0xF = 1) := by
  have hfits : m.Fits c := by
    rw [hvm] at hm
    exact (fits_undergo c source actions).2 m hm
  have hw : 0 < m.screen.width := hfits.width ▸ hfits.width_pos
  have hh : 0 < m.screen.height := hfits.height ▸ hfits.height_pos
  refine ⟨Machine.Draws.exists_draws m, fun ps qs n o => Machine.Draws.pixels_perm hw hh,
    fun ps qs n => Machine.Draws.pixels_append_perm hw hh, ?_⟩
  intro x y rows keys keys' hx hy hfirst hsecond
  obtain ⟨n, o, hn, ho, hdraws, hflag, hflag'⟩ :=
    Machine.two_steps_of_draw hx hy hfirst hsecond keys keys'
  have hpixels : o.screen.pixels = m.screen.pixels :=
    Machine.Draws.pixels_append_perm hw hh (.refl [m.placement x y rows]) hdraws
  refine ⟨n, o, hn, ho, hpixels, fun hdark hbit hwide hhigh => ?_⟩
  have hcovers := Machine.covers_cellsOf hw hh (m.placement x y rows)
  have hnodup : (m.cellsOf (m.placement x y rows)).Nodup :=
    Sprite.nodup_cells_map_range _ hwide hhigh
  have hdark' : ∀ c ∈ m.cellsOf (m.placement x y rows), m.screen.lit c.1 c.2 = false := by
    intro c hc
    obtain ⟨r, hr, k, hk, hset, rfl⟩ := Machine.mem_cellsOf_placement.1 hc
    exact hdark r hr k hk hset
  have hsome : m.cellsOf (m.placement x y rows) ≠ [] := by
    obtain ⟨r, hr, k, hk, hset⟩ := hbit
    exact List.ne_nil_of_mem (Machine.mem_cellsOf_placement.2 ⟨r, hr, k, hk, hset, rfl⟩)
  rw [Screen.draw_misses hcovers hnodup hdark'] at hflag
  rw [Screen.draw_again_hits hcovers hnodup hdark' hsome] at hflag'
  exact ⟨hflag, hflag'⟩

theorem draws_commute_of_glyph :
    ∃ vm m n o, vm = (new { seed := some 7, fontStart := 0 }).after
        [.load #[0xD0, 0x05, 0xD0, 0x05] default] ∧
      vm.machine? = some m ∧ m.step vm.keys = (n, .ok .draw) ∧ n.step vm.keys = (o, .ok .draw) ∧
      o.screen.pixels = m.screen.pixels ∧ n.registers.get 0xF = 0 ∧ o.registers.get 0xF = 1 := by
  have ha : (new { seed := some 7, fontStart := 0 }).Accepts #[0xD0, 0x05, 0xD0, 0x05]
      Glyphs.chip48 :=
    ⟨Config.describes_of_check rfl, rfl, rfl, by decide, by decide⟩
  obtain ⟨vm, m, hvm, hstarts, hready⟩ := ha.ready_after rfl
  have hm := machine?_of_ready hready
  have hpc : m.pc = 0x200 := hstarts.pc_eq
  have hword : m.word = (Instruction.draw 0 0 5).word := hstarts.word_eq rfl
  have hnext : m.memory.fetch (m.pc + 2).toNat = (Instruction.draw 0 0 5).word := by
    rw [hpc]
    exact hstarts.memory.program_holds.fetch (k := 2) rfl
  have hwidth : m.screen.width = 64 := congrArg Shape.width hstarts.shape
  have hheight : m.screen.height = 32 := congrArg Shape.height hstarts.shape
  have hglyph : m.memory.read 0 = 0xF0 :=
    (Option.some.inj (hstarts.memory.glyphs_hold 0 (by decide) (by decide))).symm
  have hbit : m.spriteBit 0 0 = true := by
    rw [Machine.spriteBit, hstarts.index]
    exact (congrArg (fun b : Byte => b.toNat.testBit 7) hglyph).trans (by decide)
  obtain ⟨-, -, -, htwice⟩ := draws_commute (hvm.trans (undergo_plain _ _).symm) hm
  obtain ⟨n, o, hn, ho, hpixels, hflags⟩ :=
    htwice 0 0 5 vm.keys vm.keys (by decide) (by decide) hword hnext
  obtain ⟨hclear, hset⟩ := hflags (fun _ _ _ _ _ => Screen.lit_of_dark hstarts.dark _ _)
    ⟨0, by decide, 0, by decide, hbit⟩ (by rw [hwidth]; decide) (by rw [hheight]; decide)
  exact ⟨vm, m, n, o, hvm, hm, hn, ho, hpixels, hclear, hset⟩

end Vm

end Chip8

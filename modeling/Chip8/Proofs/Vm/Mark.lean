import Chip8.Proofs.Instruction.Pattern
import Chip8.Proofs.Machine.Frame
import Chip8.Proofs.Machine.Step
import Chip8.Proofs.Screen.Lit
import Chip8.Proofs.Vm.Effect

/-! The mark on the screen. After an update it tells whether one of its steps cleared the screen or
drew a sprite that is not blank, so a host that finds no mark can keep what it shows. -/

namespace Chip8

theorem Sprite.exists_column_iff {row : Byte} :
    (∃ k < Limits.spriteWidth, row.toNat.testBit (7 - k)) ↔ row ≠ 0 := by
  constructor
  · rintro ⟨k, -, hbit⟩ rfl
    exact Bool.false_ne_true ((Nat.zero_testBit _).symm.trans hbit)
  · intro hrow
    have hne : row.toNat ≠ 0 := fun h => hrow (UInt8.toNat_inj.1 h)
    obtain ⟨i, hi⟩ := Nat.exists_testBit_of_ne_zero hne
    have hlt : i < 8 := by
      by_contra hge
      have hpow : row.toNat < 2 ^ i :=
        Nat.lt_of_lt_of_le row.toNat_lt (Nat.pow_le_pow_right (by decide) (Nat.le_of_not_lt hge))
      rw [Nat.testBit_lt_two_pow hpow] at hi
      cases hi
    refine ⟨7 - i, Nat.lt_succ_of_le (Nat.sub_le 7 i), ?_⟩
    rwa [Nat.sub_sub_self (Nat.le_of_lt_succ hlt)]

namespace Machine

variable {m : Machine}

/-- The next step clears the screen, or it draws a sprite of which a row is not blank. -/
def Paints (m : Machine) : Prop :=
  m.word = 0x00E0 ∨
    m.word.t = 0xD ∧ ∃ r < m.word.n.val, m.memory.read (m.registers.index.toNat + r) ≠ 0

instance (m : Machine) : Decidable m.Paints := inferInstanceAs (Decidable (_ ∨ _ ∧ _))

def paint (m : Machine) (s : Screen) : Screen :=
  match Instruction.ofWord? m.word with
  | some .clearScreen => s.clear.mark
  | some (.draw x y rows) => (s.draw (m.spriteCells x y rows)).1
  | _ => s

theorem screen_step (m : Machine) (keys : Keypad) : (m.step keys).1.screen = m.paint m.screen := by
  unfold paint
  cases hw : Instruction.ofWord? m.word with
  | none =>
    unfold step
    dsimp only
    rw [hw]
  | some i =>
    rw [step_of_ofWord? hw, screen_execute]
    cases i <;> rfl

theorem mem_spriteCells {x y rows : Digit} {c : Nat × Nat} :
    c ∈ m.spriteCells x y rows ↔
      ∃ r < rows.val, ∃ k < Limits.spriteWidth,
        (m.memory.read (m.registers.index.toNat + r)).toNat.testBit (7 - k) ∧
        c = (((m.registers.get x).toNat + k) % m.screen.width,
          ((m.registers.get y).toNat + r) % m.screen.height) :=
  Sprite.mem_cells_map_range

theorem dirty_paint_of_paints (h : m.Paints) (s : Screen) : (m.paint s).dirty = true := by
  unfold paint
  rcases h with hclear | ⟨ht, r, hr, hrow⟩
  · rw [(Instruction.ofWord?_eq_some_iff (i := .clearScreen)).2 hclear]
    rfl
  · rw [Instruction.ofWord?_eq_draw_iff.2 ⟨ht, rfl, rfl, rfl⟩]
    obtain ⟨k, hk, hbit⟩ := Sprite.exists_column_iff.2 hrow
    exact s.dirty_draw_of_mem (mem_spriteCells.2 ⟨r, hr, k, hk, hbit, rfl⟩)

theorem paint_of_not_paints (h : ¬m.Paints) (s : Screen) : m.paint s = s := by
  unfold paint
  split
  · rename_i hw
    exact absurd (.inl (Instruction.ofWord?_eq_some_iff.1 hw)) h
  · rename_i x y rows hw
    obtain ⟨ht, -, -, rfl⟩ := Instruction.ofWord?_eq_draw_iff.1 hw
    have hnone : m.spriteCells x y m.word.n = [] := by
      refine List.eq_nil_iff_forall_not_mem.2 fun c hc => h (.inr ⟨ht, ?_⟩)
      obtain ⟨r, hr, k, hk, hbit, -⟩ := mem_spriteCells.1 hc
      exact ⟨r, hr, Sprite.exists_column_iff.1 ⟨k, hk, hbit⟩⟩
    rw [hnone]
    rfl
  · rfl

end Machine

def Screen.record (s : Screen) : Effect → Screen
  | .unmark => s.unmark
  | .step moment => moment.machine.paint s
  | .tick => s

theorem recorded_screen : Recorded Machine.screen Screen.record where
  unmark _ := rfl
  step moment := moment.machine.screen_step moment.keys
  tick _ := rfl

namespace Screen

variable {effects : List Effect}

theorem foldl_record_of_not_paints (hmark : .unmark ∉ effects)
    (h : ∀ moment, .step moment ∈ effects → ¬moment.machine.Paints) (s : Screen) :
    effects.foldl record s = s := by
  induction effects generalizing s with
  | nil => rfl
  | cons effect rest ih =>
    have hrest := ih (fun hmem => hmark (List.mem_cons_of_mem effect hmem))
      fun moment hmem => h moment (List.mem_cons_of_mem effect hmem)
    rw [List.foldl_cons, hrest]
    cases effect with
    | unmark => exact absurd List.mem_cons_self hmark
    | step moment => exact Machine.paint_of_not_paints (h moment List.mem_cons_self) s
    | tick => rfl

theorem dirty_foldl_record (hmark : .unmark ∉ effects) {s : Screen}
    (h : s.dirty = true ∨ ∃ moment, .step moment ∈ effects ∧ moment.machine.Paints) :
    (effects.foldl record s).dirty = true := by
  induction effects generalizing s with
  | nil =>
    rcases h with hs | ⟨moment, hmem, -⟩
    · exact hs
    · cases hmem
  | cons effect rest ih =>
    refine ih (fun hmem => hmark (List.mem_cons_of_mem effect hmem)) ?_
    cases effect with
    | unmark => exact absurd List.mem_cons_self hmark
    | step moment =>
      by_cases hpaints : moment.machine.Paints
      · exact .inl (Machine.dirty_paint_of_paints hpaints s)
      · rw [record, Machine.paint_of_not_paints hpaints]
        refine h.imp_right ?_
        rintro ⟨other, hmem, hother⟩
        rcases List.mem_cons.1 hmem with heq | hmem
        · cases heq
          exact absurd hother hpaints
        · exact ⟨other, hmem, hother⟩
    | tick =>
      refine h.imp_right ?_
      rintro ⟨moment, hmem, hpaints⟩
      rcases List.mem_cons.1 hmem with heq | hmem
      · cases heq
      · exact ⟨moment, hmem, hpaints⟩

end Screen

namespace Vm

variable {vm : Vm} {m : Machine}

theorem effects_update (hr : vm.ready = .ok m) (milliseconds : Float)
    (changes : Nat → Keypad → Keypad) :
    ∃ rest, .unmark ∉ rest ∧
      Action.effects vm ⟨.update milliseconds, changes⟩ = .unmark :: rest := by
  unfold Action.effects
  rw [hr]
  refine ⟨_, fun hmem => ?_, rfl⟩
  rcases List.mem_append.1 hmem with hsteps | hlast
  · obtain ⟨moment, heq⟩ := Effect.eq_step_of_mem hsteps
    cases heq
  · unfold Answer.ticks at hlast
    split at hlast <;> simp at hlast

theorem unmark_not_mem {a : Action}
    (ha : a.operation = .step ∨ ∃ count, a.operation = .run count) : .unmark ∉ a.effects vm := by
  obtain ⟨o, changes⟩ := a
  intro hmem
  have hstep : ∃ moment, Effect.unmark = .step moment := by
    rcases ha with rfl | ⟨count, rfl⟩
    · exact Effect.eq_step_of_mem hmem
    · exact Effect.eq_step_of_mem hmem
  obtain ⟨moment, heq⟩ := hstep
  cases heq

/-- After an update, done or failed, there is a mark if and only if one of its steps painted, and
without a mark all pixels are as before. Steps and runs never take a mark off, and neither does an
update of a machine that is trapped. -/
theorem mark_iff_painted (vm : Vm) :
    (∀ m milliseconds changes, vm.machine? = some m → vm.trap? = none →
      let a : Action := ⟨.update milliseconds, changes⟩
      ∃ n, (a.perform vm).1.machine? = some n ∧
        (n.screen.dirty = true ↔ ∃ moment, .step moment ∈ a.effects vm ∧ moment.machine.Paints) ∧
        (n.screen.dirty = false → n.screen.pixels = m.screen.pixels)) ∧
      (∀ actions m, (∀ a ∈ actions, a.operation = .step ∨ ∃ count, a.operation = .run count) →
        vm.machine? = some m → m.screen.dirty = true →
        ∃ n, (vm.undergo actions).1.machine? = some n ∧ n.screen.dirty = true) ∧
      ∀ f milliseconds changes, vm.trap? = some f →
        Action.perform vm ⟨.update milliseconds, changes⟩ = (vm, .failed (.fault f)) := by
  refine ⟨fun m milliseconds changes hm ht => ?_, fun actions m hall hm hdirty => ?_,
    fun f milliseconds changes ht => ?_⟩
  · intro a
    obtain ⟨rest, hmark, heffects⟩ :=
      effects_update (ready_eq_ok_iff.2 ⟨ht, hm⟩) milliseconds changes
    obtain ⟨n, hn, hscreen⟩ := recorded_screen.act (a := a) (by rintro ⟨program, entropy, ⟨⟩, -⟩) hm
    have hsteps (moment : Moment) : .step moment ∈ a.effects vm ↔ .step moment ∈ rest := by
      rw [heffects, List.mem_cons, or_iff_right (by simp)]
    simp only [hsteps]
    rw [heffects, List.foldl_cons] at hscreen
    by_cases hpaints : ∃ moment, .step moment ∈ rest ∧ moment.machine.Paints
    · have hdirty : n.screen.dirty = true := by
        rw [hscreen]
        exact Screen.dirty_foldl_record hmark (.inr hpaints)
      refine ⟨n, hn, iff_of_true hdirty hpaints, fun hclean => ?_⟩
      rw [hdirty] at hclean
      cases hclean
    · have hkept : n.screen = m.screen.unmark := by
        rw [hscreen]
        refine Screen.foldl_record_of_not_paints hmark (fun moment hmem hp => ?_) _
        exact hpaints ⟨moment, hmem, hp⟩
      refine ⟨n, hn, iff_of_false ?_ hpaints, fun _ => ?_⟩
      · rw [hkept]
        exact Bool.false_ne_true
      · rw [hkept]
        rfl
  · have hidle : vm.Throughout (fun vm a => ¬vm.Loads a.operation) actions := by
      refine throughout_of_forall fun a ha vm => ?_
      rintro ⟨program, entropy, hload, -⟩
      rcases hall a ha with hop | ⟨count, hop⟩
      · cases hop.symm.trans hload
      · cases hop.symm.trans hload
    obtain ⟨n, hn, hscreen⟩ := recorded_screen.undergo hidle hm
    refine ⟨n, hn, ?_⟩
    have hmark : .unmark ∉ vm.effects actions := by
      intro hmem
      obtain ⟨a, ha, before, hmem⟩ := mem_effects hmem
      exact unmark_not_mem (hall a ha) hmem
    rw [hscreen]
    exact Screen.dirty_foldl_record hmark (.inl hdirty)
  · unfold Action.perform updateAmid
    rw [ready_of_trap ht]
    rfl

/-- A frame clears the screen, a run keeps the mark, a frame draws a sprite of no rows and a step
fails. The frame after that finds the machine trapped. -/
theorem mark_iff_painted_in_turn :
    let small : Config := { memorySize := 86, fontStart := 0, programStart := 80, seed := some 7 }
    let vm := (new small).after [.load #[0x00, 0xE0, 0x60, 0x01, 0xD0, 0x00] default]
    let frame : Action := .plain (.update 0.0)
    let painted := (frame.perform vm).1
    let kept := (painted.undergo [.plain (.run 1)]).1
    let blank := (frame.perform kept).1
    let trapped := blank.step.1
    ∃ n o p, painted.machine? = some n ∧ n.screen.dirty = true ∧
      kept.machine? = some o ∧ o.screen.dirty = true ∧
      blank.machine? = some p ∧ p.screen.dirty = false ∧ p.screen.pixels = o.screen.pixels ∧
      frame.perform trapped = (trapped, .failed (.fault (.unsupported 0xF090 86))) := by
  intro small vm frame painted kept blank trapped
  obtain ⟨m, hm⟩ : ∃ m, vm.machine? = some m := Option.isSome_iff_exists.1 (by decide +kernel)
  have ht : vm.trap? = none := by decide +kernel
  have hclears : ∃ moment ∈ frame.executed vm, moment.machine.Paints := by decide +kernel
  have ht' : kept.trap? = none := by decide +kernel
  have hblank : ¬∃ moment ∈ frame.executed kept, moment.machine.Paints := by decide +kernel
  have hfault : trapped.trap? = some (.unsupported 0xF090 86) := by decide +kernel
  clear_value vm
  simp only [Action.mem_executed] at hclears hblank
  obtain ⟨hframe, -, -⟩ := mark_iff_painted vm
  obtain ⟨n, hn, hmark, -⟩ := hframe m 0.0 (fun _ keys => keys) hm ht
  obtain ⟨-, hruns, -⟩ := mark_iff_painted painted
  obtain ⟨o, ho, hstays⟩ := hruns [.plain (.run 1)] n (by simp [Action.plain]) hn (hmark.2 hclears)
  obtain ⟨hframe, -, -⟩ := mark_iff_painted kept
  obtain ⟨p, hp, hnone, hpixels⟩ := hframe o 0.0 (fun _ keys => keys) ho ht'
  have hclean : p.screen.dirty = false := Bool.eq_false_of_not_eq_true fun h => hblank (hnone.1 h)
  obtain ⟨-, -, hidle⟩ := mark_iff_painted trapped
  exact ⟨n, o, p, hn, hmark.2 hclears, ho, hstays, hp, hclean, hpixels hclean,
    hidle _ 0.0 (fun _ keys => keys) hfault⟩

end Vm

end Chip8

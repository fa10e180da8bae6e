import Chip8.Proofs.Pace.Fraction
import Chip8.Vm.Basic
import Mathlib.Tactic.IntervalCases

/-! How many instructions make up a frame. A frame that is not waited for is a sixtieth of a second
but for the last bits; one that is waited for lacks the nanoseconds that do not divide a second by
sixty. -/

namespace Chip8

/-- Cycles at a frequency in a time of `c / 2 ^ 58` seconds. -/
def cyclesOf (c hertz : Nat) : Nat := nearest (nearest hertz * c) / 2 ^ 58

/-- A sixtieth, as a part of `2 ^ 58`. -/
def exactPart : Nat := 4803839602528529

/-- The 16666666 nanoseconds of a frame that is waited for, as a part of `2 ^ 58`. -/
def waitedPart : Nat := 4803839410374945

theorem isFraction_exact : IsFraction (Frequency.frameMilliseconds / 1000.0) exactPart 58 :=
  ⟨exactPart, -58, by decide, by decide +kernel, by decide, by decide, by decide, by decide,
    by decide, by decide⟩

theorem isFraction_waited :
    IsFraction (Frequency.frames.waitMilliseconds / 1000.0) waitedPart 58 :=
  ⟨waitedPart, -58, by decide, by decide +kernel, by decide, by decide, by decide, by decide,
    by decide, by decide⟩

namespace Frequency

theorem cyclesIn_of_isFraction {milliseconds : Float} {c : Nat}
    (h : IsFraction (milliseconds / 1000.0) c 58) (hc : c < 2 ^ 53) {f : Frequency}
    (hf : 0 < f.hertz.toNat) : f.cyclesIn milliseconds = cyclesOf c f.hertz.toNat := by
  have hlt := f.hertz.toNat_lt
  have hn := (nearest_relative f.hertz.toNat).2
  have hn' : nearest f.hertz.toNat < 2 ^ 65 := by omega
  have hprod : nearest f.hertz.toNat * c < 2 ^ 65 * 2 ^ 53 := Nat.mul_lt_mul'' hn' hc
  have hr := (nearest_relative (nearest f.hertz.toNat * c)).2
  have hmove : nearest f.hertz.toNat * 2 ^ 52 * c = nearest f.hertz.toNat * c * 2 ^ 52 := by ac_rfl
  have hquot : nearest (nearest f.hertz.toNat * 2 ^ 52 * c) / 2 ^ (52 + 58) =
      cyclesOf c f.hertz.toNat := by
    rw [hmove, nearest_mul_pow, Nat.add_comm 52 58, Nat.pow_add,
      Nat.mul_div_mul_right _ _ (Nat.two_pow_pos 52), cyclesOf]
  have hmax : cyclesOf c f.hertz.toNat ≤ maxCycles := by
    have : maxCycles = 2 ^ 64 - 1 := rfl
    unfold cyclesOf
    omega
  have hfrac := (isFraction_toFloat hf).mul h (by decide) (by omega)
  rw [cyclesIn, hfrac.wholePart, hquot, Nat.min_eq_right hmax]

theorem cyclesIn_frame (f : Frequency) :
    f.cyclesIn frameMilliseconds = cyclesOf exactPart f.hertz.toNat ∧
      f.cyclesIn frames.waitMilliseconds = cyclesOf waitedPart f.hertz.toNat := by
  rcases Nat.eq_zero_or_pos f.hertz.toNat with h | h
  · obtain rfl : f = ⟨0⟩ := by
      cases f
      congr
      exact UInt64.toNat_inj.1 h
    decide +kernel
  · exact ⟨cyclesIn_of_isFraction isFraction_exact (by decide) h,
      cyclesIn_of_isFraction isFraction_waited (by decide) h⟩

end Frequency

theorem wholePart_le (x : Float) : wholePart x ≤ maxCycles := by
  have hmax : maxCycles = 2 ^ 64 - 1 := rfl
  unfold wholePart
  simp only [Nat.shiftRight_eq_div_pow, Nat.shiftLeft_eq, Nat.one_mul]
  split
  · exact Nat.zero_le _
  split
  · split <;> omega
  split
  · exact Nat.zero_le _
  split
  · refine Nat.le_trans (Nat.div_le_self ..) ?_
    omega
  · exact Nat.min_le_left ..

theorem frameSteps_lt (vm : Vm) (milliseconds : Float) :
    1 ≤ vm.frameSteps milliseconds ∧ vm.frameSteps milliseconds < 2 ^ 64 := by
  have hle := wholePart_le (vm.frequency.hertz.toFloat * (milliseconds / 1000.0))
  have hmax : maxCycles = 2 ^ 64 - 1 := rfl
  unfold Vm.frameSteps Frequency.cyclesIn
  omega

section

variable {h : Nat}

theorem spareBits_mul_le {c : Nat} (hh : h < 2 ^ 31) (hc : c < 2 ^ 53) : spareBits (h * c) ≤ 31 := by
  have hlt : h * c < 2 ^ 31 * 2 ^ 53 := Nat.mul_lt_mul'' hh hc
  rcases Nat.eq_zero_or_pos (h * c) with hz | hpos
  · rw [hz]
    decide
  · have := (Nat.log2_lt (n := h * c) (k := 84) (by omega)).2 (by omega)
    unfold spareBits
    omega

theorem pow_spareBits_mul_le {c : Nat} (hh : h < 2 ^ 31) (hc : c < 2 ^ 53) :
    2 ^ spareBits (h * c) ≤ 2 ^ 31 :=
  Nat.pow_le_pow_right Nat.two_pos (spareBits_mul_le hh hc)

theorem cyclesOf_small (c : Nat) (hh : h < 2 ^ 31) : cyclesOf c h = nearest (h * c) / 2 ^ 58 := by
  have hsmall : h < 2 ^ 53 := by omega
  rw [cyclesOf, nearest_of_lt hsmall]

theorem cyclesOf_le (hh : h < 2 ^ 31) {c : Nat} (hc : 60 * c ≤ 2 ^ 58) : cyclesOf c h ≤ h / 60 := by
  have hunit := pow_spareBits_mul_le (h := h) (c := c) hh (by omega)
  have herr := (nearest_error (h * c)).2
  have hprod : h * (60 * c) ≤ h * 2 ^ 58 := Nat.mul_le_mul_left h hc
  have hprod' : h * (60 * c) = 60 * (h * c) := by ac_rfl
  rw [cyclesOf_small c hh]
  refine Nat.le_of_lt_succ ((Nat.div_lt_iff_lt_mul (Nat.two_pow_pos 58)).2 ?_)
  omega

theorem le_cyclesOf {c k : Nat} (hh : h < 2 ^ 31) (hc : c < 2 ^ 53) (hk : k * 2 ^ 58 ≤ h * c) :
    k ≤ cyclesOf c h := by
  have hspare := spareBits_mul_le hh hc
  rw [cyclesOf_small c hh]
  exact (Nat.le_div_iff_mul_le (Nat.two_pow_pos 58)).2 (le_nearest (by omega) hk)

theorem mul_le_of_le_cyclesOf {c k : Nat} (hh : h < 2 ^ 31) (hk : k ≤ cyclesOf c h) :
    2 ^ 53 * (k * 2 ^ 58) ≤ (2 ^ 53 + 1) * (h * c) := by
  have hrel := (nearest_relative (h * c)).2
  rw [cyclesOf_small c hh] at hk
  have hk' := (Nat.le_div_iff_mul_le (Nat.two_pow_pos 58)).1 hk
  omega

theorem cyclesOf_exact (hh : h < 2 ^ 31) : cyclesOf exactPart h = h / 60 := by
  have hc : exactPart = 4803839602528529 := rfl
  apply Nat.le_antisymm (cyclesOf_le hh (by decide))
  by_cases hr : h % 60 = 0
  · -- the product falls short of a whole number, by less than half a unit
    by_contra hlt
    rw [cyclesOf_small exactPart hh, not_le, Nat.div_lt_iff_lt_mul (Nat.two_pow_pos 58)] at hlt
    have hspare := spareBits_mul_le hh (c := exactPart) (by decide)
    have hbelow := nearest_add_le (by omega) hlt
    have herr := (nearest_error (h * exactPart)).1
    have hfull := lt_pow_spareBits (h * exactPart)
    rw [hc] at *
    omega
  · apply le_cyclesOf hh (by decide)
    rw [hc]
    omega

theorem cyclesOf_waited (hh : h < 2 ^ 31) :
    h / 60 ≤ cyclesOf waitedPart h ↔ h ≤ 25000000 * (h % 60) := by
  have hc : waitedPart = 4803839410374945 := rfl
  constructor
  · intro hk
    by_contra hlt
    -- here the product is nearest to a whole number that it does not reach
    by_cases hnear : h = 1075000003
    · subst hnear
      revert hk
      decide +kernel
    · have hrel := mul_le_of_le_cyclesOf hh hk
      have hdiv := Nat.div_add_mod h 60
      have hr : h % 60 < 60 := Nat.mod_lt h (by decide)
      rw [hc] at hrel
      generalize h % 60 = r at *
      generalize h / 60 = k at *
      interval_cases r <;> omega
  · intro hle
    apply le_cyclesOf hh (by decide)
    rw [hc]
    omega

theorem cyclesOf_lt (hh : 2 ^ 31 ≤ h) :
    cyclesOf waitedPart h < cyclesOf exactPart h ∧ 1 < cyclesOf exactPart h := by
  have hF : 2 ^ 31 ≤ nearest h := by
    by_cases hsmall : h < 2 ^ 53
    · rwa [nearest_of_lt hsmall]
    · have hrel := (nearest_relative h).1
      omega
  have hexact := (nearest_relative (nearest h * exactPart)).1
  have hwaited := (nearest_relative (nearest h * waitedPart)).2
  unfold cyclesOf
  simp only [exactPart, waitedPart] at *
  omega

theorem max_cyclesOf_eq_iff :
    max 1 (cyclesOf exactPart h) = max 1 (cyclesOf waitedPart h) ↔
      h = 60 ∨ h ≤ 25000000 * (h % 60) := by
  by_cases hh : h < 2 ^ 31
  · have hwaited := cyclesOf_waited hh
    have hle : cyclesOf waitedPart h ≤ h / 60 := cyclesOf_le hh (by decide)
    rw [cyclesOf_exact hh]
    omega
  · obtain ⟨hlt, hone⟩ := cyclesOf_lt (h := h) (by omega)
    omega

end

theorem frameSteps_eq_iff (vm : Vm) :
    vm.frameSteps Frequency.frameMilliseconds = vm.frameSteps Frequency.frames.waitMilliseconds ↔
      vm.frequency.hertz.toNat = 60 ∨
        vm.frequency.hertz.toNat ≤ 25000000 * (vm.frequency.hertz.toNat % 60) := by
  obtain ⟨hexact, hwaited⟩ := vm.frequency.cyclesIn_frame
  rw [Vm.frameSteps, Vm.frameSteps, hexact, hwaited]
  exact max_cyclesOf_eq_iff

end Chip8

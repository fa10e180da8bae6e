import Chip8.Pace
import Chip8.Proofs.Pace.Nearest

/-! Floating point numbers as fractions. A product of two of them is the product of the fractions,
rounded to 53 bits, and its whole part is a quotient of natural numbers. -/

namespace Chip8

open Float.Model UnpackedFloat

/-- One bit further on, the last bit that was kept tells whether the part cut off reaches one half,
and all that was cut off before tells whether it is something else than nothing and one half. -/
theorem residue_succ (n s : Nat) :
    (2 ^ (s + 1) ≤ 2 * (n % 2 ^ (s + 1)) ↔ n / 2 ^ s % 2 ≠ 0) ∧
      (2 * (n % 2 ^ (s + 1)) % 2 ^ (s + 1) ≠ 0 ↔
        2 ^ s ≤ 2 * (n % 2 ^ s) ∨ 2 * (n % 2 ^ s) % 2 ^ s ≠ 0) := by
  have hr : n % 2 ^ s < 2 ^ s := Nat.mod_lt n (Nat.two_pow_pos s)
  have hmod : n % 2 ^ (s + 1) = n % 2 ^ s + 2 ^ s * (n / 2 ^ s % 2) := Nat.mod_pow_succ
  have hlow : 2 * (n % 2 ^ (s + 1)) % 2 ^ (s + 1) = 2 * (n % 2 ^ s) := by
    rw [Nat.pow_succ', Nat.mul_mod_mul_left, Nat.mod_mod_of_dvd n (Dvd.intro_left 2 rfl)]
  have hzero : (2 ^ s ≤ 2 * (n % 2 ^ s) ∨ 2 * (n % 2 ^ s) % 2 ^ s ≠ 0) ↔ n % 2 ^ s ≠ 0 := by
    by_cases hlt : 2 * (n % 2 ^ s) < 2 ^ s
    · rw [Nat.mod_eq_of_lt hlt]
      omega
    · omega
  refine ⟨?_, by rw [hlow, hzero]; omega⟩
  rw [hmod, Nat.pow_succ]
  rcases Nat.mod_two_eq_zero_or_one (n / 2 ^ s) with h | h
  · rw [h]
    omega
  · rw [h]
    omega

theorem shiftRight_exact (n s : Nat) :
    (⟨n, false, false⟩ : ExtendedMantissa) >>> s =
      ⟨n / 2 ^ s, decide (2 ^ s ≤ 2 * (n % 2 ^ s)), decide (2 * (n % 2 ^ s) % 2 ^ s ≠ 0)⟩ := by
  induction s with
  | zero => simp [HShiftRight.hShiftRight, Nat.repeat, Nat.mod_one]
  | succ s ih =>
    obtain ⟨hround, hsticky⟩ := residue_succ n s
    have hround' : decide (2 ^ (s + 1) ≤ 2 * (n % 2 ^ (s + 1))) = decide (n / 2 ^ s % 2 ≠ 0) :=
      decide_eq_decide.2 hround
    have hsticky' : decide (2 * (n % 2 ^ (s + 1)) % 2 ^ (s + 1) ≠ 0) =
        decide (2 ^ s ≤ 2 * (n % 2 ^ s) ∨ 2 * (n % 2 ^ s) % 2 ^ s ≠ 0) := decide_eq_decide.2 hsticky
    change ExtendedMantissa.shiftRightOne ((⟨n, false, false⟩ : ExtendedMantissa) >>> s) = _
    have hdiv : n / 2 ^ s / 2 = n / 2 ^ (s + 1) := by rw [Nat.div_div_eq_div_mul, Nat.pow_succ]
    rw [ih, ExtendedMantissa.shiftRightOne, hround', hsticky',
      Bool.decide_or]
    simp only [hdiv, ne_eq, decide_not]
    rfl

theorem roundedMantissa_shiftRight (n s : Nat) :
    ((⟨n, false, false⟩ : ExtendedMantissa) >>> s).roundedMantissa = roundShift s n := by
  have hr : n % 2 ^ s < 2 ^ s := Nat.mod_lt n (Nat.two_pow_pos s)
  rw [shiftRight_exact, roundShift]
  by_cases hlt : 2 * (n % 2 ^ s) < 2 ^ s
  · have hround : ¬2 ^ s ≤ 2 * (n % 2 ^ s) := by omega
    rw [if_pos hlt, decide_eq_false hround]
    cases decide (2 * (n % 2 ^ s) % 2 ^ s ≠ 0) <;> rfl
  · have hround : 2 ^ s ≤ 2 * (n % 2 ^ s) := by omega
    rw [if_neg hlt, decide_eq_true hround]
    by_cases heq : 2 * (n % 2 ^ s) = 2 ^ s
    · rw [if_pos heq, heq, Nat.mod_self]
      rfl
    · have hsticky : 2 * (n % 2 ^ s) % 2 ^ s ≠ 0 := by
        rw [Nat.mod_eq_sub_mod hround, Nat.mod_eq_of_lt (by omega)]
        omega
      rw [if_neg heq, decide_eq_true hsticky]
      rfl

theorem targetExponent_binary64 (t : Int) :
    Format.binary64.targetExponent t = max (t - 53) (-1074) := by
  rw [Format.targetExponent]
  rfl

theorem shiftToTargetExponent_exact {m : Nat} {e : Int} (he : -1074 ≤ e + spareBits m) :
    shiftToTargetExponent Format.binary64 m e .exact =
      ((⟨m, false, false⟩ : ExtendedMantissa) >>> spareBits m, e + spareBits m) := by
  have hs : (Format.binary64.targetExponent (totalExponent m e) - e).toNat = spareBits m := by
    rw [targetExponent_binary64, totalExponent]
    unfold spareBits at he ⊢
    omega
  simp only [shiftToTargetExponent, shiftToExponent, hs]
  rfl

theorem roundWithAccuracy_exact {m : Nat} {e : Int} (hm : 2 ^ 52 ≤ m)
    (he : -1074 ≤ e + spareBits m) :
    ∃ m' e' h, roundWithAccuracy Format.binary64 .positive m e .exact = .finite .positive m' e' h ∧
      2 ^ 52 ≤ m' ∧ m' < 2 ^ 53 ∧ e + spareBits m ≤ e' ∧ e' ≤ e + spareBits m + 1 ∧
        m' * 2 ^ (e' - e).toNat = nearest m := by
  have hpos : 0 < 2 ^ spareBits m := Nat.two_pow_pos _
  have hl : 2 ^ 52 ≤ m / 2 ^ spareBits m := (Nat.le_div_iff_mul_le hpos).2 (pow_spareBits_le hm)
  have hu : m / 2 ^ spareBits m < 2 ^ 53 := (Nat.div_lt_iff_lt_mul hpos).2 (lt_pow_spareBits m)
  obtain ⟨hR, hR'⟩ := roundShift_bounds (spareBits m) m
  have hround : roundWithAccuracy Format.binary64 .positive m e .exact =
      let R := roundShift (spareBits m) m
      if h : R / 2 ^ spareBits R = 0 then .zero .positive
      else .finite .positive (R / 2 ^ spareBits R) (e + spareBits m + spareBits R)
        (Nat.pos_of_ne_zero h) := by
    unfold roundWithAccuracy
    rw [shiftToTargetExponent_exact he]
    dsimp only
    rw [roundedMantissa_shiftRight, shiftToTargetExponent_exact (by omega)]
    simp only [shiftRight_exact]
  generalize hRdef : roundShift (spareBits m) m = R at *
  -- rounding up may carry into another bit, and then all bits below it are zero
  have hshape : R / 2 ^ spareBits R * 2 ^ spareBits R = R ∧ 2 ^ 52 ≤ R / 2 ^ spareBits R ∧
      R / 2 ^ spareBits R < 2 ^ 53 ∧ spareBits R ≤ 1 := by
    by_cases hlt : R < 2 ^ 53
    · rw [spareBits_of_lt hlt]
      omega
    · obtain rfl : R = 2 ^ 53 := by omega
      decide
  obtain ⟨hfold, hml, hmu, ht⟩ := hshape
  have hne : R / 2 ^ spareBits R ≠ 0 := by omega
  refine ⟨_, _, _, hround.trans (dif_neg hne), hml, hmu, by omega, by omega, ?_⟩
  have hexp : (e + spareBits m + spareBits R - e).toNat = spareBits R + spareBits m := by omega
  rw [hexp, Nat.pow_add, ← Nat.mul_assoc, hfold, nearest, hRdef]

theorem toNat_packComponents (exponent : BitVec 11) (fraction : BitVec 52) :
    (packComponents Format.binary64 .positive exponent fraction).toNat =
      exponent.toNat * 2 ^ 52 + fraction.toNat := by
  have hzero : (Sign.positive.toBitVec ++ exponent).toNat = exponent.toNat := by
    rw [BitVec.toNat_append]
    exact Nat.zero_or _
  have happend : (packComponents Format.binary64 .positive exponent fraction).toNat =
      (Sign.positive.toBitVec ++ exponent).toNat <<< 52 ||| fraction.toNat := BitVec.toNat_append ..
  rw [happend, hzero, ← Nat.shiftLeft_add_eq_or_of_lt fraction.isLt, Nat.shiftLeft_eq]

section

variable {m : Nat} {e : Int} (h : 0 < m) (hl : 2 ^ 52 ≤ m) (hu : m < 2 ^ 53) (hel : -1074 ≤ e)
  (heu : e ≤ 971)

include hl hu hel heu

theorem pack_normal :
    UnpackedFloat.pack Format.binary64 (.finite .positive m e h) =
      packComponents Format.binary64 .positive (BitVec.ofNat 11 (e + 1075).toNat)
        (BitVec.ofNat 52 m) := by
  have hlog : m.log2 = 52 := by
    have h1 : 52 ≤ m.log2 := (Nat.le_log2 (Nat.ne_of_gt h)).2 hl
    have h2 : m.log2 < 53 := (Nat.log2_lt (Nat.ne_of_gt h)).2 hu
    omega
  have hbias : (e + Format.binary64.exponentBias + Format.binary64.mantissaBitsWithoutImplicit) =
      e + 1075 := by
    change e + 1023 + 52 = e + 1075
    omega
  have hfinite : ¬2 ^ Format.binary64.exponentBits ≤ (e + 1075).toNat + 1 := by
    change ¬2048 ≤ (e + 1075).toNat + 1
    omega
  have hnormal : m.log2 + 1 = Format.binary64.mantissaBits := by
    rw [hlog]
    rfl
  simp only [UnpackedFloat.pack, hbias]
  rw [if_neg hfinite, if_pos hnormal]

theorem exponent_and_fraction :
    (BitVec.ofNat 11 (e + 1075).toNat).toNat = (e + 1075).toNat ∧
      (BitVec.ofNat 52 m).toNat = m - 2 ^ 52 := by
  rw [BitVec.toNat_ofNat, BitVec.toNat_ofNat]
  omega

theorem toNat_pack_normal :
    (UnpackedFloat.pack Format.binary64 (.finite .positive m e h)).toNat =
      (e + 1075).toNat * 2 ^ 52 + (m - 2 ^ 52) := by
  obtain ⟨hexp, hfrac⟩ := exponent_and_fraction hl hu hel heu
  rw [pack_normal h hl hu hel heu, toNat_packComponents, hexp, hfrac]

theorem unpack_pack_normal :
    (pack (.finite .positive m e h)).unpack = .finite .positive m e h := by
  obtain ⟨hexp, hfrac⟩ := exponent_and_fraction hl hu hel heu
  have hones : BitVec.ofNat 11 (e + 1075).toNat ≠ -1#11 := by
    intro heq
    have := congrArg BitVec.toNat heq
    rw [hexp] at this
    change (e + 1075).toNat = 2047 at this
    omega
  have hzero : BitVec.ofNat 11 (e + 1075).toNat ≠ 0#11 := by
    intro heq
    have := congrArg BitVec.toNat heq
    rw [hexp] at this
    change (e + 1075).toNat = 0 at this
    omega
  have himplicit : (1#1 ++ BitVec.ofNat 52 m).toNat = m := by
    rw [BitVec.toNat_append, ← Nat.shiftLeft_add_eq_or_of_lt (BitVec.isLt _), hfrac,
      Nat.shiftLeft_eq]
    change 1 * 2 ^ 52 + (m - 2 ^ 52) = m
    omega
  have hunbiased : ((BitVec.ofNat 11 (e + 1075).toNat).toNat : Int) -
      (Format.binary64.exponentBias + Format.binary64.mantissaBitsWithoutImplicit) = e := by
    rw [hexp]
    change ((e + 1075).toNat : Int) - (1023 + 52) = e
    omega
  change UnpackedFloat.unpack Format.binary64
    (UnpackedFloat.pack Format.binary64 (.finite .positive m e h)) = _
  rw [pack_normal h hl hu hel heu]
  simp only [UnpackedFloat.unpack, unpackExponent_packComponents, unpackMantissa_packComponents,
    unpackSign_packComponents, Sign.ofBitVec_toBitVec, hunbiased]
  rw [if_neg hones, if_neg hzero]
  simp only [himplicit]

end

/-- The number is the fraction `n / 2 ^ k`. -/
def IsFraction (x : Float) (n k : Nat) : Prop :=
  ∃ m e h, x = .ofModel (pack (.finite .positive m e h)) ∧ 2 ^ 52 ≤ m ∧ m < 2 ^ 53 ∧
    -1074 ≤ e ∧ e ≤ 971 ∧ 0 ≤ e + k ∧ m * 2 ^ (e + k).toNat = n

theorem IsFraction.mul {x y : Float} {n k l j : Nat} (hx : IsFraction x n k)
    (hy : IsFraction y l j) (hk : k + j ≤ 1000) (hn : n * l < 2 ^ 250) :
    IsFraction (x * y) (nearest (n * l)) (k + j) := by
  obtain ⟨m, e, hm, rfl, hml, hmu, hel, heu, hek, rfl⟩ := hx
  obtain ⟨m', e', hm', rfl, hml', hmu', hel', heu', hek', rfl⟩ := hy
  have hprod : m * 2 ^ (e + k).toNat * (m' * 2 ^ (e' + j).toNat) =
      m * m' * 2 ^ ((e + k).toNat + (e' + j).toNat) := by
    rw [Nat.pow_add]
    ac_rfl
  have hmm : 2 ^ 52 * 2 ^ 52 ≤ m * m' := Nat.mul_le_mul hml hml'
  have hmm' : m * m' < 2 ^ 53 * 2 ^ 53 := Nat.mul_lt_mul'' hmu hmu'
  have hspare : spareBits (m * m') ≤ 53 := by
    have := (Nat.log2_lt (n := m * m') (k := 106) (by omega)).2 (by omega)
    unfold spareBits
    omega
  have hshift : (e + k).toNat + (e' + j).toNat < 250 := by
    rw [hprod] at hn
    refine (Nat.pow_lt_pow_iff_right Nat.one_lt_two).1 (Nat.lt_of_le_of_lt ?_ hn)
    exact Nat.le_mul_of_pos_left _ (by omega)
  obtain ⟨r, t, hr, hround, hrl, hru, htl, htu, hval⟩ :=
    roundWithAccuracy_exact (m := m * m') (e := e + e') (by omega) (by omega)
  refine ⟨r, t, hr, ?_, hrl, hru, by omega, by omega, by omega, ?_⟩
  · change Float.ofModel (pack (UnpackedFloat.mul Format.binary64
      (pack (.finite .positive m e hm)).unpack (pack (.finite .positive m' e' hm')).unpack)) = _
    rw [unpack_pack_normal hm hml hmu hel heu, unpack_pack_normal hm' hml' hmu' hel' heu', ← hround]
    rfl
  · have hexp : (t + (k + j : Nat)).toNat =
        (t - (e + e')).toNat + ((e + k).toNat + (e' + j).toNat) := by omega
    rw [hexp, Nat.pow_add, ← Nat.mul_assoc, hval, hprod, nearest_mul_pow]

theorem isFraction_toFloat {n : UInt64} (h : 0 < n.toNat) :
    IsFraction n.toFloat (nearest n.toNat * 2 ^ 52) 52 := by
  have hlog : n.toNat.log2 < 64 := (Nat.log2_lt (Nat.ne_of_gt h)).2 n.toNat_lt
  have hl : 2 ^ n.toNat.log2 ≤ n.toNat := Nat.log2_self_le (Nat.ne_of_gt h)
  -- small numbers are moved up to 53 bits first
  have hround : UnpackedFloat.ofUInt64 Format.binary64 n =
      roundWithAccuracy Format.binary64 .positive (n.toNat * 2 ^ (52 - n.toNat.log2))
        (0 - ((52 - n.toNat.log2 : Nat) : Int)) .exact := by
    have hpos : compare (n.toNat : Int) 0 = .gt := Int.compare_eq_gt.2 (by omega)
    have hshift : (0 - Format.binary64.targetExponent (totalExponent n.toNat 0)).toNat =
        52 - n.toNat.log2 := by
      rw [targetExponent_binary64, totalExponent]
      omega
    simp only [UnpackedFloat.ofUInt64, UnpackedFloat.ofNat, UnpackedFloat.ofInt,
      UnpackedFloat.normalize, UnpackedFloat.round, hpos, decreaseExponent, Int.toNat_natCast,
      hshift, Nat.shiftLeft_eq]
  generalize ht : 52 - n.toNat.log2 = t at hround
  have hmoved : 2 ^ 52 ≤ n.toNat * 2 ^ t := by
    calc
      2 ^ 52 ≤ 2 ^ (n.toNat.log2 + t) := Nat.pow_le_pow_right Nat.two_pos (by omega)
      _ = 2 ^ n.toNat.log2 * 2 ^ t := Nat.pow_add ..
      _ ≤ n.toNat * 2 ^ t := Nat.mul_le_mul_right _ hl
  have hspare : spareBits (n.toNat * 2 ^ t) ≤ 64 := by
    have hlt : n.toNat * 2 ^ t < 2 ^ 64 * 2 ^ 52 :=
      Nat.mul_lt_mul_of_lt_of_le n.toNat_lt (Nat.pow_le_pow_right Nat.two_pos (by omega))
        (Nat.two_pow_pos 52)
    have := (Nat.log2_lt (n := n.toNat * 2 ^ t) (k := 116) (by omega)).2 (by omega)
    unfold spareBits
    omega
  obtain ⟨r, e, hr, hrounded, hrl, hru, hel, heu, hval⟩ :=
    roundWithAccuracy_exact (m := n.toNat * 2 ^ t) (e := 0 - (t : Int)) hmoved (by omega)
  refine ⟨r, e, hr, ?_, hrl, hru, by omega, by omega, by omega, ?_⟩
  · change Float.ofModel (pack (UnpackedFloat.ofUInt64 Format.binary64 n)) = _
    rw [hround, hrounded]
  · have hexp : (e + (52 : Nat)).toNat = (e - (0 - (t : Int))).toNat + (52 - t) := by omega
    have hsum : 52 = t + (52 - t) := by omega
    rw [hexp, Nat.pow_add, ← Nat.mul_assoc, hval, nearest_mul_pow, Nat.mul_assoc, ← Nat.pow_add,
      ← hsum]

theorem IsFraction.wholePart {x : Float} {n k : Nat} (h : IsFraction x n k) :
    wholePart x = min maxCycles (n / 2 ^ k) := by
  obtain ⟨m, e, hm, rfl, hml, hmu, hel, heu, hek, rfl⟩ := h
  have hbits : (Float.ofModel (pack (.finite .positive m e hm))).toBits.toNat =
      (e + 1075).toNat * 2 ^ 52 + (m - 2 ^ 52) := toNat_pack_normal hm hml hmu hel heu
  have hsign : ((e + 1075).toNat * 2 ^ 52 + (m - 2 ^ 52)) / 2 ^ 63 ≠ 1 := by omega
  have hexp : ((e + 1075).toNat * 2 ^ 52 + (m - 2 ^ 52)) / 2 ^ 52 % 2 ^ 11 = (e + 1075).toNat := by
    omega
  have hfrac : 2 ^ 52 + ((e + 1075).toNat * 2 ^ 52 + (m - 2 ^ 52)) % 2 ^ 52 = m := by omega
  have hspecial : (e + 1075).toNat ≠ 2047 := by omega
  have hzero : (e + 1075).toNat ≠ 0 := by omega
  unfold Chip8.wholePart
  simp only [hbits, Nat.shiftRight_eq_div_pow, Nat.shiftLeft_eq, Nat.one_mul, if_neg hsign, hexp,
    if_neg hspecial, if_neg hzero, hfrac]
  by_cases hneg : (e + 1075).toNat < 1075
  · have hsum : 1075 - (e + 1075).toNat + (e + k).toNat = k := by omega
    have hpow : 2 ^ k = 2 ^ (1075 - (e + 1075).toNat) * 2 ^ (e + k).toNat := by
      rw [← Nat.pow_add, hsum]
    rw [if_pos hneg, hpow, Nat.mul_div_mul_right _ _ (Nat.two_pow_pos _)]
    have hle : m / 2 ^ (1075 - (e + 1075).toNat) ≤ m := Nat.div_le_self ..
    have hmax : maxCycles = 2 ^ 64 - 1 := rfl
    omega
  · have hsum : (e + 1075).toNat - 1075 + k = (e + k).toNat := by omega
    have hpow : 2 ^ (e + k).toNat = 2 ^ ((e + 1075).toNat - 1075) * 2 ^ k := by
      rw [← Nat.pow_add, hsum]
    rw [if_neg hneg, hpow, ← Nat.mul_assoc, Nat.mul_div_cancel _ (Nat.two_pow_pos k)]

end Chip8

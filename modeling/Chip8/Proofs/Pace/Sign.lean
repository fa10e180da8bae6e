import Chip8.Proofs.Pace.Fraction

/-! Times that are no times: negative, infinite or not a number. A sign goes through products and
quotients, and what is not positive has no whole part, so no cycle fits into such a time. Infinity
alone is positive, and the most cycles there are fit into it. -/

namespace Chip8

open Float.Model UnpackedFloat

def sign? : UnpackedFloat → Option Sign
  | notANumber => none
  | infinity s | zero s | finite s _ _ _ => some s

theorem sign?_unpack_packComponents (s : Sign) {exponent : BitVec 11} (fraction : BitVec 52)
    (h : exponent ≠ -1#11) :
    sign? (UnpackedFloat.unpack Format.binary64
      (packComponents Format.binary64 s exponent fraction)) = some s := by
  simp only [UnpackedFloat.unpack, unpackExponent_packComponents, unpackMantissa_packComponents,
    unpackSign_packComponents, Sign.ofBitVec_toBitVec]
  rw [if_neg h]
  split_ifs <;> rfl

theorem unpack_packedInfinity (s : Sign) :
    UnpackedFloat.unpack Format.binary64 (packedInfinity Format.binary64 s) = infinity s := by
  simp only [UnpackedFloat.unpack, packedInfinity, unpackExponent_packComponents,
    unpackMantissa_packComponents, unpackSign_packComponents, Sign.ofBitVec_toBitVec]
  rfl

theorem sign?_unpack_pack (u : UnpackedFloat) : sign? (pack u).unpack = sign? u := by
  change sign? (UnpackedFloat.unpack Format.binary64 (UnpackedFloat.pack Format.binary64 u)) = _
  cases u with
  | notANumber => rw [UnpackedFloat.pack, unpack_packedNaN]
  | infinity s => rw [UnpackedFloat.pack, unpack_packedInfinity]
  | zero s => rw [UnpackedFloat.pack, unpack_packedZero]
  | finite s m e h =>
    unfold UnpackedFloat.pack
    dsimp only
    split_ifs with hlarge hnormal
    · rw [unpack_packedInfinity]
      rfl
    · refine sign?_unpack_packComponents s _ fun heq => ?_
      generalize (e + Format.binary64.exponentBias +
        Format.binary64.mantissaBitsWithoutImplicit).toNat = biased at hlarge heq
      have hlt : biased + 1 < 2 ^ 11 := Nat.lt_of_not_le hlarge
      have hall : biased % 2 ^ 11 = 2 ^ 11 - 1 := congrArg BitVec.toNat heq
      omega
    · exact sign?_unpack_packComponents s _ (by decide)

theorem sign?_roundWithAccuracy (spec : Format) (s : Sign) (m : Nat) (e : Int) (a : Accuracy) :
    sign? (roundWithAccuracy spec s m e a) = some s := by
  unfold roundWithAccuracy
  dsimp only
  split_ifs <;> rfl

theorem sign?_div (spec : Format) (u : UnpackedFloat) {m : Nat} {e : Int} (h : 0 < m) :
    sign? (UnpackedFloat.div spec u (.finite .positive m e h)) = sign? u := by
  have hsign (s : Sign) : s / Sign.positive = s := by cases s <;> rfl
  cases u with
  | notANumber => rfl
  | infinity s => exact congrArg some (hsign s)
  | zero s => exact congrArg some (hsign s)
  | finite s m' e' h' => exact (sign?_roundWithAccuracy ..).trans (congrArg some (hsign s))

theorem sign?_mul (spec : Format) {u : UnpackedFloat} (hu : sign? u = some .positive)
    (v : UnpackedFloat) :
    sign? (UnpackedFloat.mul spec u v) = none ∨ sign? (UnpackedFloat.mul spec u v) = sign? v := by
  have hsign (s : Sign) : Sign.positive * s = s := by cases s <;> rfl
  cases u with
  | notANumber => cases hu
  | infinity s =>
    cases hu
    cases v with
    | notANumber | zero t => exact .inl rfl
    | infinity t | finite t m e h => exact .inr (congrArg some (hsign t))
  | zero s =>
    cases hu
    cases v with
    | notANumber | infinity t => exact .inl rfl
    | zero t | finite t m e h => exact .inr (congrArg some (hsign t))
  | finite s m e h =>
    cases hu
    cases v with
    | notANumber => exact .inl rfl
    | infinity t | zero t => exact .inr (congrArg some (hsign t))
    | finite t m' e' h' =>
      exact .inr ((sign?_roundWithAccuracy ..).trans (congrArg some (hsign t)))

theorem toNat_unpackFields (w : UInt64) :
    (@unpackSign Format.binary64 w.toBitVec).toNat = w.toNat >>> 63 ∧
      (@unpackExponent Format.binary64 w.toBitVec).toNat = w.toNat >>> 52 % (1 <<< 11) ∧
      (@unpackMantissa Format.binary64 w.toBitVec).toNat = w.toNat % (1 <<< 52) := by
  have hw := w.toNat_lt
  have hsign : w.toNat >>> 63 < 2 := by
    rw [Nat.shiftRight_eq_div_pow]
    omega
  refine ⟨?_, ?_, ?_⟩
  · rw [unpackSign_def]
    exact (BitVec.extractLsb'_toNat ..).trans (Nat.mod_eq_of_lt hsign)
  · rw [unpackExponent_def]
    exact BitVec.extractLsb'_toNat ..
  · rw [unpackMantissa_def]
    exact BitVec.extractLsb'_toNat ..

theorem sign?_unpack (b : BitVec 64) :
    sign? (UnpackedFloat.unpack Format.binary64 b) =
      if @unpackExponent Format.binary64 b = -1#11 ∧ @unpackMantissa Format.binary64 b ≠ 0#52
      then none else some (Sign.ofBitVec (@unpackSign Format.binary64 b)) := by
  by_cases hall : @unpackExponent Format.binary64 b = -1#11
  · by_cases hnone : @unpackMantissa Format.binary64 b = 0#52
    · simp only [UnpackedFloat.unpack, hall, hnone, ne_eq, not_true, and_false, if_false]
      rfl
    · simp only [UnpackedFloat.unpack, hall, hnone, ne_eq, not_false_iff, and_self, if_true]
      rfl
  · simp only [UnpackedFloat.unpack, hall, false_and, if_false]
    split_ifs <;> rfl

theorem wholePart_of_sign? {x : Float} (h : sign? x.toModel.unpack ≠ some .positive) :
    wholePart x = 0 := by
  obtain ⟨hsign, hexponent, hfraction⟩ := toNat_unpackFields x.toBits
  change sign? (UnpackedFloat.unpack Format.binary64 x.toBits.toBitVec) ≠ _ at h
  rw [sign?_unpack] at h
  unfold wholePart
  dsimp only
  rw [← hexponent, ← hfraction, ← hsign]
  generalize @unpackSign Format.binary64 x.toBits.toBitVec = s at *
  generalize @unpackExponent Format.binary64 x.toBits.toBitVec = exponent at *
  generalize @unpackMantissa Format.binary64 x.toBits.toBitVec = fraction at *
  by_cases hnone : exponent = -1#11 ∧ fraction ≠ 0#52
  · obtain ⟨rfl, hne⟩ := hnone
    have hne' : fraction.toNat ≠ 0 := fun hzero => hne (BitVec.eq_of_toNat_eq hzero)
    rw [if_pos (show (-1#11).toNat = 2047 from rfl), if_neg hne', ite_self]
  · rw [if_neg hnone] at h
    have hs : s = 1#1 := by
      by_contra hs
      obtain rfl : s = 0#1 := by bv_omega
      exact h rfl
    rw [hs]
    rfl

theorem eq_inf_of_unpack {x : Float} (h : x.toModel.unpack = infinity .positive) :
    x = Float.inf := by
  refine Float.toBits_inj.1 (UInt64.toBitVec_inj.1 ?_)
  exact (unpack_inj_of_valid x.toModel.valid Float.inf.toModel.valid).1 h

theorem sign?_of_lt_zero {u : UnpackedFloat} (h : u.lt (.zero .positive) = true) :
    sign? u = some .negative := by
  cases u with
  | notANumber | zero s => cases h
  | infinity s | finite s m e hm =>
    cases s with
    | positive => cases h
    | negative => rfl

theorem sign?_ne_positive {x : Float} (h : x < 0 ∨ x.isFinite = false) (hinf : x ≠ Float.inf) :
    sign? x.toModel.unpack ≠ some .positive := by
  rcases h with h | h
  · have hlt : x.toModel.unpack.lt (0 : Float).toModel.unpack = true := of_decide_eq_true h
    rw [sign?_of_lt_zero hlt]
    exact nofun
  · change x.toModel.unpack.isFinite = false at h
    cases hx : x.toModel.unpack with
    | notANumber => exact nofun
    | infinity s =>
      cases s with
      | positive => exact absurd (eq_inf_of_unpack hx) hinf
      | negative => exact nofun
    | zero s => rw [hx] at h; cases h
    | finite s m e hm => rw [hx] at h; cases h

theorem sign?_toFloat (n : UInt64) : sign? n.toFloat.toModel.unpack = some .positive := by
  refine (sign?_unpack_pack (UnpackedFloat.ofUInt64 Format.binary64 n)).trans ?_
  rcases Nat.eq_zero_or_pos n.toNat with hzero | hpos
  · simp only [UnpackedFloat.ofUInt64, UnpackedFloat.ofNat, hzero]
    rfl
  · have hgt : compare (n.toNat : Int) 0 = .gt := Int.compare_eq_gt.2 (by omega)
    simp only [UnpackedFloat.ofUInt64, UnpackedFloat.ofNat, UnpackedFloat.ofInt,
      UnpackedFloat.normalize, UnpackedFloat.round, hgt, sign?_roundWithAccuracy]

theorem sign?_seconds (milliseconds : Float) :
    sign? (milliseconds / 1000.0).toModel.unpack = sign? milliseconds.toModel.unpack := by
  have hthousand : (1000.0 : Float).toModel.unpack =
      .finite .positive 8796093022208000 (-43) (by decide) := rfl
  refine (sign?_unpack_pack _).trans ?_
  rw [hthousand]
  exact sign?_div ..

namespace Frequency

variable (f : Frequency)

theorem cyclesIn_of_sign? {milliseconds : Float}
    (h : sign? milliseconds.toModel.unpack ≠ some .positive) : f.cyclesIn milliseconds = 0 := by
  refine wholePart_of_sign? fun hpositive => ?_
  have hproduct := (sign?_unpack_pack _).symm.trans hpositive
  rcases sign?_mul Format.binary64 (sign?_toFloat f.hertz) (milliseconds / 1000.0).toModel.unpack
    with hnone | hsign
  · cases hnone.symm.trans hproduct
  · exact h ((sign?_seconds milliseconds).symm.trans (hsign.symm.trans hproduct))

theorem cyclesIn_inf : f.cyclesIn Float.inf = if f.hertz = 0 then 0 else maxCycles := by
  obtain ⟨hertz⟩ := f
  by_cases hzero : hertz = 0
  · subst hzero
    decide +kernel
  · have hpos : 0 < hertz.toNat := Nat.pos_of_ne_zero fun h => hzero (UInt64.toNat_inj.1 h)
    obtain ⟨m, e, hm, heq, hml, hmu, hel, heu, -⟩ := isFraction_toFloat hpos
    have hunpack : hertz.toFloat.toModel.unpack = .finite .positive m e hm := by
      rw [heq]
      exact unpack_pack_normal hm hml hmu hel heu
    have hseconds : (Float.inf / 1000.0).toModel.unpack = .infinity .positive := rfl
    have hproduct : hertz.toFloat * (Float.inf / 1000.0) =
        .ofModel (pack (UnpackedFloat.mul Format.binary64 hertz.toFloat.toModel.unpack
          (Float.inf / 1000.0).toModel.unpack)) := rfl
    have hinf : UnpackedFloat.mul Format.binary64 (.finite .positive m e hm) (.infinity .positive) =
        .infinity .positive := rfl
    rw [cyclesIn, hproduct, hunpack, hseconds, hinf, if_neg hzero]
    decide +kernel

theorem cyclesIn_of_untimely {milliseconds : Float}
    (h : milliseconds < 0 ∨ milliseconds.isFinite = false) :
    f.cyclesIn milliseconds =
      if milliseconds = Float.inf ∧ f.hertz ≠ 0 then maxCycles else 0 := by
  by_cases hinf : milliseconds = Float.inf
  · rw [hinf, cyclesIn_inf]
    by_cases hzero : f.hertz = 0 <;> simp [hzero]
  · rw [f.cyclesIn_of_sign? (sign?_ne_positive h hinf), if_neg fun h => hinf h.1]

end Frequency

end Chip8

import Chip8.Instruction.Basic

/-! Writing and reading instructions are inverse: `ofWord?` finds each instruction in its word, and
finds an instruction in no other word than its own. -/

namespace Chip8

namespace Instruction

theorem toNat_addressWord {t : Nat} (ht : t < 16) (a : ShortAddress) :
    (addressWord t a).toNat = 4096 * t + a.val := by
  have := a.isLt
  simp only [addressWord, UInt16.toNat_ofNat']
  omega

theorem toNat_byteWord {t : Nat} (ht : t < 16) (x : Digit) (b : Byte) :
    (byteWord t x b).toNat = 4096 * t + 256 * x.val + b.toNat := by
  have := x.isLt
  have := b.toNat_lt
  simp only [byteWord, UInt16.toNat_ofNat']
  omega

theorem toNat_digitWord {t : Nat} (ht : t < 16) (x y n : Digit) :
    (digitWord t x y n).toNat = 4096 * t + 256 * x.val + 16 * y.val + n.val := by
  have := x.isLt
  have := y.isLt
  have := n.isLt
  simp only [digitWord, UInt16.toNat_ofNat']
  omega

theorem address_addressWord {t : Nat} (ht : t < 16) (a : ShortAddress) :
    (addressWord t a).t.val = t ∧ (addressWord t a).address = a := by
  have := a.isLt
  simp only [Word.t, Word.address, toNat_addressWord ht, Fin.ext_iff, Fin.val_ofNat]
  omega

theorem fields_byteWord {t : Nat} (ht : t < 16) (x : Digit) (b : Byte) :
    (byteWord t x b).t.val = t ∧ (byteWord t x b).x = x ∧ (byteWord t x b).low = b := by
  have := x.isLt
  have := b.toNat_lt
  simp only [Word.t, Word.x, Word.low, toNat_byteWord ht, Fin.ext_iff, Fin.val_ofNat,
    ← UInt8.toNat_inj, UInt8.toNat_ofNat']
  omega

theorem fields_digitWord {t : Nat} (ht : t < 16) (x y n : Digit) :
    (digitWord t x y n).t.val = t ∧ (digitWord t x y n).x = x ∧ (digitWord t x y n).y = y ∧
      (digitWord t x y n).n = n := by
  have := x.isLt
  have := y.isLt
  have := n.isLt
  simp only [Word.t, Word.x, Word.y, Word.n, toNat_digitWord ht, Fin.ext_iff, Fin.val_ofNat]
  omega

theorem ofWord?_word (i : Instruction) : ofWord? i.word = some i := by
  have ha := @address_addressWord
  have hb := @fields_byteWord
  have hd := @fields_digitWord
  cases i with
  | clearScreen => rfl
  | ret => rfl
  | skip condition => cases condition <;> simp [ofWord?, ofKeyWord?, word, hb, hd]
  | alu op x y => simp [ofWord?, word, hd, Alu.ofDigit?_digit]
  | _ => simp [ofWord?, ofDeviceWord?, word, ha, hb, hd]

theorem addressWord_address (w : Word) : addressWord w.t.val w.address = w := by
  have := w.toNat_lt
  refine UInt16.toNat_inj.1 ?_
  rw [toNat_addressWord w.t.isLt]
  simp only [Word.t, Word.address, Fin.val_ofNat]
  omega

theorem byteWord_low (w : Word) : byteWord w.t.val w.x w.low = w := by
  have := w.toNat_lt
  refine UInt16.toNat_inj.1 ?_
  rw [toNat_byteWord w.t.isLt]
  simp only [Word.t, Word.x, Word.low, Fin.val_ofNat, UInt8.toNat_ofNat']
  omega

theorem digitWord_n (w : Word) : digitWord w.t.val w.x w.y w.n = w := by
  have := w.toNat_lt
  refine UInt16.toNat_inj.1 ?_
  rw [toNat_digitWord w.t.isLt]
  simp only [Word.t, Word.x, Word.y, Word.n, Fin.val_ofNat]
  omega

theorem digitWord_of_n {w : Word} {n : Digit} (h : w.n = n) : digitWord w.t.val w.x w.y n = w :=
  h ▸ digitWord_n w

theorem byteWord_of_low {w : Word} {b : Byte} (h : w.low.toNat = b.toNat) :
    byteWord w.t.val w.x b = w :=
  UInt8.toNat_inj.1 h ▸ byteWord_low w

theorem word_of_ofKeyWord? {w : Word} {i : Instruction} (ht : w.t.val = 0xE)
    (h : ofKeyWord? w = some i) : i.word = w := by
  unfold ofKeyWord? at h
  split at h
  · cases h
    rw [word, ← ht]
    exact byteWord_of_low ‹_›
  · cases h
    rw [word, ← ht]
    exact byteWord_of_low ‹_›
  · cases h

theorem word_of_ofDeviceWord? {w : Word} {i : Instruction} (ht : w.t.val = 0xF)
    (h : ofDeviceWord? w = some i) : i.word = w := by
  unfold ofDeviceWord? at h
  split at h <;> cases h <;> rw [word, ← ht] <;> exact byteWord_of_low ‹_›

theorem word_of_ofWord? {w : Word} {i : Instruction} (h : ofWord? w = some i) : i.word = w := by
  have ha := addressWord_address w
  have hb := byteWord_low w
  have hd := digitWord_n w
  unfold ofWord? at h
  split at h
  · split at h
    · cases h
      exact Eq.symm ‹_›
    · split at h
      · cases h
        exact Eq.symm ‹_›
      · cases h
  all_goals rename_i ht
  case h_6 | h_10 =>
    split at h
    · cases h
      rw [word, ← ht]
      exact digitWord_of_n ‹_›
    · cases h
  case h_9 =>
    obtain ⟨op, hop, rfl⟩ := Option.map_eq_some_iff.1 h
    rw [word, ← ht]
    exact digitWord_of_n (Alu.digit_of_ofDigit? hop).symm
  case h_15 => exact word_of_ofKeyWord? ht h
  case h_16 => exact word_of_ofDeviceWord? ht h
  case h_17 => cases h
  all_goals
    rw [ht] at ha hb hd
    cases h
    assumption

theorem ofWord?_eq_some_iff {w : Word} {i : Instruction} : ofWord? w = some i ↔ w = i.word :=
  ⟨fun h => (word_of_ofWord? h).symm, fun h => h ▸ ofWord?_word i⟩

end Instruction

end Chip8

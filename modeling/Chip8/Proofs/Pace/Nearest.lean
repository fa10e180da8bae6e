import Mathlib

/-! Rounding to the 53 leading bits of a number: to the nearest of the two neighbours, and halfway
between them to the even one. -/

namespace Chip8

def roundShift (s n : Nat) : Nat :=
  if 2 * (n % 2 ^ s) < 2 ^ s then n / 2 ^ s
  else if 2 * (n % 2 ^ s) = 2 ^ s then n / 2 ^ s + n / 2 ^ s % 2
  else n / 2 ^ s + 1

def spareBits (n : Nat) : Nat := n.log2 - 52

def nearest (n : Nat) : Nat := roundShift (spareBits n) n * 2 ^ spareBits n

theorem roundShift_zero (n : Nat) : roundShift 0 n = n := by
  simp [roundShift, Nat.mod_one]

theorem roundShift_bounds (s n : Nat) :
    n / 2 ^ s ≤ roundShift s n ∧ roundShift s n ≤ n / 2 ^ s + 1 := by
  unfold roundShift
  split
  · omega
  · split
    · omega
    · omega

theorem roundShift_error (s n : Nat) :
    2 * n ≤ 2 * (roundShift s n * 2 ^ s) + 2 ^ s ∧
      2 * (roundShift s n * 2 ^ s) ≤ 2 * n + 2 ^ s := by
  have hn := Nat.div_add_mod' n (2 ^ s)
  have hr : n % 2 ^ s < 2 ^ s := Nat.mod_lt n (Nat.two_pow_pos s)
  unfold roundShift
  split
  · omega
  · split
    · rcases Nat.mod_two_eq_zero_or_one (n / 2 ^ s) with h | h
      · rw [h, Nat.add_zero]
        omega
      · rw [h, Nat.add_mul]
        omega
    · rw [Nat.add_mul]
      omega

theorem roundShift_mul_pow (s t n : Nat) : roundShift (s + t) (n * 2 ^ t) = roundShift s n := by
  have ht : 0 < 2 ^ t := Nat.two_pow_pos t
  have hdiv : n * 2 ^ t / 2 ^ (s + t) = n / 2 ^ s := by
    rw [Nat.pow_add, Nat.mul_div_mul_right _ _ ht]
  have hmod : n * 2 ^ t % 2 ^ (s + t) = n % 2 ^ s * 2 ^ t := by
    rw [Nat.pow_add, Nat.mul_mod_mul_right]
  have hlt : 2 * (n % 2 ^ s * 2 ^ t) < 2 ^ (s + t) ↔ 2 * (n % 2 ^ s) < 2 ^ s := by
    rw [Nat.pow_add, ← Nat.mul_assoc, Nat.mul_lt_mul_right ht]
  have heq : 2 * (n % 2 ^ s * 2 ^ t) = 2 ^ (s + t) ↔ 2 * (n % 2 ^ s) = 2 ^ s := by
    rw [Nat.pow_add, ← Nat.mul_assoc, Nat.mul_left_inj (Nat.ne_of_gt ht)]
  simp only [roundShift, hdiv, hmod, hlt, heq]

theorem spareBits_of_lt {n : Nat} (h : n < 2 ^ 53) : spareBits n = 0 := by
  rcases Nat.eq_zero_or_pos n with rfl | hpos
  · rfl
  · have := (Nat.log2_lt (Nat.ne_of_gt hpos)).2 h
    unfold spareBits
    omega

theorem nearest_of_lt {n : Nat} (h : n < 2 ^ 53) : nearest n = n := by
  rw [nearest, spareBits_of_lt h, roundShift_zero, Nat.pow_zero, Nat.mul_one]

theorem pow_spareBits_le {n : Nat} (h : 2 ^ 52 ≤ n) : 2 ^ 52 * 2 ^ spareBits n ≤ n := by
  have hne : n ≠ 0 := by omega
  have hlog : 52 ≤ n.log2 := (Nat.le_log2 hne).2 h
  rw [← Nat.pow_add]
  exact (Nat.le_log2 hne).1 (by unfold spareBits; omega)

theorem lt_pow_spareBits (n : Nat) : n < 2 ^ 53 * 2 ^ spareBits n := by
  rw [← Nat.pow_add]
  refine Nat.lt_of_lt_of_le Nat.lt_log2_self (Nat.pow_le_pow_right Nat.two_pos ?_)
  unfold spareBits
  omega

theorem spareBits_eq {n s : Nat} (hl : 2 ^ 52 * 2 ^ s ≤ n) (hu : n < 2 ^ 53 * 2 ^ s) :
    spareBits n = s := by
  have hpos : 0 < 2 ^ s := Nat.two_pow_pos s
  have hne : n ≠ 0 := by omega
  rw [← Nat.pow_add] at hl hu
  have h1 : 52 + s ≤ n.log2 := (Nat.le_log2 hne).2 hl
  have h2 : n.log2 < 53 + s := (Nat.log2_lt hne).2 hu
  unfold spareBits
  omega

theorem nearest_mul_pow (n t : Nat) : nearest (n * 2 ^ t) = nearest n * 2 ^ t := by
  have ht : 0 < 2 ^ t := Nat.two_pow_pos t
  by_cases h : 2 ^ 52 ≤ n
  · have hs : spareBits (n * 2 ^ t) = spareBits n + t := by
      apply spareBits_eq
      · rw [Nat.pow_add, ← Nat.mul_assoc]
        exact Nat.mul_le_mul_right _ (pow_spareBits_le h)
      · rw [Nat.pow_add, ← Nat.mul_assoc]
        exact (Nat.mul_lt_mul_right ht).2 (lt_pow_spareBits n)
    rw [nearest, hs, roundShift_mul_pow, nearest, Nat.pow_add, Nat.mul_assoc]
  · -- nothing is dropped on either side
    have hn : n < 2 ^ 53 := by omega
    have hs : spareBits (n * 2 ^ t) ≤ t := by
      rcases Nat.eq_zero_or_pos n with rfl | hpos
      · rw [Nat.zero_mul]
        exact Nat.zero_le t
      · have hlog : (n * 2 ^ t).log2 < 53 + t := by
          refine (Nat.log2_lt (Nat.ne_of_gt (Nat.mul_pos hpos ht))).2 ?_
          rw [Nat.pow_add]
          exact (Nat.mul_lt_mul_right ht).2 hn
        unfold spareBits
        omega
    obtain ⟨u, hu⟩ := Nat.exists_eq_add_of_le hs
    rw [nearest_of_lt hn, nearest]
    generalize spareBits (n * 2 ^ t) = s at hu
    subst hu
    have hexact : roundShift s (n * 2 ^ u * 2 ^ s) = n * 2 ^ u := by
      have h := roundShift_mul_pow 0 s (n * 2 ^ u)
      rwa [Nat.zero_add, roundShift_zero] at h
    rw [Nat.add_comm s u, Nat.pow_add, ← Nat.mul_assoc, hexact]

theorem le_nearest {n c t : Nat} (ht : spareBits n ≤ t) (h : c * 2 ^ t ≤ n) :
    c * 2 ^ t ≤ nearest n := by
  have hpos : 0 < 2 ^ spareBits n := Nat.two_pow_pos _
  obtain ⟨u, rfl⟩ := Nat.exists_eq_add_of_le ht
  have hsplit : c * 2 ^ (spareBits n + u) = c * 2 ^ u * 2 ^ spareBits n := by
    rw [Nat.add_comm, Nat.pow_add, Nat.mul_assoc]
  rw [hsplit] at h ⊢
  refine Nat.mul_le_mul_right _ (Nat.le_trans ?_ (roundShift_bounds _ n).1)
  exact (Nat.le_div_iff_mul_le hpos).2 h

theorem nearest_add_le {n c t : Nat} (ht : spareBits n ≤ t) (h : nearest n < c * 2 ^ t) :
    nearest n + 2 ^ spareBits n ≤ c * 2 ^ t := by
  obtain ⟨u, rfl⟩ := Nat.exists_eq_add_of_le ht
  have hsplit : c * 2 ^ (spareBits n + u) = c * 2 ^ u * 2 ^ spareBits n := by
    rw [Nat.add_comm, Nat.pow_add, Nat.mul_assoc]
  rw [hsplit] at h ⊢
  have hlt : roundShift (spareBits n) n < c * 2 ^ u := Nat.lt_of_mul_lt_mul_right h
  calc
    nearest n + 2 ^ spareBits n = (roundShift (spareBits n) n + 1) * 2 ^ spareBits n := by
      rw [nearest, Nat.add_mul, Nat.one_mul]
    _ ≤ c * 2 ^ u * 2 ^ spareBits n := Nat.mul_le_mul_right _ hlt

theorem nearest_error (n : Nat) :
    2 * n ≤ 2 * nearest n + 2 ^ spareBits n ∧ 2 * nearest n ≤ 2 * n + 2 ^ spareBits n :=
  roundShift_error (spareBits n) n

theorem nearest_relative (n : Nat) :
    2 ^ 53 * n ≤ 2 ^ 53 * nearest n + n ∧ 2 ^ 53 * nearest n ≤ 2 ^ 53 * n + n := by
  by_cases h : n < 2 ^ 53
  · rw [nearest_of_lt h]
    omega
  · have hunit := pow_spareBits_le (n := n) (by omega)
    have herr := nearest_error n
    omega

end Chip8

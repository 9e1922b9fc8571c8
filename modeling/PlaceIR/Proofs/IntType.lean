import Mathlib
import PlaceIR.IntType

/-! Wrapping and the range test of integer types. The values of a type of at least one byte
are as many integers in a row as there are patterns of its bits, so each integer is congruent
to exactly one of them, and that is the one that it wraps to. Counting binary digits finds
the same range. A type without bits has one pattern and no room for a sign: unsigned it
stands for 0, signed it wraps to -1 but fits nothing. -/

namespace PlaceIR

theorem twoPow_eq (k : Nat) : (twoPow k : Int) = 2 ^ k := by
  rw [twoPow, Nat.one_shiftLeft]
  exact Nat.cast_pow 2 k

namespace IntType

variable {i : IntType} {m n : Int}

/-- The integers of a type's width: from 0 on, or in two's complement. -/
def values (i : IntType) : Set Int :=
  match i.signedness with
  | .unsigned => Set.Ico 0 (2 ^ (8 * i.size).toNat)
  | .signed => Set.Ico (-2 ^ (8 * i.size - 1).toNat) (2 ^ (8 * i.size - 1).toNat)

def lowest (i : IntType) : Int :=
  match i.signedness with
  | .unsigned => 0
  | .signed => -(i.modulus / 2)

theorem modulus_eq (i : IntType) : i.modulus = 2 ^ (8 * i.size).toNat := by
  rw [modulus, twoPow_eq, bits, Int.mul_comm]

/-- A type of at least one byte has a bit for the sign. -/
theorem modulus_eq_two_mul (h : 1 ≤ i.size) : i.modulus = 2 * 2 ^ (8 * i.size - 1).toNat := by
  rw [modulus_eq, ← pow_succ']
  congr 1
  omega

theorem values_eq (h : 1 ≤ i.size) : i.values = Set.Ico i.lowest (i.lowest + i.modulus) := by
  cases hs : i.signedness with
  | unsigned => simp only [values, lowest, hs, modulus_eq, zero_add]
  | signed =>
    simp only [values, lowest, hs, modulus_eq_two_mul h]
    generalize (2 : Int) ^ (8 * i.size - 1).toNat = half
    rw [show 2 * half / 2 = half by omega, show -half + 2 * half = half by ring]

/-! ### Wrapping -/

theorem wrap_modEq (i : IntType) (n : Int) : i.wrap n ≡ n [ZMOD i.modulus] := by
  have hmod : n % i.modulus ≡ n [ZMOD i.modulus] := Int.mod_modEq n i.modulus
  unfold wrap
  split
  · exact hmod
  · split
    · calc n % i.modulus - i.modulus ≡ n - i.modulus [ZMOD i.modulus] := hmod.sub_right _
        _ ≡ n [ZMOD i.modulus] := by simp [Int.ModEq]
    · exact hmod

theorem wrap_mem_values (h : 1 ≤ i.size) (n : Int) : i.wrap n ∈ i.values := by
  have hlo := Int.emod_nonneg n (Int.ne_of_gt i.modulus_pos)
  have hhi := Int.emod_lt_of_pos n i.modulus_pos
  rw [values_eq h, Set.mem_Ico]
  unfold wrap lowest
  cases i.signedness with
  | unsigned => simp only; omega
  | signed =>
    -- the upper half of the residues moves down to the negative values
    have heven := modulus_eq_two_mul h
    simp only
    split <;> omega

/-- Values that are congruent are the same. -/
theorem eq_of_modEq (h : 1 ≤ i.size) (hm : m ∈ i.values) (hn : n ∈ i.values)
    (hmn : m ≡ n [ZMOD i.modulus]) : m = n := by
  rw [values_eq h, Set.mem_Ico] at hm hn
  have hdvd : i.modulus ∣ n - m := hmn.dvd
  have habs : |n - m| < i.modulus := by
    rw [abs_lt]
    omega
  have hzero := Int.eq_zero_of_abs_lt_dvd hdvd habs
  omega

theorem wrap_eq_self_iff (h : 1 ≤ i.size) : i.wrap n = n ↔ n ∈ i.values := by
  constructor
  · intro hn
    exact hn ▸ wrap_mem_values h n
  · intro hn
    exact eq_of_modEq h (wrap_mem_values h n) hn (i.wrap_modEq n)

/-! ### Counting digits -/

theorem bitLength_le_iff_lt {k : Nat} {w : Int} (hw : 0 ≤ w) :
    (bitLength k : Int) ≤ w ↔ (k : Int) < 2 ^ w.toNat := by
  rw [← twoPow_eq, Nat.cast_lt, ← bitLength_le_iff]
  omega

/-- The digits beside the sign suffice for as many values on either side of 0. -/
theorem magnitude_lt_iff {b : Int} : (magnitude n : Int) < b ↔ -b ≤ n ∧ n < b := by
  by_cases hn : 0 ≤ n
  · rw [magnitude_of_nonneg hn]
    omega
  · rw [magnitude_of_neg (by omega)]
    omega

theorem fits_iff_mem_values (h : 1 ≤ i.size) : i.Fits n ↔ n ∈ i.values := by
  have hw : 8 * i.size = i.bits := Int.mul_comm 8 i.size
  unfold Fits values
  cases i.signedness with
  | unsigned =>
    simp only [Set.mem_Ico, hw]
    refine and_congr_right fun hn => ?_
    rw [bitLength_le_iff_lt (by omega), Int.toNat_of_nonneg hn]
  | signed =>
    simp only [Set.mem_Ico, hw]
    rw [bitLength_le_iff_lt (by omega), magnitude_lt_iff]

/-! ### Types without bits -/

theorem fits_unsigned_zero (n : Int) : Fits ⟨.unsigned, 0⟩ n ↔ n = 0 := by
  have hlen : bitLength n.toNat ≤ 0 ↔ n.toNat < 1 := bitLength_le_iff
  simp only [Fits, bits]
  omega

theorem wrap_unsigned_zero (n : Int) : wrap ⟨.unsigned, 0⟩ n = 0 := Int.emod_one n

theorem not_fits_signed_zero (n : Int) : ¬ Fits ⟨.signed, 0⟩ n := by
  simp only [Fits, bits]
  omega

theorem wrap_signed_zero (n : Int) : wrap ⟨.signed, 0⟩ n = -1 := by
  have hmod : n % modulus ⟨.signed, 0⟩ = 0 := Int.emod_one n
  simp only [wrap, hmod]
  rfl

/-- A type of at least one byte wraps an integer to its only value that is congruent to it
modulo the number of its bit patterns, and what fits it are exactly its values. So an integer
fits if and only if wrapping leaves it as it is; and among all sizes from 0 on, this fails
only for -1 and the signed type without bits. -/
theorem wrap_fits_agree (i : IntType) :
    (1 ≤ i.size → ∀ n,
      (i.wrap n ∈ i.values ∧ i.wrap n ≡ n [ZMOD 2 ^ (8 * i.size).toNat] ∧
        ∀ m ∈ i.values, m ≡ n [ZMOD 2 ^ (8 * i.size).toNat] → m = i.wrap n) ∧
      (i.Fits n ↔ n ∈ i.values) ∧ (i.Fits n ↔ i.wrap n = n)) ∧
    (0 ≤ i.size → ∀ n, ((i.Fits n ↔ i.wrap n = n) ↔ ¬ (i = ⟨.signed, 0⟩ ∧ n = -1))) := by
  have hbytes (h : 1 ≤ i.size) (n : Int) : i.Fits n ↔ i.wrap n = n :=
    (fits_iff_mem_values h).trans (wrap_eq_self_iff h).symm
  rw [← modulus_eq]
  constructor
  · intro h n
    have hwrap := wrap_mem_values h n
    refine ⟨⟨hwrap, i.wrap_modEq n, fun m hm hmn => ?_⟩, fits_iff_mem_values h, hbytes h n⟩
    exact eq_of_modEq h hm hwrap (hmn.trans (i.wrap_modEq n).symm)
  · intro h n
    obtain ⟨sign, size⟩ := i
    rcases Int.lt_or_eq_of_le h with hpos | rfl
    · have hne : ¬ (IntType.mk sign size = ⟨.signed, 0⟩ ∧ n = -1) := by
        rintro ⟨he, _⟩
        cases he
        exact absurd hpos (by decide)
      exact iff_of_true (hbytes hpos n) hne
    · cases sign with
      | unsigned => simp [fits_unsigned_zero, wrap_unsigned_zero, eq_comm]
      | signed =>
        simp only [not_fits_signed_zero, wrap_signed_zero, false_iff, true_and]
        omega

/-- The byte, signed and unsigned, at the integer after its largest value; and the types
without bits. -/
theorem bytes_agree :
    (wrap ⟨.signed, 1⟩ 128 = -128 ∧ wrap ⟨.signed, 1⟩ 128 ≡ 128 [ZMOD 2 ^ 8] ∧
      ¬ Fits ⟨.signed, 1⟩ 128) ∧
    (Fits ⟨.unsigned, 1⟩ 255 ∧ 255 ∈ values ⟨.unsigned, 1⟩) ∧
    (Fits ⟨.unsigned, 0⟩ 0 ↔ wrap ⟨.unsigned, 0⟩ 0 = 0) ∧
    ¬ (Fits ⟨.signed, 0⟩ (-1) ↔ wrap ⟨.signed, 0⟩ (-1) = -1) := by
  obtain ⟨⟨_, hmod, _⟩, _, hfits⟩ := (wrap_fits_agree ⟨.signed, 1⟩).1 (by decide) 128
  obtain ⟨_, hvalues, _⟩ := (wrap_fits_agree ⟨.unsigned, 1⟩).1 (by decide) 255
  have hunsigned := (wrap_fits_agree ⟨.unsigned, 0⟩).2 (by decide) 0
  have hsigned := (wrap_fits_agree ⟨.signed, 0⟩).2 (by decide) (-1)
  have h255 : Fits ⟨.unsigned, 1⟩ 255 := by decide
  refine ⟨⟨by decide, hmod, by decide⟩, ⟨h255, hvalues.1 h255⟩, hunsigned.2 (by decide), fun h => ?_⟩
  exact hsigned.1 h ⟨rfl, rfl⟩

end IntType

end PlaceIR

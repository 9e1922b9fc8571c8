import PlaceIR.Size

/-! Alignments after a move. The lowest set bit of a number is a power of two and divides
it, and of two powers of two the smaller divides the larger; so what a move by an offset
leaves of an alignment is a power of two that divides the offset and the alignment. -/

namespace PlaceIR

/-! ### The lowest set bit -/

theorem lowestBit_two_mul_add_one (n : Nat) : lowestBit (2 * n + 1) = 1 := by
  have hdiv : (2 * n + 1 &&& 2 * n) / 2 = n := by
    rw [Nat.and_div_two, Nat.mul_div_cancel_left n (by decide), show (2 * n + 1) / 2 = n by omega,
      Nat.and_self]
  have heven : ¬ (2 * n + 1 &&& 2 * n) % 2 = 1 := by
    rw [Nat.and_mod_two_eq_one]
    omega
  rw [lowestBit, Nat.add_sub_cancel]
  omega

theorem lowestBit_two_mul (n : Nat) : lowestBit (2 * n) = 2 * lowestBit n := by
  have hdiv : (2 * n &&& 2 * n - 1) / 2 = n &&& n - 1 := by
    rw [Nat.and_div_two, Nat.mul_div_cancel_left n (by decide),
      show (2 * n - 1) / 2 = n - 1 by omega]
  have heven : ¬ (2 * n &&& 2 * n - 1) % 2 = 1 := by
    rw [Nat.and_mod_two_eq_one]
    omega
  rw [lowestBit, lowestBit]
  omega

theorem isPowerOfTwo_lowestBit {n : Nat} (h : n ≠ 0) : (lowestBit n).isPowerOfTwo := by
  induction n using Nat.strongRecOn with
  | ind n ih =>
  rcases Nat.mod_two_eq_zero_or_one n with hn | hn
  · have hm := ih (n / 2) (by omega) (by omega)
    rw [show n = 2 * (n / 2) by omega, lowestBit_two_mul, Nat.mul_comm]
    exact Nat.isPowerOfTwo_mul_two_of_isPowerOfTwo hm
  · rw [show n = 2 * (n / 2) + 1 by omega, lowestBit_two_mul_add_one]
    exact Nat.isPowerOfTwo_one

theorem lowestBit_dvd (n : Nat) : lowestBit n ∣ n := by
  induction n using Nat.strongRecOn with
  | ind n ih =>
  rcases Nat.mod_two_eq_zero_or_one n with hn | hn
  · rcases Nat.eq_zero_or_pos n with rfl | hpos
    · exact Nat.dvd_zero _
    · have hm := ih (n / 2) (by omega)
      rw [show n = 2 * (n / 2) by omega, lowestBit_two_mul]
      exact Nat.mul_dvd_mul_left 2 hm
  · rw [show n = 2 * (n / 2) + 1 by omega, lowestBit_two_mul_add_one]
    exact Nat.one_dvd _

/-! ### Powers of two among the integers -/

theorem isPowerOfTwo_twoPow (k : Nat) : isPowerOfTwo (twoPow k) = true := by
  refine (isPowerOfTwo_ofNat _).2 ⟨k, ?_⟩
  rw [twoPow, Nat.one_shiftLeft]

theorem isPowerOfTwo_iff_exists_twoPow {n : Int} : isPowerOfTwo n = true ↔ ∃ k, n = twoPow k := by
  constructor
  · intro h
    have hpos := isPowerOfTwo_pos h
    obtain ⟨k, hk⟩ := isPowerOfTwo_toNat h
    refine ⟨k, ?_⟩
    rw [twoPow, Nat.one_shiftLeft, ← hk]
    omega
  · rintro ⟨k, rfl⟩
    exact isPowerOfTwo_twoPow k

theorem isPowerOfTwo_min {a b : Int} (ha : isPowerOfTwo a = true) (hb : isPowerOfTwo b = true) :
    isPowerOfTwo (min a b) = true := by
  rcases Int.le_total a b with h | h
  · rwa [Int.min_eq_left h]
  · rwa [Int.min_eq_right h]

/-- Powers of two are ordered by divisibility. -/
theorem dvd_of_isPowerOfTwo_of_le {a b : Int} (ha : isPowerOfTwo a = true)
    (hb : isPowerOfTwo b = true) (h : a ≤ b) : a ∣ b := by
  have ha0 := isPowerOfTwo_pos ha
  obtain ⟨j, hj⟩ := isPowerOfTwo_toNat ha
  obtain ⟨k, hk⟩ := isPowerOfTwo_toNat hb
  have hjk : j ≤ k := by
    have : 2 ^ j ≤ 2 ^ k := by omega
    exact (Nat.pow_le_pow_iff_right (by decide)).1 this
  have hdvd : a.toNat ∣ b.toNat := by
    rw [hj, hk]
    exact Nat.pow_dvd_pow 2 hjk
  have := Int.natCast_dvd_natCast.2 hdvd
  rwa [Int.toNat_of_nonneg (by omega), Int.toNat_of_nonneg (by omega)] at this

/-! ### Moves -/

namespace Target

variable {t : Target} {align offset : Int}

theorem isPowerOfTwo_maxAlign (t : Target) : isPowerOfTwo t.maxAlign = true :=
  isPowerOfTwo_twoPow 29

theorem isPowerOfTwo_alignAtOffset (t : Target) (offset : Int) :
    isPowerOfTwo (t.alignAtOffset offset) = true := by
  unfold alignAtOffset
  split
  · exact t.isPowerOfTwo_maxAlign
  · rename_i h
    have hbit := isPowerOfTwo_lowestBit (n := offset.natAbs) (by omega)
    exact isPowerOfTwo_min ((isPowerOfTwo_ofNat _).2 hbit) t.isPowerOfTwo_maxAlign

theorem alignAtOffset_dvd (t : Target) (offset : Int) : t.alignAtOffset offset ∣ offset := by
  unfold alignAtOffset
  split
  · rename_i h
    rw [h]
    exact Int.dvd_zero _
  · rename_i h
    have hbit := isPowerOfTwo_lowestBit (n := offset.natAbs) (by omega)
    -- the cap is a power of two as well, so the smaller of the two divides the lowest bit
    have hmin : min (lowestBit offset.natAbs : Int) t.maxAlign ∣ lowestBit offset.natAbs :=
      dvd_of_isPowerOfTwo_of_le
        (isPowerOfTwo_min ((isPowerOfTwo_ofNat _).2 hbit) t.isPowerOfTwo_maxAlign)
        ((isPowerOfTwo_ofNat _).2 hbit) (Int.min_le_left ..)
    exact Int.dvd_trans hmin (Int.ofNat_dvd_left.2 (lowestBit_dvd _))

theorem isPowerOfTwo_restrictAlign (h : isPowerOfTwo align = true) :
    isPowerOfTwo (t.restrictAlign align offset) = true :=
  isPowerOfTwo_min h (t.isPowerOfTwo_alignAtOffset offset)

theorem restrictAlign_dvd_align (h : isPowerOfTwo align = true) :
    t.restrictAlign align offset ∣ align :=
  dvd_of_isPowerOfTwo_of_le (isPowerOfTwo_restrictAlign h) h (t.restrictAlign_le align offset)

theorem restrictAlign_dvd_offset (h : isPowerOfTwo align = true) :
    t.restrictAlign align offset ∣ offset := by
  have hmin : t.restrictAlign align offset ∣ t.alignAtOffset offset :=
    dvd_of_isPowerOfTwo_of_le (isPowerOfTwo_restrictAlign h) (t.isPowerOfTwo_alignAtOffset offset)
      (Int.min_le_right ..)
  exact Int.dvd_trans hmin (t.alignAtOffset_dvd offset)

end Target

end PlaceIR

import PlaceIR.Proofs.IntType
import PlaceIR.Proofs.Ty.Parts
import PlaceIR.Proofs.Align

/-! Which integers pass for powers of two. `n & (n - 1)` in two's complement clears the lowest
set bit: nothing is left of 0 and of the powers of two, and of a negative number at least its
sign. So whoever tests for it has to look out for 0 alone, and the test on pointer sizes and
`isPowerOfTwo` agree, although each does so in its own way. What is cleared, `n & -n`, is the
lowest bit of either sign. The alignments, the sizes of integer types and the pointer sizes
that pass are powers of two within the bounds set for them, and a pointer is never too large
for its own bound. -/

namespace PlaceIR

variable {n : Int}

/-! ### The bit pattern -/

theorem land_sub_one_of_pos (h : 0 < n) : n.land (n - 1) = (n.toNat &&& (n.toNat - 1) : Nat) := by
  obtain ⟨m, rfl⟩ : ∃ m : Nat, n = (m + 1 : Nat) := ⟨n.toNat - 1, by omega⟩
  rw [Int.toNat_natCast, Nat.add_sub_cancel, Nat.cast_succ, add_sub_cancel_right, ← Nat.cast_succ]
  rfl

theorem land_sub_one_lt_zero (h : n < 0) : n.land (n - 1) < 0 := by
  obtain ⟨m, rfl⟩ := Int.eq_negSucc_of_lt_zero h
  -- the sign is a bit of both
  exact Int.negSucc_lt_zero _

/-- Only of 0 and of the powers of two nothing is left without the lowest set bit. -/
theorem land_sub_one_eq_zero_iff : n.land (n - 1) = 0 ↔ n = 0 ∨ isPowerOfTwo n = true := by
  rcases lt_trichotomy n 0 with hneg | rfl | hpos
  · have hland := land_sub_one_lt_zero hneg
    rw [not_isPowerOfTwo_of_neg hneg]
    refine iff_of_false (by omega) ?_
    rintro (hzero | htrue)
    · omega
    · exact absurd htrue (by decide)
  · have hnone : Nat.ldiff 0 0 = 0 := Nat.bitwise_zero
    exact iff_of_true (congrArg Int.ofNat hnone) (.inl rfl)
  · have hpow : isPowerOfTwo n = true ↔ n.toNat &&& (n.toNat - 1) = 0 := by
      rw [Target.isPowerOfTwo_iff_not_refused, not_or, Decidable.not_not, and_iff_right (by omega)]
    rw [land_sub_one_of_pos hpos, Nat.cast_eq_zero, or_iff_right hpos.ne', hpow]

theorem isPowerOfTwo_iff_land : isPowerOfTwo n = true ↔ 0 < n ∧ n.land (n - 1) = 0 := by
  rw [land_sub_one_eq_zero_iff]
  constructor
  · intro h
    exact ⟨isPowerOfTwo_pos h, .inr h⟩
  · rintro ⟨hpos, rfl | h⟩
    · exact absurd hpos (by decide)
    · exact h

theorem isPowerOfTwo_iff_exists_pow : isPowerOfTwo n = true ↔ ∃ k : Nat, n = 2 ^ k := by
  simp only [isPowerOfTwo_iff_exists_twoPow, twoPow_eq]

/-! ### The lowest set bit -/

/-- Of a number and the one before it, only the lowest set bit is in the first alone. -/
theorem ldiff_sub_one (n : Nat) : n.ldiff (n - 1) = lowestBit n := by
  induction n using Nat.strongRecOn with
  | ind n ih =>
  rcases Nat.mod_two_eq_zero_or_one n with hn | hn
  · rcases Nat.eq_zero_or_pos n with rfl | hpos
    · exact Nat.bitwise_zero
    -- an even number and the odd one before it differ as their halves do, one bit up
    · obtain ⟨m, rfl⟩ : ∃ m, n = 2 * (m + 1) := ⟨n / 2 - 1, by omega⟩
      have hstep : (2 * (m + 1)).ldiff (2 * m + 1) = 2 * (m + 1).ldiff m :=
        Nat.ldiff_bit false (m + 1) true m
      rw [lowestBit_two_mul, ← ih (m + 1) (by omega)]
      exact hstep
  · obtain ⟨m, rfl⟩ : ∃ m, n = 2 * m + 1 := ⟨n / 2, by omega⟩
    have hstep : (2 * m + 1).ldiff (2 * m) = 2 * m.ldiff m + 1 := Nat.ldiff_bit true m false m
    have hself : m.ldiff m = 0 := Nat.eq_of_testBit_eq fun i => by simp [Nat.testBit_ldiff]
    rw [lowestBit_two_mul_add_one, Nat.add_sub_cancel, hstep, hself]

/-- The lowest set bit of an integer of either sign is what it shares with its negative. -/
theorem lowestBit_natAbs_eq_land (n : Int) : (lowestBit n.natAbs : Int) = n.land (-n) := by
  cases n with
  | ofNat m =>
    cases m with
    | zero => rfl
    | succ m => exact congrArg Int.ofNat (ldiff_sub_one (m + 1)).symm
  | negSucc m => exact congrArg Int.ofNat (ldiff_sub_one (m + 1)).symm

namespace Target

variable {t : Target}

theorem alignAtOffset_eq_land (t : Target) (offset : Int) : t.alignAtOffset offset =
    if offset = 0 then t.maxAlign else min (offset.land (-offset)) t.maxAlign := by
  rw [alignAtOffset, lowestBit_natAbs_eq_land]

/-! ### Pointer sizes -/

theorem ofPtrSize_isOk_iff_land :
    (∃ t, ofPtrSize n = .ok t) ↔ ¬ (n ≤ 0 ∨ n.land (n - 1) ≠ 0) := by
  rw [ofPtrSize_isOk_iff, isPowerOfTwo_iff_land, not_or, Decidable.not_not, not_le]

/-- There is nothing more to a target than its pointer size. -/
theorem ofPtrSize_eq_ok_iff : ofPtrSize n = .ok t ↔ t.ptrSize = n := by
  constructor
  · exact ptrSize_of_ofPtrSize
  · rintro rfl
    obtain ⟨t', h⟩ := (ofPtrSize_isOk_iff t.ptrSize).2 ((isPowerOfTwo_ofNat _).2 t.pow)
    have hsize : t'.ptrSize = t.ptrSize := Int.ofNat_inj.1 (ptrSize_of_ofPtrSize h)
    obtain ⟨size, _⟩ := t
    obtain ⟨size', _⟩ := t'
    obtain rfl : size' = size := hsize
    exact h

theorem ofPtrSize_eq_error_iff {e : BadPtrSize} :
    ofPtrSize n = .error e ↔ isPowerOfTwo n = false ∧ e = ⟨n⟩ := by
  rw [← Bool.not_eq_true, isPowerOfTwo_iff_not_refused, Decidable.not_not]
  unfold ofPtrSize
  split
  · rename_i h
    rw [Except.error.injEq, and_iff_right h, eq_comm]
  · rename_i h
    exact iff_of_false (by simp) fun he => h he.1

theorem maxSize_eq (t : Target) : t.maxSize = 2 ^ (8 * t.ptrSize - 1) - 1 := by
  rw [maxSize, twoPow_eq, wordBits, Nat.mul_comm]

/-! ### What is tested against a target -/

theorem isAlign_iff : t.IsAlign n ↔ ∃ k : Nat, k ≤ 29 ∧ n = 2 ^ k := by
  rw [IsAlign, isPowerOfTwo_iff_exists_pow, maxAlign, twoPow_eq]
  constructor
  · rintro ⟨⟨k, rfl⟩, hle⟩
    exact ⟨k, (pow_le_pow_iff_right₀ one_lt_two).1 hle, rfl⟩
  · rintro ⟨k, hk, rfl⟩
    exact ⟨⟨k, rfl⟩, (pow_le_pow_iff_right₀ one_lt_two).2 hk⟩

end Target

theorem IntType.wellFormed_iff {i : IntType} {t : Target} :
    i.WellFormed t ↔ (∃ k : Nat, i.size = 2 ^ k) ∧ i.size ≤ t.maxSize := by
  rw [← isPowerOfTwo_iff_exists_pow]
  constructor
  · rintro ⟨⟨_, hmax⟩, hpow⟩
    exact ⟨hpow, hmax⟩
  · rintro ⟨hpow, hmax⟩
    exact ⟨⟨(isPowerOfTwo_pos hpow).le, hmax⟩, hpow⟩

/-- The powers of two are found by their bits among all integers, positive or not, and both
tests find them: `isPowerOfTwo` asks for a positive number that is gone without its lowest set
bit, the test on pointer sizes refuses one that is not positive or keeps a bit, and a target is
made of a pointer size if and only if it is a power of two. So an alignment passes if it is one
of the first thirty powers of two, and an integer type if its size is a power of two up to the
largest size; and the pointer size of every target is a size of that target. -/
theorem powers_of_two_recognised :
    (∀ n : Int, isPowerOfTwo n = true ↔ ∃ k : Nat, n = 2 ^ k) ∧
    (∀ n : Int,
      (isPowerOfTwo n = true ↔ 0 < n ∧ n.land (n - 1) = 0) ∧
      ((∃ t, Target.ofPtrSize n = .ok t) ↔ ¬ (n ≤ 0 ∨ n.land (n - 1) ≠ 0)) ∧
      ((∃ t, Target.ofPtrSize n = .ok t) ↔ isPowerOfTwo n = true) ∧
      ∀ e, Target.ofPtrSize n = .error e ↔ isPowerOfTwo n = false ∧ e = ⟨n⟩) ∧
    (∀ (t : Target) (n : Int),
      (∀ a, t.align? n = some a ↔ (∃ k : Nat, k ≤ 29 ∧ n = 2 ^ k) ∧ n = a) ∧
      ∀ sign, IntType.WellFormed ⟨sign, n⟩ t ↔ (∃ k : Nat, n = 2 ^ k) ∧ n ≤ t.maxSize) ∧
    ∀ n t, Target.ofPtrSize n = .ok t →
      t.ptrSize = n ∧ t.maxSize = 2 ^ (8 * n - 1).toNat - 1 ∧ t.size? n = some n := by
  refine ⟨fun n => isPowerOfTwo_iff_exists_pow, fun n => ⟨isPowerOfTwo_iff_land, ?_, ?_, ?_⟩,
    fun t n => ⟨fun a => ?_, fun sign => ?_⟩, fun n t h => ?_⟩
  · exact Target.ofPtrSize_isOk_iff_land
  · exact Target.ofPtrSize_isOk_iff n
  · exact fun e => Target.ofPtrSize_eq_error_iff
  · rw [Target.align?_eq_some, Target.isAlign_iff]
  · exact IntType.wellFormed_iff
  · obtain rfl := Target.ofPtrSize_eq_ok_iff.1 h
    have hbits : (8 * (t.ptrSize : Int) - 1).toNat = 8 * t.ptrSize - 1 := by omega
    rw [hbits]
    exact ⟨rfl, t.maxSize_eq, Target.size?_eq_some.2 ⟨t.isSize_ptrSize, rfl⟩⟩

/-- Pointers of one byte are the narrowest and make a target whose sizes end at 127: an integer
type may take up 64 bytes and not 128, and alignments go beyond. Neither 0 nor a negative
number makes a target. -/
theorem one_byte_recognised :
    (∃ t, Target.ofPtrSize 1 = .ok t ∧ t.size? 1 = some 1 ∧ t.maxSize = 127 ∧
      IntType.WellFormed ⟨.unsigned, 64⟩ t ∧ ¬ IntType.WellFormed ⟨.unsigned, 128⟩ t ∧
      t.align? 128 = some 128) ∧
    Target.ofPtrSize 0 = .error ⟨0⟩ ∧ Target.ofPtrSize (-8) = .error ⟨-8⟩ := by
  obtain ⟨_, htests, hpasses, hptr⟩ := powers_of_two_recognised
  have hok : Target.ofPtrSize 1 = .ok ⟨1, 0, rfl⟩ := rfl
  obtain ⟨_, hmax, hsize⟩ := hptr 1 _ hok
  have h64 := ((hpasses ⟨1, 0, rfl⟩ 64).2 .unsigned).2 ⟨⟨6, rfl⟩, by decide⟩
  obtain ⟨halign, hint⟩ := hpasses ⟨1, 0, rfl⟩ 128
  refine ⟨⟨_, hok, hsize, hmax, h64, fun h => ?_, ?_⟩, ?_, ?_⟩
  · exact absurd ((hint .unsigned).1 h).2 (by decide)
  · exact (halign 128).2 ⟨⟨7, by decide, rfl⟩, rfl⟩
  · exact ((htests 0).2.2.2 _).2 ⟨by decide, rfl⟩
  · exact ((htests (-8)).2.2.2 _).2 ⟨by decide, rfl⟩

end PlaceIR

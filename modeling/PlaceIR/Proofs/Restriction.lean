import Mathlib.Data.Int.GCD
import Mathlib.Data.Nat.Prime.Basic
import Mathlib.Algebra.BigOperators.Ring.List
import Mathlib.Algebra.Ring.Int.Defs
import Mathlib.Order.Bounds.Defs
import PlaceIR.Proofs.Align

/-! What moves leave of an alignment, by the powers of two that divide it. They are those
that divide the alignment, the offset of each move and the largest alignment, and a power of
two is known by the powers of two that divide it. So a move leaves the greatest common divisor
of alignment and offset, up to the largest alignment, and of several moves neither the order
nor a repetition counts. -/

namespace PlaceIR

/-! ### Powers of two by their divisors -/

theorem twoPow_succ (k : Nat) : twoPow (k + 1) = 2 * twoPow k := by
  rw [twoPow, twoPow, Nat.one_shiftLeft, Nat.one_shiftLeft, Nat.pow_succ, Nat.mul_comm]

/-- The lowest set bit keeps all divisors that are powers of two. -/
theorem twoPow_dvd_lowestBit_iff {n k : Nat} : twoPow k ∣ lowestBit n ↔ twoPow k ∣ n := by
  constructor
  · exact fun h => h.trans (lowestBit_dvd n)
  · intro h
    induction k generalizing n with
    | zero => exact Nat.one_dvd _
    | succ k ih =>
      rw [twoPow_succ] at h ⊢
      obtain ⟨m, rfl⟩ : 2 ∣ n := (Nat.dvd_mul_right 2 _).trans h
      rw [lowestBit_two_mul]
      exact Nat.mul_dvd_mul_left 2 (ih (Nat.dvd_of_mul_dvd_mul_left (by decide) h))

variable {a b p : Int}

theorem dvd_lowestBit_iff {offset : Int} (hp : isPowerOfTwo p = true) :
    p ∣ lowestBit offset.natAbs ↔ p ∣ offset := by
  obtain ⟨k, rfl⟩ := isPowerOfTwo_iff_exists_twoPow.1 hp
  rw [Int.natCast_dvd_natCast, twoPow_dvd_lowestBit_iff, Int.ofNat_dvd_left]

/-- The smaller of two powers of two is their common divisor. -/
theorem dvd_min_iff (ha : isPowerOfTwo a = true) (hb : isPowerOfTwo b = true) :
    p ∣ min a b ↔ p ∣ a ∧ p ∣ b := by
  rcases Int.le_total a b with h | h
  · rw [Int.min_eq_left h]
    exact ⟨fun hp => ⟨hp, hp.trans (dvd_of_isPowerOfTwo_of_le ha hb h)⟩, And.left⟩
  · rw [Int.min_eq_right h]
    exact ⟨fun hp => ⟨hp.trans (dvd_of_isPowerOfTwo_of_le hb ha h), hp⟩, And.right⟩

theorem eq_of_dvd_iff (ha : isPowerOfTwo a = true) (hb : isPowerOfTwo b = true)
    (h : ∀ p, isPowerOfTwo p = true → (p ∣ a ↔ p ∣ b)) : a = b := by
  have hab : a ∣ b := (h a ha).1 (Int.dvd_refl a)
  have hba : b ∣ a := (h b hb).2 (Int.dvd_refl b)
  exact Int.dvd_antisymm (isPowerOfTwo_pos ha).le (isPowerOfTwo_pos hb).le hab hba

theorem isPowerOfTwo_of_dvd (hb : isPowerOfTwo b = true) {n : Nat} (h : (n : Int) ∣ b) :
    isPowerOfTwo n = true := by
  obtain ⟨k, rfl⟩ := isPowerOfTwo_iff_exists_twoPow.1 hb
  rw [Int.natCast_dvd_natCast, twoPow, Nat.one_shiftLeft, Nat.dvd_prime_pow Nat.prime_two] at h
  obtain ⟨j, _, rfl⟩ := h
  rw [← Nat.one_shiftLeft]
  exact isPowerOfTwo_twoPow j

namespace Target

variable {t : Target} {align offset : Int} {offsets offsets' : List Int}

/-! ### One move -/

theorem dvd_alignAtOffset_iff (hp : isPowerOfTwo p = true) :
    p ∣ t.alignAtOffset offset ↔ p ∣ offset ∧ p ∣ t.maxAlign := by
  unfold alignAtOffset
  split
  -- everything divides 0, so that only the cap counts
  · rename_i h
    rw [h, and_iff_right (Int.dvd_zero p)]
  · rename_i h
    have hbit := isPowerOfTwo_lowestBit (n := offset.natAbs) (by omega)
    rw [dvd_min_iff ((isPowerOfTwo_ofNat _).2 hbit) t.isPowerOfTwo_maxAlign, dvd_lowestBit_iff hp]

theorem dvd_restrictAlign_iff (ha : isPowerOfTwo align = true) (hp : isPowerOfTwo p = true) :
    p ∣ t.restrictAlign align offset ↔ p ∣ align ∧ p ∣ offset ∧ p ∣ t.maxAlign := by
  rw [restrictAlign, dvd_min_iff ha (t.isPowerOfTwo_alignAtOffset offset), dvd_alignAtOffset_iff hp]

/-- A move leaves the greatest common divisor of alignment and offset, unless that is larger
than the largest alignment. -/
theorem restrictAlign_eq_min_gcd (ha : isPowerOfTwo align = true) :
    t.restrictAlign align offset = min (Int.gcd align offset : Int) t.maxAlign := by
  have hgcd : isPowerOfTwo (Int.gcd align offset) = true := isPowerOfTwo_of_dvd ha (Int.gcd_dvd_left ..)
  have hmax := t.isPowerOfTwo_maxAlign
  refine eq_of_dvd_iff (isPowerOfTwo_restrictAlign ha) (isPowerOfTwo_min hgcd hmax) fun p hp => ?_
  rw [dvd_restrictAlign_iff ha hp, dvd_min_iff hgcd hmax, Int.dvd_coe_gcd_iff, and_assoc]

/-- An offset guarantees the largest power of two that divides it, up to the largest
alignment. -/
theorem isGreatest_alignAtOffset (t : Target) (offset : Int) :
    IsGreatest {p : Int | (∃ k, p = twoPow k) ∧ p ∣ offset ∧ p ≤ t.maxAlign}
      (t.alignAtOffset offset) := by
  have hpow := t.isPowerOfTwo_alignAtOffset offset
  obtain ⟨hoffset, hmax⟩ := (dvd_alignAtOffset_iff hpow).1 (Int.dvd_refl _)
  constructor
  · have hle := Int.le_of_dvd (isPowerOfTwo_pos t.isPowerOfTwo_maxAlign) hmax
    exact ⟨isPowerOfTwo_iff_exists_twoPow.1 hpow, hoffset, hle⟩
  · rintro p ⟨hp, hdvd, hle⟩
    have hp' := isPowerOfTwo_iff_exists_twoPow.2 hp
    have hcap := dvd_of_isPowerOfTwo_of_le hp' t.isPowerOfTwo_maxAlign hle
    exact Int.le_of_dvd (isPowerOfTwo_pos hpow) ((dvd_alignAtOffset_iff hp').2 ⟨hdvd, hcap⟩)

/-! ### Several moves -/

def restrictAll (t : Target) (align : Int) (offsets : List Int) : Int :=
  offsets.foldl t.restrictAlign align

theorem isPowerOfTwo_restrictAll (ha : isPowerOfTwo align = true) :
    isPowerOfTwo (t.restrictAll align offsets) = true := by
  induction offsets generalizing align with
  | nil => exact ha
  | cons offset offsets ih => exact ih (isPowerOfTwo_restrictAlign ha)

theorem dvd_restrictAll_iff (ha : isPowerOfTwo align = true) (hp : isPowerOfTwo p = true) :
    p ∣ t.restrictAll align offsets ↔ p ∣ align ∧ ∀ offset ∈ offsets, p ∣ offset ∧ p ∣ t.maxAlign := by
  induction offsets generalizing align with
  | nil => simp [restrictAll]
  | cons offset offsets ih =>
    change p ∣ t.restrictAll (t.restrictAlign align offset) offsets ↔ _
    rw [ih (isPowerOfTwo_restrictAlign ha), dvd_restrictAlign_iff ha hp, List.forall_mem_cons,
      and_assoc]

theorem restrictAll_perm (ha : isPowerOfTwo align = true) (h : offsets.Perm offsets') :
    t.restrictAll align offsets = t.restrictAll align offsets' := by
  refine eq_of_dvd_iff (isPowerOfTwo_restrictAll ha) (isPowerOfTwo_restrictAll ha) fun p hp => ?_
  simp only [dvd_restrictAll_iff ha hp, h.mem_iff]

theorem restrictAll_idem (ha : isPowerOfTwo align = true) :
    t.restrictAll (t.restrictAll align offsets) offsets = t.restrictAll align offsets := by
  have hall : isPowerOfTwo (t.restrictAll align offsets) = true := isPowerOfTwo_restrictAll ha
  refine eq_of_dvd_iff (isPowerOfTwo_restrictAll hall) hall fun p hp => ?_
  rw [dvd_restrictAll_iff hall hp, dvd_restrictAll_iff ha hp, and_assoc, and_self]

/-- Moves leave no more than one move by their sum: what divides all offsets divides it. -/
theorem restrictAll_le_restrictAlign_sum (ha : t.IsAlign align) :
    t.restrictAll align offsets ≤ t.restrictAlign align offsets.sum := by
  have hall : isPowerOfTwo (t.restrictAll align offsets) = true := isPowerOfTwo_restrictAll ha.1
  obtain ⟨halign, hoffsets⟩ := (dvd_restrictAll_iff ha.1 hall).1 (Int.dvd_refl _)
  have hsum : t.restrictAll align offsets ∣ offsets.sum :=
    List.dvd_sum fun offset h => (hoffsets offset h).1
  have hmax := halign.trans (dvd_of_isPowerOfTwo_of_le ha.1 t.isPowerOfTwo_maxAlign ha.2)
  have hdvd := (dvd_restrictAlign_iff (t := t) ha.1 hall).2 ⟨halign, hsum, hmax⟩
  exact Int.le_of_dvd (isPowerOfTwo_pos (isPowerOfTwo_restrictAlign ha.1)) hdvd

/-- A move by an offset, of either sign or zero, leaves the greatest common divisor of the
offset and an alignment that is a power of two, up to the largest alignment; and an offset
guarantees the largest power of two up to there that divides it. So from a supported
alignment moves by several offsets leave the same in whatever order they are made, and if they
are made twice; and they leave no more than one move by the sum of the offsets. -/
theorem restriction_capped_gcd (t : Target) :
    (∀ (k : Nat) (offset : Int),
      t.restrictAlign (twoPow k) offset = min (Int.gcd (twoPow k) offset : Int) t.maxAlign) ∧
    (∀ k : Nat, Int.gcd (twoPow k) 0 = twoPow k) ∧
    (∀ offset : Int, IsGreatest {p : Int | (∃ k, p = twoPow k) ∧ p ∣ offset.natAbs ∧
      p ≤ t.maxAlign} (t.alignAtOffset offset)) ∧
    ∀ align, t.IsAlign align → ∀ offsets : List Int,
      (∀ offsets', offsets.Perm offsets' →
        t.restrictAll align offsets = t.restrictAll align offsets') ∧
      t.restrictAll (t.restrictAll align offsets) offsets = t.restrictAll align offsets ∧
      t.restrictAll align offsets ≤ t.restrictAlign align offsets.sum := by
  refine ⟨fun k offset => restrictAlign_eq_min_gcd (isPowerOfTwo_twoPow k), fun k => ?_,
    fun offset => ?_, fun align ha offsets => ⟨fun offsets' h => restrictAll_perm ha.1 h, ?_, ?_⟩⟩
  · rw [Int.gcd_zero_right, Int.natAbs_natCast]
  · simpa only [Int.dvd_natAbs] using t.isGreatest_alignAtOffset offset
  · exact restrictAll_idem ha.1
  · exact restrictAll_le_restrictAlign_sum ha

/-- From 64 bytes on, 24 bytes forwards and 40 back leave 8 bytes in either order; a single
move of 16 bytes back leaves 16. -/
theorem there_and_back_restriction :
    Target.default.IsAlign 64 ∧
    IsGreatest {p : Int | (∃ k, p = twoPow k) ∧ p ∣ (-40 : Int).natAbs ∧
      p ≤ Target.default.maxAlign} 8 ∧
    Target.default.restrictAll 64 [24, -40] = 8 ∧
    Target.default.restrictAll 64 [-40, 24] = 8 ∧
    Target.default.restrictAll 8 [24, -40] = 8 ∧ 8 ≤ Target.default.restrictAlign 64 (-16) := by
  have halign : Target.default.IsAlign 64 := by decide
  have hall : Target.default.restrictAll 64 [24, -40] = 8 := by decide
  obtain ⟨_, _, hgreatest, hmoves⟩ := restriction_capped_gcd .default
  obtain ⟨hperm, hidem, hsum⟩ := hmoves 64 halign [24, -40]
  have hbit : Target.default.alignAtOffset (-40) = 8 := by decide
  rw [hall] at hperm hidem hsum
  exact ⟨halign, hbit ▸ hgreatest (-40), hall, (hperm _ (.swap ..)).symm, hidem, hsum⟩

end Target

end PlaceIR

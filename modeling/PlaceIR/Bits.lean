/-! Powers of two on integers of any size, by the bit pattern: `n &&& (n - 1)`
clears the lowest set bit of `n`, so it is zero exactly at the powers of two. -/

namespace PlaceIR

/-- Whether `n` is one of 1, 2, 4, 8, … -/
def isPowerOfTwo : Int → Bool
  | .ofNat n => n != 0 && n &&& (n - 1) == 0
  | .negSucc _ => false

def twoPow (k : Nat) : Nat := 1 <<< k

/-- The lowest set bit of `n`, as the power of two that it stands for; 0 for 0. -/
def lowestBit (n : Nat) : Nat := n - (n &&& (n - 1))

/-- The number of binary digits of `n`; none for 0. -/
def bitLength (n : Nat) : Nat := if n = 0 then 0 else n.log2 + 1

theorem isPowerOfTwo_ofNat (n : Nat) : isPowerOfTwo n = true ↔ n.isPowerOfTwo := by
  rw [← Nat.ne_zero_and_sub_one_eq_zero_iff_isPowerOfTwo]
  change (n != 0 && n &&& (n - 1) == 0) = true ↔ _
  simp

theorem not_isPowerOfTwo_of_neg {n : Int} (h : n < 0) : isPowerOfTwo n = false := by
  cases n with
  | ofNat n => exact absurd h (by simp)
  | negSucc n => rfl

theorem isPowerOfTwo_pos {n : Int} (h : isPowerOfTwo n = true) : 0 < n := by
  cases n with
  | ofNat n =>
    have := Nat.pos_of_isPowerOfTwo ((isPowerOfTwo_ofNat n).1 h)
    simp; omega
  | negSucc n => simp [isPowerOfTwo] at h

theorem isPowerOfTwo_toNat {n : Int} (h : isPowerOfTwo n = true) : n.toNat.isPowerOfTwo := by
  rw [← isPowerOfTwo_ofNat, Int.toNat_of_nonneg (Int.le_of_lt (isPowerOfTwo_pos h))]
  exact h

theorem twoPow_pos (k : Nat) : 0 < twoPow k := by
  rw [twoPow, Nat.one_shiftLeft]; exact Nat.two_pow_pos k

/-- The numbers of at most `k` binary digits are those below the `k`-th power of two. -/
theorem bitLength_le_iff {n k : Nat} : bitLength n ≤ k ↔ n < twoPow k := by
  unfold bitLength
  split
  · rename_i h
    exact ⟨fun _ => h ▸ twoPow_pos k, fun _ => Nat.zero_le k⟩
  · rename_i h
    rw [Nat.add_one_le_iff, Nat.log2_lt h, twoPow, Nat.one_shiftLeft]

end PlaceIR

import PlaceIR.Bits

/-! The machine that a program is checked for. It is given by the size of a
pointer; the range of sizes follows, so that an offset always fits a signed
pointer-sized integer. -/

namespace PlaceIR

structure Target where
  ptrSize : Nat
  pow : ptrSize.isPowerOfTwo

namespace Target

/-- Eight-byte pointers. -/
def default : Target := ⟨8, 3, rfl⟩

instance : Inhabited Target := ⟨default⟩

structure BadPtrSize where
  given : Int
  deriving DecidableEq, Repr

def BadPtrSize.message (e : BadPtrSize) : String :=
  s!"pointer size must be a power of two, got {e.given}"

/-- The test on pointer sizes agrees with `isPowerOfTwo`. -/
theorem isPowerOfTwo_iff_not_refused {n : Int} :
    isPowerOfTwo n = true ↔ ¬ (n ≤ 0 ∨ n.toNat &&& (n.toNat - 1) ≠ 0) := by
  rw [not_or, Decidable.not_not]
  constructor
  · intro h
    have hpos := isPowerOfTwo_pos h
    have hbits := Nat.ne_zero_and_sub_one_eq_zero_iff_isPowerOfTwo.2 (isPowerOfTwo_toNat h)
    exact ⟨by omega, hbits.2⟩
  · rintro ⟨hpos, hbits⟩
    have hpow := Nat.ne_zero_and_sub_one_eq_zero_iff_isPowerOfTwo.1 ⟨by omega, hbits⟩
    rw [← Int.toNat_of_nonneg (a := n) (by omega)]
    exact (isPowerOfTwo_ofNat _).2 hpow

/-- The target with pointers of `n` bytes. Refused is what is not positive or keeps a bit
without its lowest one. -/
def ofPtrSize (n : Int) : Except BadPtrSize Target :=
  if h : n ≤ 0 ∨ n.toNat &&& (n.toNat - 1) ≠ 0 then .error ⟨n⟩
  else .ok ⟨n.toNat, isPowerOfTwo_toNat (isPowerOfTwo_iff_not_refused.2 h)⟩

def ptrAlign (t : Target) : Nat := t.ptrSize

def wordBits (t : Target) : Nat := t.ptrSize * 8

/-- The largest size: the largest signed integer of a pointer's width. -/
def maxSize (t : Target) : Int := twoPow (t.wordBits - 1) - 1

/-- The largest alignment, the same for all targets. -/
def maxAlign (_ : Target) : Int := twoPow 29

theorem ptrSize_pos (t : Target) : 0 < t.ptrSize := Nat.pos_of_isPowerOfTwo t.pow

theorem ofPtrSize_isOk_iff (n : Int) : (∃ t, ofPtrSize n = .ok t) ↔ isPowerOfTwo n = true := by
  rw [isPowerOfTwo_iff_not_refused]
  unfold ofPtrSize
  split <;> simp_all

theorem ptrSize_of_ofPtrSize {n : Int} {t : Target} (h : ofPtrSize n = .ok t) : t.ptrSize = n := by
  unfold ofPtrSize at h
  split at h
  · cases h
  · rename_i hn
    cases h
    exact Int.toNat_of_nonneg (by omega)

end Target

end PlaceIR

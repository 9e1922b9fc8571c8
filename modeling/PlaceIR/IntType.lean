import PlaceIR.Size

/-! Integer types: a signedness and a size in bytes. `wrap` brings any integer
into the range of a type; `fits` tests membership by counting binary digits, so
that it needs no power of two even for very large types. -/

namespace PlaceIR

inductive Signedness where
  | signed | unsigned
  deriving DecidableEq, Repr

structure IntType where
  signedness : Signedness
  size : Int
  deriving DecidableEq, Repr

namespace IntType

def bits (i : IntType) : Int := i.size * 8

def modulus (i : IntType) : Int := twoPow i.bits.toNat

/-- The value in the type's range that agrees with `n` modulo `modulus`. -/
def wrap (i : IntType) (n : Int) : Int :=
  match i.signedness with
  | .unsigned => n % i.modulus
  | .signed => if i.modulus / 2 ≤ n % i.modulus then n % i.modulus - i.modulus else n % i.modulus

/-- The digits of `n` that a two's complement word holds beside the sign: those of `n`,
or of its complement `-n - 1` if `n` is negative. -/
def magnitude : Int → Nat
  | .ofNat n => n
  | .negSucc n => n

def Fits (i : IntType) (n : Int) : Prop :=
  match i.signedness with
  | .unsigned => 0 ≤ n ∧ bitLength n.toNat ≤ i.bits
  | .signed => bitLength (magnitude n) ≤ i.bits - 1

instance (i : IntType) (n : Int) : Decidable (i.Fits n) :=
  match i with
  | ⟨.unsigned, _⟩ => inferInstanceAs (Decidable (_ ∧ _))
  | ⟨.signed, _⟩ => inferInstanceAs (Decidable (_ ≤ _))

def WellFormed (i : IntType) (t : Target) : Prop := t.IsSize i.size ∧ isPowerOfTwo i.size = true

instance (i : IntType) (t : Target) : Decidable (i.WellFormed t) :=
  inferInstanceAs (Decidable (_ ∧ _))

theorem modulus_pos (i : IntType) : 0 < i.modulus :=
  Int.natCast_pos.2 (twoPow_pos _)

theorem magnitude_of_nonneg {n : Int} (h : 0 ≤ n) : (magnitude n : Int) = n := by
  cases n with
  | ofNat n => rfl
  | negSucc n => exact absurd h (by simp)

theorem magnitude_of_neg {n : Int} (h : n < 0) : (magnitude n : Int) = -n - 1 := by
  cases n with
  | ofNat n => exact absurd h (by simp)
  | negSucc n => simp only [magnitude, Int.negSucc_eq]; omega

end IntType

end PlaceIR

import PlaceIR.Target

/-! Sizes and alignments in bytes. Both are plain integers; whether one is in
range is a property of the integer and the target, and arithmetic that leaves
the range has no result. -/

namespace PlaceIR.Target

def IsSize (t : Target) (n : Int) : Prop := 0 ≤ n ∧ n ≤ t.maxSize

instance (t : Target) (n : Int) : Decidable (t.IsSize n) := inferInstanceAs (Decidable (_ ∧ _))

def IsAlign (t : Target) (n : Int) : Prop := isPowerOfTwo n = true ∧ n ≤ t.maxAlign

instance (t : Target) (n : Int) : Decidable (t.IsAlign n) := inferInstanceAs (Decidable (_ ∧ _))

def size? (t : Target) (n : Int) : Option Int := if t.IsSize n then some n else none

def align? (t : Target) (n : Int) : Option Int := if t.IsAlign n then some n else none

def add? (t : Target) (a b : Int) : Option Int := t.size? (a + b)

def mul? (t : Target) (a b : Int) : Option Int := t.size? (a * b)

/-- The alignment that an offset leaves of any larger one: the lowest set bit is the
largest power of two that divides the offset. Offset 0 costs nothing. -/
def alignAtOffset (t : Target) (offset : Int) : Int :=
  if offset = 0 then t.maxAlign else min (lowestBit offset.natAbs) t.maxAlign

/-- The alignment left after moving `offset` bytes away from a place aligned to `align`. -/
def restrictAlign (t : Target) (align offset : Int) : Int := min align (t.alignAtOffset offset)

@[simp] theorem size?_eq_some {t : Target} {n m : Int} : t.size? n = some m ↔ t.IsSize n ∧ n = m := by
  simp [size?]

@[simp] theorem align?_eq_some {t : Target} {n m : Int} :
    t.align? n = some m ↔ t.IsAlign n ∧ n = m := by
  simp [align?]

theorem add?_eq_some {t : Target} {a b c : Int} : t.add? a b = some c ↔ t.IsSize (a + b) ∧ a + b = c :=
  size?_eq_some

theorem mul?_eq_some {t : Target} {a b c : Int} : t.mul? a b = some c ↔ t.IsSize (a * b) ∧ a * b = c :=
  size?_eq_some

theorem restrictAlign_le (t : Target) (align offset : Int) : t.restrictAlign align offset ≤ align :=
  Int.min_le_left ..

end PlaceIR.Target

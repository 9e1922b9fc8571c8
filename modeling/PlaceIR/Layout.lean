import PlaceIR.Size

/-! A layout is a size and an alignment. It is all that a reference says about what
it points to. -/

namespace PlaceIR

structure Layout where
  size : Int
  align : Int
  deriving DecidableEq, Repr

namespace Layout

def WellFormed (l : Layout) (t : Target) : Prop :=
  t.IsSize l.size ∧ t.IsAlign l.align ∧ l.size % l.align = 0

instance (l : Layout) (t : Target) : Decidable (l.WellFormed t) :=
  inferInstanceAs (Decidable (_ ∧ _ ∧ _))

end Layout

end PlaceIR

import PlaceIR.Fault
import PlaceIR.Ty.Basic

/-! The size and the alignment that a type has on a target. They are read off the
type as it stands, well-formed or not; only a node of unknown kind has none. -/

namespace PlaceIR.Ty

def size (t : Target) : Ty → Checked Int
  | .int i => .ok i.size
  | .bool => .ok 1
  | .rawPtr _ | .ref .. | .box _ => .ok t.ptrSize
  | .tuple _ s _ => .ok s
  | .union _ s => .ok s
  | .enum _ s => .ok s
  | .array e n => return (← e.size t) * n
  | .unknown _ => .error (.unknown .type)

/-- The largest of the alignments `as`, or 1 if there are none. -/
def strictest : List Int → Int
  | [] => 1
  | [a] => a
  | a :: as => max a (strictest as)

mutual

/-- The alignment that the type asks for: for a union or an enum the strictest of its
parts, each of which is looked at. -/
def align (t : Target) : Ty → Checked Int
  | .int i => .ok i.size
  | .bool => .ok 1
  | .rawPtr _ | .ref .. | .box _ => .ok t.ptrAlign
  | .tuple _ _ a => .ok a
  | .array e _ => e.align t
  | .union fs _ => return strictest (← fieldAligns t fs)
  | .enum vs _ => return strictest (← variantAligns t vs)
  | .unknown _ => .error (.unknown .type)
termination_by structural ty => ty

def fieldAligns (t : Target) : List (Int × Ty) → Checked (List Int)
  | [] => .ok []
  | (_, ty) :: fs => return (← ty.align t) :: (← fieldAligns t fs)
termination_by structural fs => fs

def variantAligns (t : Target) : List Ty → Checked (List Int)
  | [] => .ok []
  | ty :: vs => return (← ty.align t) :: (← variantAligns t vs)
termination_by structural vs => vs

end

def layout (t : Target) (ty : Ty) : Checked Layout :=
  return { size := ← ty.size t, align := ← ty.align t }

end PlaceIR.Ty

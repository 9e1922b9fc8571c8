import PlaceIR.Expr.Basic
import PlaceIR.Table
import PlaceIR.Ty.WellFormed

/-! The type of a value expression and the place type of a place expression, given
the locals that are live. A reference is described by its declared alignment; a
projection keeps of its root's alignment what the offset leaves of it. The operands
of an operator are typed before the operator is looked at. -/

namespace PlaceIR

/-- The live locals with their place types. -/
abbrev Live := Table PlaceType

/-- Whether a constant is a value of a type. A constant of any type but an integer or
Boolean one is never. -/
def Const.fits (t : Target) : Const → Ty → Bool
  | .int n, .int i => i.WellFormed t ∧ i.Fits n
  | .bool _, .bool => true
  | _, _ => false

namespace Ty

def isInt : Ty → Bool
  | .int _ => true
  | _ => false

def fields? : Ty → Option (List (Int × Ty))
  | .tuple fs _ _ => some fs
  | .union fs _ => some fs
  | _ => none

def elem? : Ty → Option Ty
  | .array e _ => some e
  | _ => none

/-- Whether an offset can be added to a value of the type. -/
def isPointer : Ty → Bool
  | .ref .. | .rawPtr _ => true
  | _ => false

def field? (ty : Ty) (position : Int) : Option (Int × Ty) :=
  if 0 ≤ position then ty.fields?.bind (·[position.toNat]?) else none

end Ty

/-- The type of an operator's result on an operand of the given type. -/
def UnOp.result : UnOp → Ty → Checked Ty
  | .int _ result, operand => do
    require operand.isInt
    return .int result
  | .unknown, _ => .error (.unknown .unaryOp)

def BinOp.result : BinOp → Ty → Ty → Checked Ty
  | .int _ result, left, right => do
    require (left.isInt ∧ right.isInt)
    return .int result
  | .ptrOffset _, left, right => do
    require (left.isPointer ∧ right.isInt)
    return left
  | .unknown, _, _ => .error (.unknown .binaryOp)

mutual

def Value.infer (t : Target) (live : Live) : Value → Checked Ty
  | .const c ty => do
    require (c.fits t ty)
    return ty
  | .load source _ => return (← source.infer t live).ty
  | .addrOf target m => do
    let _ ← target.infer t live
    return .rawPtr m
  | .ref target align m => do
    let place ← target.infer t live
    let size ← place.ty.size t
    return .ref ⟨size, align⟩ m
  | .unOp op operand => do
    let operand ← operand.infer t live
    op.result operand
  | .binOp op left right => do
    let left ← left.infer t live
    let right ← right.infer t live
    op.result left right
  | .unknown => .error (.unknown .value)
termination_by structural v => v

def Place.infer (t : Target) (live : Live) : Place → Checked PlaceType
  | .slot name => orIllFormed (live.get? name)
  | .deref operand align => return { ty := ← operand.infer t live, align }
  | .field root position => do
    let root ← root.infer t live
    let (offset, ty) ← orIllFormed (root.ty.field? position)
    return { ty, align := t.restrictAlign root.align offset }
  | .index root index => do
    let root ← root.infer t live
    let elem ← orIllFormed root.ty.elem?
    let index ← index.infer t live
    require index.isInt
    let stride ← elem.size t
    return { ty := elem, align := t.restrictAlign root.align stride }
  | .unknown => .error (.unknown .place)
termination_by structural p => p

end

end PlaceIR

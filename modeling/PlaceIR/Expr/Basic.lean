import PlaceIR.Ty.Basic

/-! Expressions come in two families. A value expression produces a value, a place
expression names storage; each may occur in the other. -/

namespace PlaceIR

/-- What a constant holds. Only integers and Booleans have a type. -/
inductive Const where
  | int (n : Int)
  | bool (b : Bool)
  | other
  deriving DecidableEq, Inhabited, Repr

inductive IntUnOp where
  | neg | cast
  deriving DecidableEq, Repr

inductive IntBinOp where
  | add | sub | mul | div | rem
  deriving DecidableEq, Repr

/-- Unary operators. An integer operator names the type of its result. -/
inductive UnOp where
  | int (op : IntUnOp) (result : IntType)
  | unknown
  deriving DecidableEq, Inhabited, Repr

/-- Binary operators. `ptrOffset` moves a pointer by a number of bytes; `inbounds` asks
that it stays inside its allocation when the program runs. -/
inductive BinOp where
  | int (op : IntBinOp) (result : IntType)
  | ptrOffset (inbounds : Bool)
  | unknown
  deriving DecidableEq, Inhabited, Repr

mutual

inductive Value where
  | const (const : Const) (ty : Ty)
  /-- The value in a place, which a destructive load leaves empty. -/
  | load (source : Place) (destructive : Bool)
  /-- A raw pointer to a place. -/
  | addrOf (target : Place) (mutability : Mutability)
  /-- A reference to a place, which promises the alignment `align` whether or not the
  place has it. -/
  | ref (target : Place) (align : Int) (mutability : Mutability)
  | unOp (operator : UnOp) (operand : Value)
  | binOp (operator : BinOp) (left right : Value)
  | unknown

inductive Place where
  /-- The storage of a local. -/
  | slot (name : String)
  /-- What a pointer points to, taken to be aligned to `align`. -/
  | deref (operand : Value) (align : Int)
  /-- A field of a tuple or union, by its position in the declaration. -/
  | field (root : Place) (position : Int)
  /-- An element of an array. -/
  | index (root : Place) (index : Value)
  | unknown

end

instance : Inhabited Value := ⟨.unknown⟩

instance : Inhabited Place := ⟨.unknown⟩

deriving instance Repr for Value, Place

end PlaceIR

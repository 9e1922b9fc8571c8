import PlaceIR.Expr.Typing

/-! Statements. Each takes the locals live before it to those live after it. -/

namespace PlaceIR

inductive Stmt where
  | assign (destination : Place) (source : Value)
  /-- The place now holds a complete value. -/
  | finalize (place : Place)
  /-- The storage of a local begins. -/
  | storageLive (name : String)
  /-- The storage of a local ends. -/
  | storageDead (name : String)
  | unknown
  deriving Inhabited, Repr

namespace Stmt

/-- The name of the statement's kind, for messages. -/
def kind : Stmt → String
  | assign .. => "Assign"
  | finalize _ => "Finalize"
  | storageLive _ => "StorageLive"
  | storageDead _ => "StorageDead"
  | unknown => "Unknown"

/-- The locals live after the statement. An assignment needs the very type of its
destination; storage begins only for a declared local that is not live and ends only
for one that is. -/
def check (t : Target) (locals : Table PlaceType) (live : Live) : Stmt → Checked Live
  | assign destination source => do
    let place ← destination.infer t live
    let ty ← source.infer t live
    require (place.ty = ty)
    return live
  | finalize place => do
    let _ ← place.infer t live
    return live
  | storageLive name => do
    let declared ← orIllFormed (locals.get? name)
    require (name ∉ live)
    return live.insert name declared
  | storageDead name => do
    require (name ∈ live)
    return live.erase name
  | unknown => .error (.unknown .statement)

end Stmt

end PlaceIR

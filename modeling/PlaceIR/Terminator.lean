import PlaceIR.Expr.Typing

/-! Terminators. Each ends a block and names the blocks that may come next. -/

namespace PlaceIR

inductive Terminator where
  | goto (target : String)
  | branch (condition : Value) (thenBlock elseBlock : String)
  /-- Call `callee`, put its result into `result`, and go on at `next`. -/
  | call (callee : String) (arguments : List Value) (result : Place) (next : String)
  | ret
  | unknown
  deriving Inhabited, Repr

namespace Terminator

def kind : Terminator → String
  | goto _ => "Goto"
  | branch .. => "If"
  | call .. => "Call"
  | ret => "Return"
  | unknown => "Unknown"

/-- The blocks that may come next. A call's arguments only need a type each: neither
the callee nor its parameters are looked up. -/
def successors (t : Target) (live : Live) : Terminator → Checked (List String)
  | goto target => .ok [target]
  | branch condition thenBlock elseBlock => do
    let ty ← condition.infer t live
    require (ty = .bool)
    return [thenBlock, elseBlock]
  | call _ arguments result next => do
    arguments.forM fun v => discard (v.infer t live)
    let _ ← result.infer t live
    return [next]
  | ret => .ok []
  | unknown => .error (.unknown .terminator)

end Terminator

end PlaceIR

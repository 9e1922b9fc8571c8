import PlaceIR.Func.Basic

/-! Questions put one after another at points of straight-line code. A statement that
checks moves the live locals on; all other questions leave them as they are. -/

namespace PlaceIR

inductive Query where
  | statement (s : Stmt)
  | terminator (t : Terminator)
  | value (v : Value)
  | place (p : Place)

inductive Answer where
  /-- The locals live after a statement. -/
  | live (after : Live)
  /-- The blocks that may come after a terminator. -/
  | successors (blocks : List String)
  /-- The type of a value. -/
  | ty (ty : Ty)
  /-- The place type of a place. -/
  | place (place : PlaceType)

namespace Query

def answer (t : Target) (locals : Table PlaceType) (live : Live) : Query → Checked Answer
  | statement s => return .live (← s.check t locals live)
  | terminator s => return .successors (← s.successors t live)
  | value v => return .ty (← v.infer t live)
  | place p => return .place (← p.infer t live)

/-- The live locals at the point after a question. -/
def advance (live : Live) : Checked Answer → Live
  | .ok (.live after) => after
  | _ => live

def answers (t : Target) (locals : Table PlaceType) (live : Live) :
    List Query → List (Checked Answer)
  | [] => []
  | q :: qs =>
    let a := q.answer t locals live
    a :: answers t locals (advance live a) qs

end Query

end PlaceIR

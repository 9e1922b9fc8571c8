import PlaceIR.Func.Check

/-! Editing sessions: a function and a target that change step by step, with a check
after each step. -/

namespace PlaceIR

/-- A change to a function. Changes to a block that is not declared do nothing. -/
inductive Edit where
  | setLocal (name : String) (place : PlaceType)
  | eraseLocal (name : String)
  | setBlock (name : String) (block : Block)
  | eraseBlock (name : String)
  | pushStmt (block : String) (s : Stmt)
  | popStmt (block : String)
  | setTerminator (block : String) (t : Terminator)
  | setStart (block : String)
  | setRet (name : String)
  | setArgs (names : List String)

def Func.edit (f : Func) : Edit → Func
  | .setLocal name place => { f with locals := f.locals.insert name place }
  | .eraseLocal name => { f with locals := f.locals.erase name }
  | .setBlock name block => { f with blocks := f.blocks.insert name block }
  | .eraseBlock name => { f with blocks := f.blocks.erase name }
  | .pushStmt block s =>
    { f with blocks := f.blocks.modify block fun b => { b with statements := b.statements ++ [s] } }
  | .popStmt block =>
    { f with blocks := f.blocks.modify block fun b => { b with statements := b.statements.dropLast } }
  | .setTerminator block t =>
    { f with blocks := f.blocks.modify block fun b => { b with terminator := t } }
  | .setStart block => { f with start := block }
  | .setRet name => { f with ret := name }
  | .setArgs names => { f with args := names }

structure Session where
  func : Func
  target : Target

namespace Session

inductive Step where
  /-- Check again. -/
  | check
  /-- Change the function, then check. -/
  | edit (e : Edit)
  /-- Change the target, then check. -/
  | retarget (ptrSize : Int)

/-- A step and the report after it. A pointer size that gives no target leaves the
session as it was, and nothing is checked. -/
def step (s : Session) : Step → Session × Except Target.BadPtrSize (Report (Table Live))
  | .check => (s, .ok (s.func.check s.target))
  | .edit e =>
    let s := { s with func := s.func.edit e }
    (s, .ok (s.func.check s.target))
  | .retarget n =>
    match Target.ofPtrSize n with
    | .ok t => ({ s with target := t }, .ok (s.func.check t))
    | .error e => (s, .error e)

def run (s : Session) : List Step → List (Except Target.BadPtrSize (Report (Table Live)))
  | [] => []
  | st :: sts => (s.step st).2 :: run (s.step st).1 sts

end Session

end PlaceIR

import PlaceIR.Stmt
import PlaceIR.Terminator

/-! Functions and programs. A function is a graph of blocks over a table of locals;
the tables keep the order of declaration. -/

namespace PlaceIR

structure Block where
  statements : List Stmt := []
  terminator : Terminator := .ret
  deriving Inhabited

structure Func where
  /-- Every local that the function may use, with its place type. -/
  locals : Table PlaceType
  /-- The arguments, live on entry. -/
  args : List String
  /-- The return local, live on entry too. -/
  ret : String
  blocks : Table Block
  /-- The block that control enters first. -/
  start : String
  deriving Inhabited

structure Program where
  functions : Table Func
  /-- The function that runs first. -/
  start : String
  deriving Inhabited

end PlaceIR

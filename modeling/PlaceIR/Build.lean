import PlaceIR.Func.Basic

/-! Short ways to write types, places, functions and programs. Where a place type is
left to be derived, a type is placed at the alignment that it asks for on the default
target. -/

namespace PlaceIR

namespace Ty

def ofSize (size : Int) (signed : Bool) : Ty := .int ⟨if signed then .signed else .unsigned, size⟩

def u8 : Ty := ofSize 1 false

def u32 : Ty := ofSize 4 false

def i32 : Ty := ofSize 4 true

def u64 : Ty := ofSize 8 false

end Ty

def PlaceType.natural (ty : Ty) : Checked PlaceType := return { ty, align := ← ty.align .default }

def Value.ofSlot (name : String) : Value := .load (.slot name) false

def Stmt.assignConst (name : String) (c : Const) (ty : Ty) : Stmt := .assign (.slot name) (.const c ty)

/-- A function given by the types of its locals. The return local is declared first;
a type given for it among the others takes the place of `retTy`. -/
def Func.ofTypes (retTy : Ty) (ret : String) (types : List (String × Ty)) (args : List String)
    (blocks : Table Block) (start : String) : Checked Func := do
  let first := (∅ : Table PlaceType).insert ret (← PlaceType.natural retTy)
  let locals ← types.foldlM (fun locals (name, ty) =>
    return locals.insert name (← PlaceType.natural ty)) first
  return { locals, args, ret, blocks, start }

def Program.single (name : String) (f : Func) : Program := ⟨(∅ : Table Func).insert name f, name⟩

end PlaceIR

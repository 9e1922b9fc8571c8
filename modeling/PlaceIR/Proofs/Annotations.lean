import PlaceIR.Build
import PlaceIR.Proofs.Func.Acceptance
import PlaceIR.Proofs.Func.Relabel

/-! What only matters when a program runs: whether a load empties its source, whether an
offset stays inside its allocation, which integer operator is applied, and which function is
called. To take all this off a program is to relabel it and to keep its names, so that it is
checked as before; and so are any two programs that come out the same. -/

namespace PlaceIR

/-- All names kept, and all flags, operators and callees alike. -/
def Relabelling.bare : Relabelling where
  slot := .refl String
  block := .refl String
  callee := fun _ => ""
  destructive := fun _ => false
  inbounds := fun _ => false
  unOp := fun _ => .neg
  binOp := fun _ => .add

theorem Message.relabel_bare : Message.relabel .bare = id := by
  funext m
  cases m with
  | unreachable blocks => exact congrArg unreachable (List.map_id blocks)
  | _ => rfl

theorem Report.relabel_bare (report : Report (Table Live)) : report.relabel .bare = report := by
  have hlive : Table.rename (α := PlaceType) (.refl String) = id := funext Table.rename_refl
  have hentry : Table.map (.refl String) id = id := funext (Table.rename_refl (α := Live))
  rw [relabel, Message.relabel_bare]
  change report.map (Table.map (.refl String) (Table.rename (.refl String))) id = report
  rw [hlive, hentry, map_id]

def Func.bare (f : Func) : Func := f.relabel .bare

def Program.bare (p : Program) : Program := p.relabel .bare

variable {t : Target}

theorem Func.check_bare (f : Func) : f.bare.check t = f.check t := by
  rw [bare, check_relabel, Report.relabel_bare]

theorem Program.check_bare (p : Program) : p.bare.check t = p.check t := by
  rw [bare, check_relabel, Message.relabel_bare, Report.map_id]

theorem Program.get?_bare (p : Program) (name : String) :
    p.bare.functions.get? name = (p.functions.get? name).map Func.bare :=
  Table.get?_map (f := .refl String)

/-- No annotation decides anything. Programs that differ in annotations only, in any number of
places at any depth, are accepted both, rejected both with the same messages, or at the same
fault; and functions of one name are, with the same locals recorded for the same blocks. -/
theorem annotation_free_check {p q : Program} (h : p.bare = q.bare) (t : Target) :
    p.check t = q.check t ∧
      ∀ name, (p.functions.get? name).map (Func.check t) = (q.functions.get? name).map (Func.check t) := by
  constructor
  · rw [← p.check_bare, h, q.check_bare]
  · intro name
    have hbare (p : Program) : (p.functions.get? name).map (Func.check t) =
        (p.bare.functions.get? name).map (Func.check t) := by
      rw [p.get?_bare, Option.map_map]
      exact congrArg (Option.map · _) (funext fun f => f.check_bare.symm)
    rw [hbare p, hbare q, h]

/-! ### Two ways to call with a moved pointer -/

/-- Call a function with a pointer moved by a computed number of bytes. -/
def Func.moving (callee : String) (destructive inbounds : Bool) (op : IntUnOp) (op' : IntBinOp) :
    Func where
  locals := .ofList [("base", ⟨.rawPtr .mutable, 8⟩), ("step", ⟨.i32, 4⟩), ("out", ⟨.bool, 1⟩)]
  args := ["base", "step"]
  ret := "out"
  blocks := .ofList [
    ("move", ⟨[], .call callee [.binOp (.ptrOffset inbounds) (.load (.slot "base") destructive)
      (.binOp (.int op' ⟨.signed, 4⟩) (.ofSlot "step")
        (.unOp (.int op ⟨.signed, 4⟩) (.ofSlot "step")))] (.slot "out") "done"⟩),
    ("done", ⟨[], .ret⟩)]
  start := "move"

def Program.moving : Program := .single "main" (.moving "keep" true true .neg .mul)

def Program.movingFreely : Program := .single "main" (.moving "drop" false false .cast .sub)

theorem Func.moving_check : ∃ entry,
    ((Func.moving "keep" true true .neg .mul).check .default).result = .ok entry := by
  have hlive : (Func.moving "keep" true true .neg .mul).initialLive.result = .ok _ := rfl
  refine ⟨?entry, check_of_explore rfl hlive ?explore ?reached⟩
  case explore =>
    refine (explore_of_visit rfl).trans ((explore_of_visit rfl).trans ?_)
    exact congrArg Report.result (explore_nil ..)
  case reached => rfl

/-- The one is accepted, so the other is. -/
theorem moving_annotation_free : Program.moving.bare = Program.movingFreely.bare ∧
    Program.moving.check .default = Program.movingFreely.check .default ∧
    ∃ entry, ((Func.moving "drop" false false .cast .sub).check .default).result = .ok entry := by
  have hbare : Program.moving.bare = Program.movingFreely.bare := rfl
  obtain ⟨hprogram, hfuncs⟩ := annotation_free_check hbare .default
  have hmain : (Func.moving "keep" true true .neg .mul).check .default =
      (Func.moving "drop" false false .cast .sub).check .default := Option.some.inj (hfuncs "main")
  exact ⟨hbare, hprogram, hmain ▸ Func.moving_check⟩

end PlaceIR

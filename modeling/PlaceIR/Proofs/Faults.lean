import PlaceIR.Proofs.Func.OrderFree

/-! Nodes of unknown kind as the only cause of anything but an answer or a rejection. A
program without such a node is accepted or rejected, however ill-formed it is. Expressions
may have them, at any depth; yet none is found in a type, as long as the live locals have
well-formed types. -/

namespace PlaceIR

/-- A program of known nodes is accepted or rejected. Under live locals of well-formed types
no expression makes the typing rules look at a type of unknown kind, and they take sizes of
known types only. -/
theorem unknown_fault_free (t : Target) :
    (∀ p : Program, p.Known →
      (p.check t).result = .ok () ∨ (p.check t).result = .error .illFormed) ∧
    ∀ live : Live, (∀ name place, live.get? name = some place → place.ty.check t = .ok ()) →
      (∀ v : Value, v.infer t live ≠ .error (.unknown .type)) ∧
      (∀ p : Place, p.infer t live ≠ .error (.unknown .type)) ∧
      ∀ (e : Expr) ty, e.Measures t live ty → ty.Known := by
  constructor
  · intro p hp
    cases h : (p.check t).result with
    | ok => exact .inl rfl
    | error fault =>
      rw [(Program.decides_check hp).eq_illFormed h]
      exact .inr rfl
  · intro live hcheck
    have hlive : ∀ name place, live.get? name = some place → place.ty.Known :=
      fun name place hplace => Ty.known_of_check (hcheck name place hplace)
    have hill : Fault.unknown .type ≠ .illFormed := nofun
    have hexpr : ∀ e : Expr, e.infer t live ≠ .error (.unknown .type) := by
      intro e
      refine Expr.infer_ne_error hill e (fun s _ family hf => ?_) fun s _ ty hm => ?_
      · rintro ⟨⟩
        exact s.unknown?_ne_type hf
      · exact Expr.size_ne_error hlive hm hill
    refine ⟨fun v => hexpr (.value v), fun p hp => ?_, fun e ty => Expr.known_of_measures hlive⟩
    exact hexpr (.place p) (Expr.infer_place_eq_error.2 hp)

/-! ### Nothing in place -/

/-- A field has a negative offset, an array a negative count, and an argument comes twice.
Nobody declares the return local, and the jump leads nowhere. -/
def Func.astray : Func where
  locals := .ofList [("pair", ⟨.tuple [(-4, .u32), (0, .array .bool (-1))] 3 0, 6⟩)]
  args := ["pair", "pair"]
  ret := "ghost"
  blocks := .ofList [
    ("entry", ⟨[.storageDead "ghost", .finalize (.field (.slot "pair") (-1))], .goto "nowhere"⟩)]
  start := "entry"

def Program.astray : Program := ⟨.ofList [("helper", .astray)], "main"⟩

theorem Func.astray_known : astray.Known := by
  have hpair : Ty.Known (.tuple [(-4, .u32), (0, .array .bool (-1))] 3 0) := by
    refine Ty.known_of_parts nofun (List.forall_mem_cons.2 ⟨Ty.known_int _, ?_⟩)
    refine List.forall_mem_singleton.2 (Ty.known_of_parts nofun ?_)
    exact List.forall_mem_singleton.2 Ty.known_bool
  have hfield : (Expr.place (.field (.slot "pair") (-1))).Known :=
    Expr.known_of_parts .intro (List.forall_mem_singleton.2 (Expr.known_of_parts .intro nofun))
  refine known_of_entries (List.forall_mem_singleton.2 hpair) (List.forall_mem_singleton.2 ?_)
  refine ⟨List.forall_mem_cons.2 ⟨⟨nofun, nofun⟩, ?_⟩, nofun, nofun⟩
  exact List.forall_mem_singleton.2 ⟨nofun, List.forall_mem_singleton.2 hfield⟩

theorem Program.astray_known : astray.Known :=
  Table.forall_get?_iff.2 (List.forall_mem_singleton.2 Func.astray_known)

namespace Place

def cell : Ty := .tuple [(0, .bool), (4, .u32)] 8 4

def cellsLive : Live := .ofList [("cells", ⟨.array cell 3, 4⟩)]

def strayCell : Place := .index (.slot "cells") (.unOp .unknown (.const (.int 1) .u32))

end Place

/-- A program with nothing in place, and expressions that meet an operator of unknown kind. -/
theorem astray_fault_free :
    Program.astray.Known ∧
    ((Program.astray.check .default).result = .ok () ∨
      (Program.astray.check .default).result = .error .illFormed) ∧
    (∀ name place, Place.cellsLive.get? name = some place → place.ty.check .default = .ok ()) ∧
    Place.strayCell.infer .default Place.cellsLive = .error (.unknown .unaryOp) ∧
    Value.infer .default Place.cellsLive (.ref Place.strayCell 4 .mutable) ≠
      .error (.unknown .type) ∧
    Place.strayCell.infer .default Place.cellsLive ≠ .error (.unknown .type) ∧
    (Expr.place Place.strayCell).Measures .default Place.cellsLive Place.cell ∧
    Place.cell.Known := by
  obtain ⟨hprogram, hexpr⟩ := unknown_fault_free .default
  have hcheck : ∀ name place, Place.cellsLive.get? name = some place →
      place.ty.check .default = .ok () := Table.forall_get?_iff.2 (by decide)
  have hmeasures : (Expr.place Place.strayCell).Measures .default Place.cellsLive Place.cell :=
    ⟨_, rfl, rfl⟩
  obtain ⟨hvalue, hplace, hknown⟩ := hexpr Place.cellsLive hcheck
  exact ⟨Program.astray_known, hprogram _ Program.astray_known, hcheck, rfl, hvalue _, hplace _,
    hmeasures, hknown _ _ hmeasures⟩

end PlaceIR

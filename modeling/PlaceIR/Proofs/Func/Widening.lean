import PlaceIR.Proofs.Expr.Widening
import PlaceIR.Proofs.Func.Removal

/-! Functions without pointers on a larger target. All live locals of a walk are declared
ones, so a visit that succeeds on a smaller target does the same on a larger one, and so does
the whole search. -/

namespace PlaceIR

variable {t u : Target} {locals : Table PlaceType} {live after : Live}

/-! ### One block -/

theorem Stmt.check_widen (h : t.ptrSize ≤ u.ptrSize) (hlive : live.PointerFree) {s : Stmt}
    (hs : ∀ e ∈ s.exprs, e.AddressFree) (hcheck : s.check t locals live = .ok after) :
    s.check u locals live = .ok after := by
  cases s with
  | assign d v =>
    obtain ⟨place, hd, hv, rfl⟩ := check_assign_eq_ok.1 hcheck
    have hd' := d.infer_widen h hlive (hs _ (.head _)) place hd
    have hv' := v.infer_widen h hlive (hs _ (.tail _ (.head _))) place.ty hv
    exact check_assign_eq_ok.2 ⟨place, hd', hv', rfl⟩
  | finalize p =>
    obtain ⟨place, hp, rfl⟩ := check_finalize_eq_ok.1 hcheck
    exact check_finalize_eq_ok.2 ⟨place, p.infer_widen h hlive (hs _ (.head _)) place hp, rfl⟩
  | storageLive => exact check_storageLive_eq_ok.2 (check_storageLive_eq_ok.1 hcheck)
  | storageDead => exact check_storageDead_eq_ok.2 (check_storageDead_eq_ok.1 hcheck)
  | unknown => cases hcheck

theorem Stmt.thread_widen (h : t.ptrSize ≤ u.ptrSize) (hlocals : locals.PointerFree)
    {ss : List Stmt} (hss : ∀ s ∈ ss, ∀ e ∈ s.exprs, e.AddressFree) (hlive : live.Sub locals)
    (hthread : thread t locals ss live = .ok after) : thread u locals ss live = .ok after := by
  induction ss generalizing live with
  | nil => exact hthread
  | cons s ss ih =>
    obtain ⟨hs, hrest⟩ := List.forall_mem_cons.1 hss
    obtain ⟨mid, hmid, hafter⟩ := thread_cons_eq_ok.1 hthread
    have hmid' := check_widen h (hlocals.of_sub hlive) hs hmid
    exact thread_cons_eq_ok.2 ⟨mid, hmid', ih hrest (check_sub hmid hlive) hafter⟩

theorem Terminator.successors_widen (h : t.ptrSize ≤ u.ptrSize) (hlive : live.PointerFree)
    {term : Terminator} (hterm : ∀ e ∈ term.exprs, e.AddressFree) {next : List String}
    (hnext : term.successors t live = .ok next) : term.successors u live = .ok next := by
  cases term with
  | goto | ret => exact hnext
  | branch condition =>
    obtain ⟨hc, hblocks⟩ := successors_branch_eq_ok.1 hnext
    have hc' := condition.infer_widen h hlive (hterm _ (.head _)) .bool hc
    exact successors_branch_eq_ok.2 ⟨hc', hblocks⟩
  | call _ arguments result =>
    obtain ⟨hargs, ⟨place, hresult⟩, hblocks⟩ := successors_call_eq_ok.1 hnext
    refine successors_call_eq_ok.2 ⟨fun v hv => ?_, ⟨place, ?_⟩, hblocks⟩
    · obtain ⟨ty, hty⟩ := hargs v hv
      have hfree := hterm (.value v) (List.mem_append_left _ (List.mem_map_of_mem hv))
      exact ⟨ty, v.infer_widen h hlive hfree ty hty⟩
    · have hfree := hterm (.place result) (List.mem_append_right _ (.head _))
      exact result.infer_widen h hlive hfree place hresult
  | unknown => cases hnext

namespace Func

variable {f : Func} {a : Arrival} {s s' : Search} {entry : Table Live}

def AddressFree (f : Func) : Prop := ∀ name block, f.blocks.get? name = some block →
  (∀ s ∈ block.statements, ∀ e ∈ s.exprs, e.AddressFree) ∧
    ∀ e ∈ block.terminator.exprs, e.AddressFree

/-! ### The search -/

section Larger

variable (h : t.ptrSize ≤ u.ptrSize) (hlocals : f.locals.PointerFree) (hf : f.AddressFree)
include h hlocals hf

theorem visit_widen (ha : a.live.Sub f.locals) (hv : (f.visit t a s).result = .ok s') :
    (f.visit u a s).result = .ok s' := by
  obtain ⟨block, hb, after, hthread, next, hnext, harrive⟩ := visit_eq_ok.1 hv
  obtain ⟨hstatements, hterm⟩ := hf a.block block hb
  have hafter : after.Sub f.locals := Stmt.thread_sub hthread ha
  have hthread' := Stmt.thread_widen h hlocals hstatements ha hthread
  have hnext' := Terminator.successors_widen h (hlocals.of_sub hafter) hterm hnext
  exact visit_eq_ok.2 ⟨block, hb, after, hthread', next, hnext', harrive⟩

/-- A search that comes to its end on the smaller target goes the same way on the larger. -/
theorem explore_widen (hx : Explored t f s) (he : (f.explore t s).result = .ok entry) :
    (f.explore u s).result = .ok entry := by
  refine explore_ok_induction
    (motive := fun s => Explored t f s → (f.explore u s).result = .ok entry) ?_ ?_ he hx
  · intro _
    rw [explore_nil]
    rfl
  · intro e a rest s hv _ ih hx
    obtain ⟨path, hw⟩ := hx.walk a.block a.live (hx.pending a (.head _))
    rw [explore_cons, Report.result_bind_eq_ok]
    exact ⟨s, visit_widen h hlocals hf hw.sub_locals hv, ih (hx.visit hv)⟩

theorem check_widen (hcheck : (f.check t).result = .ok entry) :
    (f.check u).result = .ok entry := by
  rw [check_eq_checkBy, checkBy_eq_ok, exploreBy_firstCome] at hcheck ⊢
  obtain ⟨hchecked, hnodup, hdecl, hexplore, hreached⟩ := hcheck
  refine ⟨fun name place hplace => ?_, hnodup, hdecl, ?_, hreached⟩
  · exact PlaceType.check_widen h (hlocals name place hplace) (hchecked name place hplace)
  · exact explore_widen h hlocals hf .begin hexplore

end Larger

end Func

/-- What has no pointers stays accepted on a target with larger pointers. A well-formed type
in which no pointer occurs is well-formed there too, with the same size and the same
alignment; and a function that declares no pointers and takes no addresses is accepted there
too, with the same locals live on entry to each of its blocks. -/
theorem widening_accepts {t u : Target} (h : t.ptrSize ≤ u.ptrSize) :
    (∀ ty : Ty, ty.PointerFree → ty.check t = .ok () → ty.check u = .ok () ∧
      ∃ n a, ty.size t = .ok n ∧ ty.size u = .ok n ∧ ty.align t = .ok a ∧ ty.align u = .ok a) ∧
    ∀ f : Func, f.locals.PointerFree → f.AddressFree → ∀ entry,
      (f.check t).result = .ok entry → (f.check u).result = .ok entry := by
  constructor
  · intro ty hty hcheck
    obtain ⟨n, hn, _⟩ := Ty.exists_size_of_check hcheck
    obtain ⟨a, ha, _⟩ := Ty.exists_align_of_check hcheck
    exact ⟨Ty.check_widen h hty hcheck, n, a, hn, hty.size_eq t u ▸ hn, ha, hty.align_eq t u ▸ ha⟩
  · exact fun f hlocals hf entry => Func.check_widen h hlocals hf

/-! ### A table on the smallest target -/

def Target.tiny : Target := ⟨1, 0, rfl⟩

/-- Numbers with a flag each, 120 bytes in all. -/
def Ty.ledger : Ty := .array (.tuple [(0, .u32), (4, .bool)] 8 4) 15

def Place.lastNumber : Place := .field (.index (.slot "ledger") (.const (.int 14) .u8)) 0

/-- Wait until the flag is set, with a local of its own in each round, and hand back the last
number. -/
def Func.reading : Func where
  locals := .ofList [("ledger", ⟨.ledger, 4⟩), ("ready", ⟨.bool, 1⟩), ("round", ⟨.u8, 1⟩),
    ("out", ⟨.u32, 4⟩)]
  args := ["ledger", "ready"]
  ret := "out"
  blocks := .ofList [
    ("wait", ⟨[.storageLive "round", .assignConst "round" (.int 3) .u8, .storageDead "round"],
      .branch (.ofSlot "ready") "read" "wait"⟩),
    ("read", ⟨[.assign (.slot "out") (.load .lastNumber false)], .ret⟩)]
  start := "wait"

theorem Ty.ledger_pointerFree : ledger.PointerFree := by
  have hcell : Ty.PointerFree (.tuple [(0, .u32), (4, .bool)] 8 4) :=
    pointerFree_of_parts id (List.forall_mem_cons.2
      ⟨pointerFree_int _, List.forall_mem_singleton.2 pointerFree_bool⟩)
  exact pointerFree_of_parts id (List.forall_mem_singleton.2 hcell)

namespace Func

theorem reading_pointerFree : reading.locals.PointerFree := by
  refine Table.forall_get?_iff.2 (List.forall_mem_cons.2 ⟨Ty.ledger_pointerFree, ?_⟩)
  exact List.forall_mem_cons.2 ⟨Ty.pointerFree_bool, List.forall_mem_cons.2
    ⟨Ty.pointerFree_int _, List.forall_mem_singleton.2 (Ty.pointerFree_int _)⟩⟩

theorem reading_addressFree : reading.AddressFree := by
  have hconst (c : Const) (ty : Ty) : (Expr.value (.const c ty)).AddressFree :=
    Expr.addressFree_of_parts id nofun
  have hready : (Expr.value (.ofSlot "ready")).AddressFree :=
    Expr.addressFree_of_parts id (List.forall_mem_singleton.2 (Expr.addressFree_slot _))
  have hrow : (Expr.place (.index (.slot "ledger") (.const (.int 14) .u8))).AddressFree :=
    Expr.addressFree_of_parts id (List.forall_mem_cons.2
      ⟨Expr.addressFree_slot _, List.forall_mem_singleton.2 (hconst _ _)⟩)
  have hnumber : (Expr.place .lastNumber).AddressFree :=
    Expr.addressFree_of_parts id (List.forall_mem_singleton.2 hrow)
  have hload : (Expr.value (.load .lastNumber false)).AddressFree :=
    Expr.addressFree_of_parts id (List.forall_mem_singleton.2 hnumber)
  refine Table.forall_get?_iff.2 (List.forall_mem_cons.2
    ⟨⟨?wait, List.forall_mem_singleton.2 hready⟩, List.forall_mem_singleton.2 ⟨?read, nofun⟩⟩)
  case wait =>
    refine List.forall_mem_cons.2 ⟨nofun, List.forall_mem_cons.2 ⟨?_, nofun⟩⟩
    exact List.forall_mem_cons.2 ⟨Expr.addressFree_slot _, List.forall_mem_singleton.2 (hconst _ _)⟩
  case read =>
    refine List.forall_mem_singleton.2 (List.forall_mem_cons.2 ⟨Expr.addressFree_slot _, ?_⟩)
    exact List.forall_mem_singleton.2 hload

theorem reading_check : (reading.check .tiny).result =
    .ok (((∅ : Table Live).insert "wait" reading.entryLive).insert "read" reading.entryLive) := by
  have hlive : reading.initialLive.result = .ok reading.entryLive := rfl
  refine check_of_explore rfl hlive ?_ rfl
  refine (explore_of_visit rfl).trans ((explore_of_visit rfl).trans ?_)
  exact congrArg Report.result (explore_nil ..)

end Func

/-- The ledger and the function that reads it are accepted with pointers of one byte, and so
with pointers of eight. -/
theorem reading_widening : Target.tiny.ptrSize ≤ Target.default.ptrSize ∧
    Ty.ledger.check .tiny = .ok () ∧ Ty.ledger.check .default = .ok () ∧
    Ty.ledger.size .default = .ok 120 ∧
    ∃ entry, (Func.reading.check .tiny).result = .ok entry ∧
      (Func.reading.check .default).result = .ok entry := by
  have hle : Target.tiny.ptrSize ≤ Target.default.ptrSize := by decide
  obtain ⟨htypes, hfuncs⟩ := widening_accepts hle
  have hledger : Ty.ledger.check .tiny = .ok () := by decide
  obtain ⟨hwide, n, _, hn, hsize, _⟩ := htypes _ Ty.ledger_pointerFree hledger
  cases hn
  exact ⟨hle, hledger, hwide, hsize, _, Func.reading_check,
    hfuncs _ Func.reading_pointerFree Func.reading_addressFree _ Func.reading_check⟩

end PlaceIR

import PlaceIR.Proofs.Relabel

/-! Checking under other labels. Typing looks up locals under their names and looks at no flag
and no operator, so every expression keeps its type; statements, blocks and the search take
the same steps under the new names, and the check of a relabelled function is the relabelled
check. -/

namespace PlaceIR

variable {t : Target} {r : Relabelling} {locals : Table PlaceType} {live : Live}

/-! ### Expressions -/

theorem UnOp.result_relabel (op : UnOp) (a : Ty) : (op.relabel r).result a = op.result a := by
  cases op <;> rfl

theorem BinOp.result_relabel (op : BinOp) (a b : Ty) :
    (op.relabel r).result a b = op.result a b := by
  cases op <;> rfl

mutual

theorem Value.infer_relabel : ∀ v : Value, (v.relabel r).infer t (live.rename r.slot) = v.infer t live
  | .const .. | .unknown => rfl
  | .load source _ => by rw [Value.relabel, Value.infer, Value.infer, source.infer_relabel]
  | .addrOf target _ => by rw [Value.relabel, Value.infer, Value.infer, target.infer_relabel]
  | .ref target _ _ => by rw [Value.relabel, Value.infer, Value.infer, target.infer_relabel]
  | .unOp op operand => by
    simp only [Value.relabel, Value.infer, operand.infer_relabel, op.result_relabel]
  | .binOp op left right => by
    simp only [Value.relabel, Value.infer, left.infer_relabel, right.infer_relabel, op.result_relabel]
termination_by structural v => v

theorem Place.infer_relabel : ∀ p : Place, (p.relabel r).infer t (live.rename r.slot) = p.infer t live
  | .slot name => by rw [Place.relabel, Place.infer, Place.infer, Table.get?_rename]
  | .deref operand _ => by rw [Place.relabel, Place.infer, Place.infer, operand.infer_relabel]
  | .field root _ => by rw [Place.relabel, Place.infer, Place.infer, root.infer_relabel]
  | .index root index => by
    rw [Place.relabel, Place.infer, Place.infer, root.infer_relabel, index.infer_relabel]
  | .unknown => rfl
termination_by structural p => p

end

/-! ### Statements and terminators -/

theorem Stmt.kind_relabel (s : Stmt) : (s.relabel r).kind = s.kind := by
  cases s <;> rfl

theorem Stmt.check_relabel (s : Stmt) : (s.relabel r).check t (locals.rename r.slot)
    (live.rename r.slot) = (s.check t locals live).map (Table.rename r.slot) := by
  cases s with
  | assign destination source =>
    rw [relabel, check, check, destination.infer_relabel, source.infer_relabel]
    exact bind_same_eq_map fun _ => bind_same_eq_map fun _ => bind_same_eq_map fun _ => rfl
  | finalize place =>
    rw [relabel, check, check, place.infer_relabel]
    exact bind_same_eq_map fun _ => rfl
  | storageLive name =>
    simp only [relabel, check, Table.get?_rename, Table.mem_map]
    refine bind_same_eq_map fun place => bind_same_eq_map fun _ => ?_
    exact congrArg Except.ok Table.rename_insert.symm
  | storageDead name =>
    simp only [relabel, check, Table.mem_map]
    exact bind_same_eq_map fun _ => congrArg Except.ok Table.rename_erase.symm
  | unknown => rfl

theorem Terminator.kind_relabel (term : Terminator) : (term.relabel r).kind = term.kind := by
  cases term <;> rfl

theorem Terminator.successors_relabel (term : Terminator) :
    (term.relabel r).successors t (live.rename r.slot) =
      (term.successors t live).map (List.map r.block) := by
  cases term with
  | goto | ret | unknown => rfl
  | branch condition =>
    rw [relabel, successors, successors, condition.infer_relabel]
    exact bind_same_eq_map fun _ => bind_same_eq_map fun _ => rfl
  | call callee arguments result next =>
    have harguments : (arguments.map (·.relabel r)).forM
        (fun v => discard (v.infer t (live.rename r.slot))) =
          arguments.forM fun v => discard (v.infer t live) := by
      refine List.forM_map.trans ?_
      simp only [Value.infer_relabel]
      rfl
    rw [relabel, successors, successors, harguments, result.infer_relabel]
    exact bind_same_eq_map fun _ => bind_same_eq_map fun _ => rfl

/-! ### Searches -/

def Arrival.relabel (r : Relabelling) (a : Arrival) : Arrival :=
  ⟨r.block a.block, a.live.rename r.slot⟩

def Search.relabel (r : Relabelling) (s : Search) : Search :=
  ⟨s.entry.map r.block (Table.rename r.slot), s.pending.map (·.relabel r)⟩

theorem Search.arrive_relabel (source block : String) (s : Search) :
    (s.relabel r).arrive (r.block source) (live.rename r.slot) (r.block block) =
      (s.arrive source live block).map (relabel r) (Message.relabel r) := by
  have hrecorded : (s.relabel r).entry.get? (r.block block) =
      (s.entry.get? block).map (Table.rename r.slot) := Table.get?_map
  unfold arrive
  rw [hrecorded]
  cases s.entry.get? block with
  -- a first arrival is recorded at the end of the table, whatever the block is called
  | none =>
    rw [← Report.pure_eq_map]
    refine congrArg pure ?_
    simp only [relabel, Table.map_insert, List.map_append]
    rfl
  | some recorded => exact Report.require_bind_eq_map Table.rename_equiv_iff rfl rfl

namespace Func

variable {f : Func}

theorem through_relabel (name : String) (statements : List Stmt) (live : Live) :
    (f.relabel r).through t (r.block name) (statements.map (·.relabel r)) (live.rename r.slot) =
      (f.through t name statements live).map (Table.rename r.slot) (Message.relabel r) := by
  refine Report.foldlM_eq_map (fun s live => ?_) statements live
  rw [s.kind_relabel]
  exact Report.blame_eq_map (congrArg Report.silent s.check_relabel) rfl

theorem visit_relabel (a : Arrival) (s : Search) : (f.relabel r).visit t (a.relabel r) (s.relabel r) =
    (f.visit t a s).map (Search.relabel r) (Message.relabel r) := by
  rw [visit, visit]
  refine Report.blame_bind_eq_map (orIllFormed_get?_map (s := f.blocks)) rfl fun block _ => ?_
  refine Report.bind_eq_map (through_relabel a.block block.statements a.live) fun after _ => ?_
  rw [Block.relabel, block.terminator.kind_relabel]
  refine Report.blame_bind_eq_map block.terminator.successors_relabel rfl fun next _ => ?_
  exact Report.foldlM_eq_map (fun b s => s.arrive_relabel a.block b) next s

theorem explore_relabel (s : Search) : (f.relabel r).explore t (s.relabel r) =
    (f.explore t s).map (Table.map r.block (Table.rename r.slot)) (Message.relabel r) := by
  induction s using visit_induction t f with
  | done entry =>
    change (f.relabel r).explore t ⟨entry.map r.block (Table.rename r.slot), []⟩ = _
    rw [explore_nil, explore_nil]
    rfl
  | visit entry a rest ih =>
    change (f.relabel r).explore t
      ⟨entry.map r.block (Table.rename r.slot), a.relabel r :: rest.map (·.relabel r)⟩ = _
    rw [explore_cons, explore_cons]
    exact Report.bind_eq_map (visit_relabel a ⟨entry, rest⟩) ih

/-! ### The whole check -/

theorem checkLocals_relabel : (f.relabel r).checkLocals t =
    (f.checkLocals t).map id (Message.relabel r) := by
  have hlocal (e : String × PlaceType) :
      (Report.silent (e.2.check t)).blame (.illFormedLocal (r.slot e.1)) =
        ((Report.silent (e.2.check t)).blame (.illFormedLocal e.1)).map id (Message.relabel r) := by
    refine Report.blame_eq_map ?_ rfl
    rw [Report.map, Report.result_silent, Except.map_id]
    rfl
  exact Report.forM_eq_map hlocal f.locals.entries

theorem bindOnEntry_relabel (name : String) (live : Live) :
    (f.relabel r).bindOnEntry (live.rename r.slot) (r.slot name) =
      (f.bindOnEntry live name).map (Table.rename r.slot) (Message.relabel r) := by
  rw [bindOnEntry, bindOnEntry]
  refine Report.blame_bind_eq_map (orIllFormed_get?_map (s := f.locals)) rfl fun place _ => ?_
  refine Report.require_bind_eq_map (not_congr Table.mem_map) rfl ?_
  rw [← Report.pure_eq_map, Table.rename_insert, id]

theorem initialLive_relabel : (f.relabel r).initialLive =
    f.initialLive.map (Table.rename r.slot) (Message.relabel r) := by
  have hnames : (f.relabel r).args ++ [(f.relabel r).ret] = (f.args ++ [f.ret]).map r.slot := by
    rw [List.map_append]
    rfl
  rw [initialLive, initialLive, hnames]
  exact Report.foldlM_eq_map (fun name live => bindOnEntry_relabel name live) _ ∅

/-- The check of a function under other labels is the check of the function, relabelled. -/
theorem check_relabel : (f.relabel r).check t = (f.check t).relabel r := by
  rw [check, check]
  refine Report.bind_eq_map checkLocals_relabel fun _ _ => ?_
  refine Report.bind_eq_map initialLive_relabel fun live _ => ?_
  refine Report.bind_eq_map (explore_relabel (Search.begin f.start live)) fun entry _ => ?_
  have hunreached : (f.relabel r).blocks.keys.filter (· ∉ entry.map r.block (Table.rename r.slot)) =
      (f.blocks.keys.filter (· ∉ entry)).map r.block := by
    rw [relabel, Table.keys_map, List.filter_map]
    refine congrArg _ (List.filter_congr fun name _ => ?_)
    simp only [Function.comp_apply, Table.mem_map]
  simp only [hunreached]
  exact Report.require_bind_eq_map List.map_eq_nil_iff rfl rfl

end Func

/-- Functions keep their names, so that a relabelled program is checked as the program is, but
for the names in the messages. -/
theorem Program.check_relabel (p : Program) :
    (p.relabel r).check t = (p.check t).map id (Message.relabel r) := by
  have hfunction (e : String × Func) :
      (discard ((e.2.relabel r).check t)).blame (.illFormedFunction e.1) =
        ((discard (e.2.check t)).blame (.illFormedFunction e.1)).map id (Message.relabel r) :=
    Report.blame_eq_map (Report.bind_eq_map Func.check_relabel fun _ _ => rfl) rfl
  rw [check, check]
  refine Report.require_bind_eq_map (Table.mem_map (f := .refl String)) rfl ?_
  exact Report.forM_eq_map hfunction p.functions.entries

end PlaceIR

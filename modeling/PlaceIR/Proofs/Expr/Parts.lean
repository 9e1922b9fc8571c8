import PlaceIR.Proofs.Ty.Parts

/-! Expressions of both families as one tree, and what an answer of the typing rules says
of the expressions inside: each of them is typed too. The answer depends on the live
locals only through the names that occur in the expression. -/

namespace PlaceIR

/-- An expression of either family. -/
inductive Expr where
  | value (v : Value)
  | place (p : Place)

namespace Expr

def parts : Expr → List Expr
  | .value (.load source _) => [.place source]
  | .value (.addrOf target _) => [.place target]
  | .value (.ref target _ _) => [.place target]
  | .value (.unOp _ operand) => [.value operand]
  | .value (.binOp _ left right) => [.value left, .value right]
  | .place (.deref operand _) => [.value operand]
  | .place (.field root _) => [.place root]
  | .place (.index root index) => [.place root, .value index]
  | _ => []

section Induction

variable {motive : Expr → Prop}

mutual

theorem value_induction (step : ∀ e, (∀ p ∈ e.parts, motive p) → motive e) :
    ∀ v, motive (.value v)
  | .const .. | .unknown => step _ fun _ h => nomatch h
  | .load source _ => step _ (List.forall_mem_singleton.2 (place_induction step source))
  | .addrOf target _ => step _ (List.forall_mem_singleton.2 (place_induction step target))
  | .ref target _ _ => step _ (List.forall_mem_singleton.2 (place_induction step target))
  | .unOp _ operand => step _ (List.forall_mem_singleton.2 (value_induction step operand))
  | .binOp _ left right => step _ (List.forall_mem_cons.2 ⟨value_induction step left,
      List.forall_mem_singleton.2 (value_induction step right)⟩)
termination_by structural v => v

theorem place_induction (step : ∀ e, (∀ p ∈ e.parts, motive p) → motive e) :
    ∀ p, motive (.place p)
  | .slot _ | .unknown => step _ fun _ h => nomatch h
  | .deref operand _ => step _ (List.forall_mem_singleton.2 (value_induction step operand))
  | .field root _ => step _ (List.forall_mem_singleton.2 (place_induction step root))
  | .index root index => step _ (List.forall_mem_cons.2 ⟨place_induction step root,
      List.forall_mem_singleton.2 (value_induction step index)⟩)
termination_by structural p => p

end

/-- Induction on expressions, with one hypothesis for each expression directly inside. -/
theorem induction (step : ∀ e, (∀ p ∈ e.parts, motive p) → motive e) : ∀ e, motive e
  | .value v => value_induction step v
  | .place p => place_induction step p

end Induction

def infer (t : Target) (live : Live) : Expr → Checked Ty
  | .value v => v.infer t live
  | .place p => return (← p.infer t live).ty

end Expr

section Rules

variable {t : Target} {live : Live}

/-! ### The typing rules, form by form -/

theorem UnOp.result_eq_ok {op : UnOp} {a u : Ty} : op.result a = .ok u ↔
    ∃ k result, op = .int k result ∧ a.isInt = true ∧ .int result = u := by
  cases op <;> simp [UnOp.result, seq_eq_ok, and_assoc]

theorem BinOp.result_eq_ok {op : BinOp} {a b u : Ty} : op.result a b = .ok u ↔
    (∃ k result, op = .int k result ∧ (a.isInt = true ∧ b.isInt = true) ∧ .int result = u) ∨
      ∃ inbounds, op = .ptrOffset inbounds ∧ (a.isPointer = true ∧ b.isInt = true) ∧ a = u := by
  cases op <;> simp [BinOp.result, seq_eq_ok, and_assoc]

theorem Value.infer_const_eq_ok {c : Const} {ty u : Ty} :
    (Value.const c ty).infer t live = .ok u ↔ c.fits t ty = true ∧ ty = u := by
  simp [Value.infer, bind_eq_ok]

theorem Value.infer_load_eq_ok {source : Place} {d : Bool} {u : Ty} :
    (Value.load source d).infer t live = .ok u ↔
      ∃ place, source.infer t live = .ok place ∧ place.ty = u := by
  simp [Value.infer, bind_eq_ok]

theorem Value.infer_addrOf_eq_ok {target : Place} {m : Mutability} {u : Ty} :
    (Value.addrOf target m).infer t live = .ok u ↔
      ∃ place, target.infer t live = .ok place ∧ .rawPtr m = u := by
  simp [Value.infer, bind_eq_ok]

theorem Value.infer_ref_eq_ok {target : Place} {align : Int} {m : Mutability} {u : Ty} :
    (Value.ref target align m).infer t live = .ok u ↔ ∃ place, target.infer t live = .ok place ∧
      ∃ n, place.ty.size t = .ok n ∧ .ref ⟨n, align⟩ m = u := by
  simp [Value.infer, bind_eq_ok]

theorem Value.infer_unOp_eq_ok {op : UnOp} {operand : Value} {u : Ty} :
    (Value.unOp op operand).infer t live = .ok u ↔
      ∃ ty, operand.infer t live = .ok ty ∧ op.result ty = .ok u := by
  simp [Value.infer, bind_eq_ok]

theorem Value.infer_binOp_eq_ok {op : BinOp} {left right : Value} {u : Ty} :
    (Value.binOp op left right).infer t live = .ok u ↔ ∃ a, left.infer t live = .ok a ∧
      ∃ b, right.infer t live = .ok b ∧ op.result a b = .ok u := by
  simp [Value.infer, bind_eq_ok]

theorem Place.infer_slot_eq_ok {name : String} {place : PlaceType} :
    (Place.slot name).infer t live = .ok place ↔ live.get? name = some place := by
  simp [Place.infer]

theorem Place.infer_deref_eq_ok {operand : Value} {align : Int} {place : PlaceType} :
    (Place.deref operand align).infer t live = .ok place ↔
      ∃ ty, operand.infer t live = .ok ty ∧ ⟨ty, align⟩ = place := by
  simp [Place.infer, bind_eq_ok]

theorem Place.infer_field_eq_ok {root : Place} {position : Int} {place : PlaceType} :
    (Place.field root position).infer t live = .ok place ↔ ∃ r, root.infer t live = .ok r ∧
      ∃ f, r.ty.field? position = some f ∧ ⟨f.2, t.restrictAlign r.align f.1⟩ = place := by
  simp [Place.infer, bind_eq_ok]

theorem Place.infer_index_eq_ok {root : Place} {index : Value} {place : PlaceType} :
    (Place.index root index).infer t live = .ok place ↔ ∃ r, root.infer t live = .ok r ∧
      ∃ elem, r.ty.elem? = some elem ∧ ∃ i, index.infer t live = .ok i ∧ i.isInt = true ∧
        ∃ n, elem.size t = .ok n ∧ ⟨elem, t.restrictAlign r.align n⟩ = place := by
  simp [Place.infer, bind_eq_ok]

theorem Expr.infer_value (v : Value) : (Expr.value v).infer t live = v.infer t live := rfl

theorem Expr.infer_place_eq_ok {p : Place} {u : Ty} : (Expr.place p).infer t live = .ok u ↔
    ∃ place, p.infer t live = .ok place ∧ place.ty = u := by
  simp [Expr.infer, bind_eq_ok]

end Rules

namespace Expr

variable {t : Target} {live live' : Live}

/-- Each expression directly inside a typed one is typed. -/
theorem exists_infer_of_part {e p : Expr} (h : ∃ ty, e.infer t live = .ok ty)
    (hp : p ∈ e.parts) : ∃ ty, p.infer t live = .ok ty := by
  have ofPlace {q : Place} {place : PlaceType} (hq : q.infer t live = .ok place) :
      ∃ ty, (Expr.place q).infer t live = .ok ty := ⟨_, infer_place_eq_ok.2 ⟨place, hq, rfl⟩⟩
  obtain ⟨ty, h⟩ := h
  cases e with
  | value v =>
    rw [infer_value] at h
    cases v with
    | const | unknown => exact absurd hp List.not_mem_nil
    | load =>
      obtain ⟨_, hs, _⟩ := Value.infer_load_eq_ok.1 h
      exact List.mem_singleton.1 hp ▸ ofPlace hs
    | addrOf =>
      obtain ⟨_, ht, _⟩ := Value.infer_addrOf_eq_ok.1 h
      exact List.mem_singleton.1 hp ▸ ofPlace ht
    | ref =>
      obtain ⟨_, ht, _⟩ := Value.infer_ref_eq_ok.1 h
      exact List.mem_singleton.1 hp ▸ ofPlace ht
    | unOp =>
      obtain ⟨a, ha, _⟩ := Value.infer_unOp_eq_ok.1 h
      exact List.mem_singleton.1 hp ▸ ⟨a, ha⟩
    | binOp =>
      obtain ⟨a, ha, b, hb, _⟩ := Value.infer_binOp_eq_ok.1 h
      rcases List.mem_cons.1 hp with rfl | hp
      · exact ⟨a, ha⟩
      · exact List.mem_singleton.1 hp ▸ ⟨b, hb⟩
  | place q =>
    obtain ⟨place, h, _⟩ := infer_place_eq_ok.1 h
    cases q with
    | slot | unknown => exact absurd hp List.not_mem_nil
    | deref =>
      obtain ⟨a, ha, _⟩ := Place.infer_deref_eq_ok.1 h
      exact List.mem_singleton.1 hp ▸ ⟨a, ha⟩
    | field =>
      obtain ⟨_, hr, _⟩ := Place.infer_field_eq_ok.1 h
      exact List.mem_singleton.1 hp ▸ ofPlace hr
    | index =>
      obtain ⟨_, hr, _, _, i, hi, _⟩ := Place.infer_index_eq_ok.1 h
      rcases List.mem_cons.1 hp with rfl | hp
      · exact ofPlace hr
      · exact List.mem_singleton.1 hp ▸ ⟨i, hi⟩

/-- All expressions inside a typed one are typed. -/
theorem exists_infer_of_within {e p : Expr} (h : ∃ ty, e.infer t live = .ok ty)
    (hp : Within parts p e) : ∃ ty, p.infer t live = .ok ty :=
  hp.closed (P := fun e => ∃ ty, e.infer t live = .ok ty)
    (fun _ hb _ hq => exists_infer_of_part hb hq) h

end Expr

/-! ### Dependence on the live locals -/

section Congruence

variable {t : Target} {live live' : Live}

mutual

/-- The type of a value depends only on the bindings of the names in it. -/
theorem Value.infer_congr : ∀ v : Value, (∀ name,
    Within Expr.parts (.place (.slot name)) (.value v) → live.get? name = live'.get? name) →
    v.infer t live = v.infer t live'
  | .const .., _ => rfl
  | .load source _, h => by
    rw [Value.infer, Value.infer, source.infer_congr fun name hn => h name (.inside (.head _) hn)]
  | .addrOf target _, h => by
    rw [Value.infer, Value.infer, target.infer_congr fun name hn => h name (.inside (.head _) hn)]
  | .ref target _ _, h => by
    rw [Value.infer, Value.infer, target.infer_congr fun name hn => h name (.inside (.head _) hn)]
  | .unOp _ operand, h => by
    rw [Value.infer, Value.infer, operand.infer_congr fun name hn => h name (.inside (.head _) hn)]
  | .binOp _ left right, h => by
    rw [Value.infer, Value.infer, left.infer_congr fun name hn => h name (.inside (.head _) hn),
      right.infer_congr fun name hn => h name (.inside (.tail _ (.head _)) hn)]
  | .unknown, _ => rfl
termination_by structural v => v

/-- The place type of a place depends only on the bindings of the names in it. -/
theorem Place.infer_congr : ∀ p : Place, (∀ name,
    Within Expr.parts (.place (.slot name)) (.place p) → live.get? name = live'.get? name) →
    p.infer t live = p.infer t live'
  | .slot name, h => by rw [Place.infer, Place.infer, h name .self]
  | .deref operand _, h => by
    rw [Place.infer, Place.infer, operand.infer_congr fun name hn => h name (.inside (.head _) hn)]
  | .field root _, h => by
    rw [Place.infer, Place.infer, root.infer_congr fun name hn => h name (.inside (.head _) hn)]
  | .index root index, h => by
    rw [Place.infer, Place.infer, root.infer_congr fun name hn => h name (.inside (.head _) hn),
      index.infer_congr fun name hn => h name (.inside (.tail _ (.head _)) hn)]
  | .unknown, _ => rfl
termination_by structural p => p

end

end Congruence

end PlaceIR

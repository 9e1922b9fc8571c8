import PlaceIR.Proofs.Expr.Parts

/-! Where types and faults come from. A computed type is one that some expression inside
brings in by itself, or stands inside such a type. A fault is met first by one expression:
it is ill-formed or of unknown kind, or it takes the size of a type that has none. What the
typing rules hand on beyond that is handed on unchanged. -/

namespace PlaceIR.Expr

variable {t : Target} {live : Live} {fault : Fault}

/-! ### Types -/

/-- The type that an expression brings in by itself, and does not take over from the
expressions inside: of a live local, a constant, an integer operator, or a pointer to a place. -/
def Brings (t : Target) (live : Live) : Expr → Ty → Prop
  | .place (.slot name), ty => ∃ place, live.get? name = some place ∧ place.ty = ty
  | .value (.const c u), ty => c.fits t u = true ∧ u = ty
  | .value (.unOp (.int _ result) _), ty => .int result = ty
  | .value (.binOp (.int _ result) _ _), ty => .int result = ty
  | .value (.addrOf _ m), ty => .rawPtr m = ty
  | .value (.ref target align m), ty => ∃ place, target.infer t live = .ok place ∧
      ∃ n, place.ty.size t = .ok n ∧ .ref ⟨n, align⟩ m = ty
  | _, _ => False

/-- Every computed type stands within one that the expression or an expression inside brings in. -/
theorem exists_brings_of_infer (e : Expr) : ∀ ty, e.infer t live = .ok ty →
    ∃ s u, Within parts s e ∧ s.Brings t live u ∧ Within Ty.parts ty u := by
  induction e using Expr.induction with
  | step e ih =>
  intro ty h
  have brought {u : Ty} (hu : e.Brings t live u) :
      ∃ s u', Within parts s e ∧ s.Brings t live u' ∧ Within Ty.parts u u' :=
    ⟨e, u, .self, hu, .self⟩
  have takenOver {p : Expr} {a u : Ty} (hp : p ∈ e.parts) (ha : p.infer t live = .ok a)
      (hu : Within Ty.parts u a) :
      ∃ s u', Within parts s e ∧ s.Brings t live u' ∧ Within Ty.parts u u' := by
    obtain ⟨s, u', hs, hbrings, hw⟩ := ih p hp a ha
    exact ⟨s, u', .inside hp hs, hbrings, hu.trans hw⟩
  cases e with
  | value v =>
    rw [infer_value] at h
    cases v with
    | const => exact brought (Value.infer_const_eq_ok.1 h)
    | load =>
      obtain ⟨place, hs, rfl⟩ := Value.infer_load_eq_ok.1 h
      exact takenOver (.head _) (infer_place_eq_ok.2 ⟨place, hs, rfl⟩) .self
    | addrOf =>
      obtain ⟨_, _, rfl⟩ := Value.infer_addrOf_eq_ok.1 h
      exact brought rfl
    | ref => exact brought (Value.infer_ref_eq_ok.1 h)
    | unOp =>
      obtain ⟨_, _, hr⟩ := Value.infer_unOp_eq_ok.1 h
      obtain ⟨_, _, rfl, _, rfl⟩ := UnOp.result_eq_ok.1 hr
      exact brought rfl
    | binOp =>
      obtain ⟨a, hl, _, _, hr⟩ := Value.infer_binOp_eq_ok.1 h
      rcases BinOp.result_eq_ok.1 hr with ⟨_, _, rfl, _, rfl⟩ | ⟨_, rfl, _, rfl⟩
      · exact brought rfl
      · exact takenOver (.head _) hl .self
    | unknown => cases h
  | place p =>
    obtain ⟨place, hp, rfl⟩ := infer_place_eq_ok.1 h
    cases p with
    | slot => exact brought ⟨place, Place.infer_slot_eq_ok.1 hp, rfl⟩
    | deref =>
      obtain ⟨u, hu, rfl⟩ := Place.infer_deref_eq_ok.1 hp
      exact takenOver (.head _) hu .self
    | field =>
      obtain ⟨r, hr, f, hf, rfl⟩ := Place.infer_field_eq_ok.1 hp
      have hpart := Ty.mem_parts_of_field? hf
      exact takenOver (.head _) (infer_place_eq_ok.2 ⟨r, hr, rfl⟩) (.inside hpart .self)
    | index =>
      obtain ⟨r, hr, elem, helem, _, _, _, _, _, rfl⟩ := Place.infer_index_eq_ok.1 hp
      have hpart := Ty.mem_parts_of_elem? helem
      exact takenOver (.head _) (infer_place_eq_ok.2 ⟨r, hr, rfl⟩) (.inside hpart .self)
    | unknown => cases hp

/-- What passes from a type to its parts holds of all computed types, if it holds of those
that are brought in. -/
theorem of_infer {P : Ty → Prop} (hparts : ∀ ty, P ty → ∀ p ∈ ty.parts, P p) {e : Expr}
    (hbrings : ∀ s, Within parts s e → ∀ ty, s.Brings t live ty → P ty) {ty : Ty}
    (h : e.infer t live = .ok ty) : P ty := by
  obtain ⟨s, u, hs, hu, hw⟩ := exists_brings_of_infer e ty h
  exact hw.closed hparts (hbrings s hs u hu)

/-! ### Faults -/

/-- The family in which an expression, or the operator that it applies, is of unknown kind. -/
def unknown? : Expr → Option Family
  | .value .unknown => some .value
  | .place .unknown => some .place
  | .value (.unOp .unknown _) => some .unaryOp
  | .value (.binOp .unknown _ _) => some .binaryOp
  | _ => none

/-- No expression is of the family of types. -/
theorem unknown?_ne_type (e : Expr) : e.unknown? ≠ some .type := by
  unfold unknown?
  split <;> exact nofun

/-- The typing of an expression itself takes the size of a type: that of the place of a
reference, or that of the elements of an indexed array. -/
def Measures (t : Target) (live : Live) : Expr → Ty → Prop
  | .value (.ref target _ _), ty => ∃ place, target.infer t live = .ok place ∧ place.ty = ty
  | .place (.index root _), ty => ∃ place, root.infer t live = .ok place ∧ place.ty.elem? = some ty
  | _, _ => False

theorem infer_place_eq_error {p : Place} :
    (Expr.place p).infer t live = .error fault ↔ p.infer t live = .error fault := by
  simp [Expr.infer, bind_eq_error]

/-- How an expression comes to a fault: an expression directly inside has it, or it is
itself ill-formed, of unknown kind, or takes a size that does not exist. -/
inductive Fails (t : Target) (live : Live) (e : Expr) : Fault → Prop
  | part {p : Expr} {fault : Fault} :
      p ∈ e.parts → p.infer t live = .error fault → Fails t live e fault
  | illFormed : Fails t live e .illFormed
  | unknown {family : Family} : e.unknown? = some family → Fails t live e (.unknown family)
  | size {ty : Ty} {fault : Fault} :
      e.Measures t live ty → ty.size t = .error fault → Fails t live e fault

theorem fails_of_require {e : Expr} {p : Prop} [Decidable p] (h : require p = .error fault) :
    e.Fails t live fault := by
  obtain ⟨_, rfl⟩ := require_eq_error.1 h
  exact .illFormed

theorem fails_of_orIllFormed {e : Expr} {α : Type} {o : Option α}
    (h : orIllFormed o = .error fault) : e.Fails t live fault := by
  obtain ⟨_, rfl⟩ := orIllFormed_eq_error.1 h
  exact .illFormed

theorem fails_of_unOp {op : UnOp} {operand : Value} {a : Ty} (h : op.result a = .error fault) :
    (Expr.value (.unOp op operand)).Fails t live fault := by
  cases op with
  | int =>
    rcases bind_eq_error.1 h with h | ⟨_, _, h⟩
    · exact fails_of_require h
    · cases h
  | unknown =>
    cases h
    exact .unknown rfl

theorem fails_of_binOp {op : BinOp} {left right : Value} {a b : Ty}
    (h : op.result a b = .error fault) :
    (Expr.value (.binOp op left right)).Fails t live fault := by
  cases op with
  | int | ptrOffset =>
    rcases bind_eq_error.1 h with h | ⟨_, _, h⟩
    · exact fails_of_require h
    · cases h
  | unknown =>
    cases h
    exact .unknown rfl

theorem fails_of_infer_value {v : Value} (h : v.infer t live = .error fault) :
    (Expr.value v).Fails t live fault := by
  cases v with
  | const =>
    rcases bind_eq_error.1 h with h | ⟨_, _, h⟩
    · exact fails_of_require h
    · cases h
  | load | addrOf =>
    rcases bind_eq_error.1 h with h | ⟨_, _, h⟩
    · exact .part (.head _) (infer_place_eq_error.2 h)
    · cases h
  | ref =>
    rcases bind_eq_error.1 h with h | ⟨place, hp, h⟩
    · exact .part (.head _) (infer_place_eq_error.2 h)
    rcases bind_eq_error.1 h with h | ⟨_, _, h⟩
    · exact .size ⟨place, hp, rfl⟩ h
    · cases h
  | unOp =>
    rcases bind_eq_error.1 h with h | ⟨_, _, h⟩
    · exact .part (.head _) h
    · exact fails_of_unOp h
  | binOp =>
    rcases bind_eq_error.1 h with h | ⟨_, _, h⟩
    · exact .part (.head _) h
    rcases bind_eq_error.1 h with h | ⟨_, _, h⟩
    · exact .part (.tail _ (.head _)) h
    · exact fails_of_binOp h
  | unknown =>
    cases h
    exact .unknown rfl

theorem fails_of_infer_place {p : Place} (h : p.infer t live = .error fault) :
    (Expr.place p).Fails t live fault := by
  cases p with
  | slot => exact fails_of_orIllFormed h
  | deref =>
    rcases bind_eq_error.1 h with h | ⟨_, _, h⟩
    · exact .part (.head _) h
    · cases h
  | field =>
    rcases bind_eq_error.1 h with h | ⟨_, _, h⟩
    · exact .part (.head _) (infer_place_eq_error.2 h)
    rcases bind_eq_error.1 h with h | ⟨_, _, h⟩
    · exact fails_of_orIllFormed h
    · cases h
  | index =>
    rcases bind_eq_error.1 h with h | ⟨root, hr, h⟩
    · exact .part (.head _) (infer_place_eq_error.2 h)
    rcases bind_eq_error.1 h with h | ⟨elem, he, h⟩
    · exact fails_of_orIllFormed h
    rcases bind_eq_error.1 h with h | ⟨_, _, h⟩
    · exact .part (.tail _ (.head _)) h
    rcases bind_eq_error.1 h with h | ⟨_, _, h⟩
    · exact fails_of_require h
    rcases bind_eq_error.1 h with h | ⟨_, _, h⟩
    · exact .size ⟨root, hr, orIllFormed_eq_ok.1 he⟩ h
    · cases h
  | unknown =>
    cases h
    exact .unknown rfl

theorem fails_of_infer {e : Expr} (h : e.infer t live = .error fault) : e.Fails t live fault := by
  cases e with
  | value v => exact fails_of_infer_value h
  | place p => exact fails_of_infer_place (infer_place_eq_error.1 h)

/-- A fault has no other source than some expression inside that is ill-formed, of unknown
kind, or takes a size that does not exist. -/
theorem infer_ne_error {fault : Fault} (hill : fault ≠ .illFormed) (e : Expr) :
    (∀ s, Within parts s e → ∀ family, s.unknown? = some family → fault ≠ .unknown family) →
    (∀ s, Within parts s e → ∀ ty, s.Measures t live ty → ty.size t ≠ .error fault) →
    e.infer t live ≠ .error fault := by
  induction e using Expr.induction with
  | step e ih =>
  intro hunknown hsize h
  cases fails_of_infer h with
  | part hp hfault =>
    exact ih _ hp (fun s hs => hunknown s (.inside hp hs))
      (fun s hs => hsize s (.inside hp hs)) hfault
  | illFormed => exact hill rfl
  | unknown hf => exact hunknown e .self _ hf rfl
  | size hm hs => exact hsize e .self _ hm hs

end PlaceIR.Expr

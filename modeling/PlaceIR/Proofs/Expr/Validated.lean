import PlaceIR.Proofs.Expr.Origin

/-! Which of the types that the typing rules compute are well-formed. Types come in from
the live locals, from constants, from the result types of operators and from the layouts
that references promise. The first two are checked where they come in; the other two are
annotations that the rules take as they stand. Where these are well-formed, so is every
computed type, and only there. -/

namespace PlaceIR

/-- A constant is a value of well-formed types only. -/
theorem Const.check_of_fits {t : Target} {c : Const} {ty : Ty} (h : c.fits t ty = true) :
    ty.check t = .ok () := by
  cases c <;> cases ty <;> simp_all [Const.fits, Ty.check]

namespace Expr

variable {t : Target} {live : Live}

/-- The annotation that an expression itself carries is well-formed: the result type of an
integer operator, and the layout of a reference to a place of known size. -/
def WellAnnotated (t : Target) (live : Live) : Expr → Prop
  | .value (.unOp (.int _ result) _) => result.WellFormed t
  | .value (.binOp (.int _ result) _ _) => result.WellFormed t
  | .value (.ref target align _) => ∀ place n, target.infer t live = .ok place →
      place.ty.size t = .ok n → Layout.WellFormed ⟨n, align⟩ t
  | _ => True

def Validated (t : Target) (live : Live) (e : Expr) : Prop :=
  ∃ ty, e.infer t live = .ok ty ∧ ty.check t = .ok ()

/-- The types that an expression brings in are checked where they come in, or are its
annotation. -/
theorem WellAnnotated.check_of_brings {e : Expr} (ha : e.WellAnnotated t live)
    (hlive : ∀ name place, live.get? name = some place → place.ty.check t = .ok ()) {ty : Ty}
    (h : e.Brings t live ty) : ty.check t = .ok () := by
  cases e with
  | value v =>
    cases v with
    | const =>
      obtain ⟨hfits, rfl⟩ := h
      exact Const.check_of_fits hfits
    | addrOf =>
      cases h
      rfl
    | ref =>
      obtain ⟨place, ht, n, hn, rfl⟩ := h
      exact require_eq_ok.2 (ha place n ht hn)
    | unOp op =>
      cases op with
      | int =>
        cases h
        exact require_eq_ok.2 ha
      | unknown => exact h.elim
    | binOp op =>
      cases op with
      | int =>
        cases h
        exact require_eq_ok.2 ha
      | ptrOffset | unknown => exact h.elim
    | load | unknown => exact h.elim
  | place p =>
    cases p with
    | slot name =>
      obtain ⟨place, hplace, rfl⟩ := h
      exact hlive name place hplace
    | deref | field | index | unknown => exact h.elim

/-- Under live locals of well-formed types, an expression of well-formed annotations has a
well-formed type. -/
theorem check_of_wellAnnotated
    (hlive : ∀ name place, live.get? name = some place → place.ty.check t = .ok ()) (e : Expr)
    (ha : ∀ s, Within parts s e → s.WellAnnotated t live) (ty : Ty) (h : e.infer t live = .ok ty) :
    ty.check t = .ok () :=
  of_infer (P := fun ty => ty.check t = .ok ()) (fun _ hty _ hp => Ty.check_part hty hp)
    (fun s hs _ hbrings => (ha s hs).check_of_brings hlive hbrings) h

/-- A well-formed type comes from a well-formed annotation. -/
theorem Validated.wellAnnotated {e : Expr} (h : e.Validated t live) : e.WellAnnotated t live := by
  obtain ⟨ty, h, hc⟩ := h
  cases e with
  | place => trivial
  | value v =>
    rw [infer_value] at h
    cases v with
    | const | load | addrOf | unknown => trivial
    | ref =>
      intro place n ht hn
      obtain ⟨place', ht', n', hn', rfl⟩ := Value.infer_ref_eq_ok.1 h
      rw [ht, Except.ok.injEq] at ht'
      subst ht'
      rw [hn, Except.ok.injEq] at hn'
      subst hn'
      exact require_eq_ok.1 hc
    | unOp =>
      obtain ⟨_, _, hr⟩ := Value.infer_unOp_eq_ok.1 h
      obtain ⟨_, result, rfl, _, rfl⟩ := UnOp.result_eq_ok.1 hr
      exact (require_eq_ok (p := result.WellFormed t)).1 hc
    | binOp =>
      obtain ⟨_, _, _, _, hr⟩ := Value.infer_binOp_eq_ok.1 h
      rcases BinOp.result_eq_ok.1 hr with ⟨_, result, rfl, _, rfl⟩ | ⟨_, rfl, _, rfl⟩
      · exact (require_eq_ok (p := result.WellFormed t)).1 hc
      · trivial

end Expr

end PlaceIR

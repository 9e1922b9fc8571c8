import PlaceIR.Proofs.Block
import PlaceIR.Proofs.Expr.Origin
import PlaceIR.Proofs.Func.Walk
import PlaceIR.Proofs.Ty.Known

/-! Nodes of known kinds. On a function without a node of unknown kind every rule comes to
a decision. The type of a constant may be of any kind: no rule looks inside it. -/

namespace PlaceIR

namespace Expr

variable {t : Target} {live : Live}

/-- Neither the expression itself nor the operator that it applies is of unknown kind. -/
def Recognised : Expr → Prop
  | .value .unknown | .place .unknown => False
  | .value (.unOp .unknown _) | .value (.binOp .unknown _ _) => False
  | _ => True

def Known (e : Expr) : Prop := ∀ p, Within parts p e → p.Recognised

theorem known_of_parts {e : Expr} (he : e.Recognised) (hp : ∀ p ∈ e.parts, p.Known) : e.Known :=
  forall_within_iff.2 ⟨he, hp⟩

theorem decides_infer_place {p : Place} {P : Ty → Prop}
    (h : Decides ((Expr.place p).infer t live) P) : Decides (p.infer t live) fun place => P place.ty := by
  change Decides (p.infer t live >>= fun place => .ok place.ty) P at h
  cases hp : p.infer t live with
  | ok place =>
    rw [hp] at h
    exact h
  | error e =>
    rw [hp] at h
    exact h

theorem Recognised.unknown?_eq_none {e : Expr} (h : e.Recognised) : e.unknown? = none := by
  cases e with
  | value v =>
    cases v with
    | unOp op | binOp op =>
      cases op with
      | unknown => exact h.elim
      | _ => rfl
    | unknown => exact h.elim
    | const | load | addrOf | ref => rfl
  | place p =>
    cases p with
    | unknown => exact h.elim
    | slot | deref | field | index => rfl

section Known

variable (hlive : ∀ name place, live.get? name = some place → place.ty.Known)
include hlive

theorem known_of_brings {e : Expr} {ty : Ty} (h : e.Brings t live ty) : ty.Known := by
  cases e with
  | value v =>
    cases v with
    | const =>
      obtain ⟨hfits, rfl⟩ := h
      exact Ty.known_of_fits hfits
    | addrOf =>
      cases h
      exact Ty.known_rawPtr _
    | ref =>
      obtain ⟨_, _, _, _, rfl⟩ := h
      exact Ty.known_ref _ _
    | unOp op | binOp op =>
      cases op with
      | int =>
        cases h
        exact Ty.known_int _
      | _ => exact h.elim
    | load | unknown => exact h.elim
  | place p =>
    cases p with
    | slot name =>
      obtain ⟨place, hplace, rfl⟩ := h
      exact hlive name place hplace
    | deref | field | index | unknown => exact h.elim

/-- Under live locals of known types every computed type is known, also where expressions of
unknown kind occur. -/
theorem known_of_infer {e : Expr} {ty : Ty} (h : e.infer t live = .ok ty) : ty.Known :=
  of_infer (fun _ hty _ hp => hty.part hp) (fun _ _ _ hbrings => known_of_brings hlive hbrings) h

/-- So are the types whose sizes are taken. -/
theorem known_of_measures {e : Expr} {ty : Ty} (h : e.Measures t live ty) : ty.Known := by
  have hplace : ∀ (q : Place) place, q.infer t live = .ok place → place.ty.Known :=
    fun q place hq => known_of_infer hlive (infer_place_eq_ok.2 ⟨place, hq, rfl⟩)
  cases e with
  | value v =>
    cases v with
    | ref target =>
      obtain ⟨place, ht, rfl⟩ := h
      exact hplace target place ht
    | const | load | addrOf | unOp | binOp | unknown => exact h.elim
  | place p =>
    cases p with
    | index root =>
      obtain ⟨place, hr, helem⟩ := h
      exact (hplace root place hr).part (Ty.mem_parts_of_elem? helem)
    | slot | deref | field | unknown => exact h.elim

/-- The sizes that are taken exist. -/
theorem size_ne_error {e : Expr} {ty : Ty} (h : e.Measures t live ty) {fault : Fault}
    (hill : fault ≠ .illFormed) : ty.size t ≠ .error fault :=
  fun hs => hill ((Ty.decides_size (known_of_measures hlive h)).eq_illFormed hs)

/-- Under live locals of known types, the type of a known expression is known. -/
theorem decides_infer (e : Expr) (hk : e.Known) : Decides (e.infer t live) Ty.Known := by
  cases h : e.infer t live with
  | ok ty => exact known_of_infer hlive h
  | error fault =>
    change fault = .illFormed
    refine Decidable.byContradiction fun hill => ?_
    -- another fault would come from a node of unknown kind, or from a size
    refine infer_ne_error hill e (fun s hs family hf => ?_) (fun s _ _ hm => ?_) h
    · rw [(hk s hs).unknown?_eq_none] at hf
      cases hf
    · exact size_ne_error hlive hm hill

end Known

end Expr

/-! ### Statements and terminators -/

namespace Stmt

variable {t : Target} {locals : Table PlaceType} {live : Live}

def Known (s : Stmt) : Prop := s ≠ unknown ∧ ∀ e ∈ s.exprs, e.Known

theorem decides_check {s : Stmt}
    (hlive : ∀ name place, live.get? name = some place → place.ty.Known) (hs : s.Known) :
    Decides (s.check t locals live) fun _ => True := by
  have hinfer : ∀ e ∈ s.exprs, Decides (e.infer t live) Ty.Known := fun e he =>
    e.decides_infer hlive (hs.2 e he)
  cases s with
  | assign d v =>
    refine (Expr.decides_infer_place (hinfer _ (.head _))).bind fun _ _ => ?_
    exact (hinfer (.value v) (.tail _ (.head _))).bind fun _ _ =>
      (decides_require _).bind fun _ _ => .intro
  | finalize p => exact (Expr.decides_infer_place (hinfer _ (.head _))).bind fun _ _ => .intro
  | storageLive =>
    exact (decides_orIllFormed _).bind fun _ _ => (decides_require _).bind fun _ _ => .intro
  | storageDead => exact (decides_require _).bind fun _ _ => .intro
  | unknown => exact absurd rfl hs.1

theorem decides_thread {ss : List Stmt}
    (hlocals : ∀ name place, locals.get? name = some place → place.ty.Known)
    (hl : live.Sub locals) (hss : ∀ s ∈ ss, s.Known) :
    Decides (thread t locals ss live) fun after => after.Sub locals := by
  refine Decides.foldlM hl fun s hs live hl => ?_
  have hd : Decides (s.check t locals live) fun _ => True :=
    decides_check (fun name place hp => hlocals name place (hl name place hp)) (hss s hs)
  exact hd.answer.imp fun after hc => check_sub hc hl

end Stmt

namespace Terminator

def Known (term : Terminator) : Prop := term ≠ unknown ∧ ∀ e ∈ term.exprs, e.Known

theorem decides_successors {t : Target} {live : Live} {term : Terminator}
    (hlive : ∀ name place, live.get? name = some place → place.ty.Known) (h : term.Known) :
    Decides (term.successors t live) fun _ => True := by
  have hinfer : ∀ e ∈ term.exprs, Decides (e.infer t live) Ty.Known := fun e he =>
    e.decides_infer hlive (h.2 e he)
  cases term with
  | goto | ret => exact .intro
  | branch c =>
    exact (hinfer (.value c) (.head _)).bind fun _ _ => (decides_require _).bind fun _ _ => .intro
  | call callee vs p =>
    have hvs : ∀ v ∈ vs, Decides (v.infer t live) Ty.Known := fun v hv =>
      hinfer (.value v) (List.mem_append_left _ (List.mem_map_of_mem hv))
    have hp := Expr.decides_infer_place (hinfer (.place p) (List.mem_append_right _ (.head _)))
    refine (Decides.forM fun v hv => (hvs v hv).discard).bind fun _ _ => ?_
    exact hp.bind fun _ _ => .intro
  | unknown => exact absurd rfl h.1

end Terminator

structure Func.Known (f : Func) : Prop where
  locals : ∀ name place, f.locals.get? name = some place → place.ty.Known
  statements : ∀ name block, f.blocks.get? name = some block → ∀ s ∈ block.statements, s.Known
  terminators : ∀ name block, f.blocks.get? name = some block → block.terminator.Known

theorem Func.known_of_entries {f : Func} (hl : ∀ e ∈ f.locals.entries, e.2.ty.Known)
    (hb : ∀ e ∈ f.blocks.entries, (∀ s ∈ e.2.statements, s.Known) ∧ e.2.terminator.Known) :
    f.Known where
  locals := Table.forall_get?_iff.2 hl
  statements := Table.forall_get?_iff.2 fun e he => (hb e he).1
  terminators := Table.forall_get?_iff.2 fun e he => (hb e he).2

def Program.Known (p : Program) : Prop := ∀ name f, p.functions.get? name = some f → f.Known

end PlaceIR

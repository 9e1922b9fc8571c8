import PlaceIR.Build
import PlaceIR.Proofs.Expr.Validated
import PlaceIR.Proofs.Func.Acceptance

/-! Which of the types computed in an accepted function are well-formed. The check does
not look at the result types of integer operators, nor at the layouts that references
promise: it accepts functions in which these are ill-formed. All computed types are
well-formed exactly if these are, in the whole function and in each expression. -/

namespace PlaceIR

theorem PlaceType.check_ty {t : Target} {p : PlaceType} (h : p.check t = .ok ()) :
    p.ty.check t = .ok () := by
  rw [PlaceType.check, bind_eq_ok] at h
  obtain ⟨_, hm, _⟩ := h
  exact (Ty.measure_eq_ok.1 hm).1

section Points

variable {t : Target} {locals : Table PlaceType} {P Q : Live → Expr → Prop} {term : Terminator}
  {ss : List Stmt} {live after : Live} {next : List String}

/-- From a point before the statements `ss` to the end of their block, `P` holds of every
expression, at any depth, with the locals live where it is evaluated. -/
def Everywhere (t : Target) (locals : Table PlaceType) (P : Live → Expr → Prop)
    (term : Terminator) : List Stmt → Live → Prop
  | [], live => ∀ e ∈ term.exprs, ∀ p, Within Expr.parts p e → P live p
  | s :: ss, live => (∀ e ∈ s.exprs, ∀ p, Within Expr.parts p e → P live p) ∧
      ∃ after, s.check t locals live = .ok after ∧ Everywhere t locals P term ss after

/-- In a block that is passed every expression has a type. -/
theorem everywhere_typed (hthread : Stmt.thread t locals ss live = .ok after)
    (hnext : term.successors t after = .ok next) :
    Everywhere t locals (fun live e => ∃ ty, e.infer t live = .ok ty) term ss live := by
  induction ss generalizing live with
  | nil =>
    cases hthread
    intro e he p hp
    exact Expr.exists_infer_of_within (Terminator.exists_infer_of_successors hnext e he) hp
  | cons s ss ih =>
    obtain ⟨mid, hs, hss⟩ := Stmt.thread_cons_eq_ok.1 hthread
    refine ⟨?_, mid, hs, ih hss⟩
    intro e he p hp
    exact Expr.exists_infer_of_within (Stmt.exists_infer_of_check hs e he) hp

theorem Everywhere.and (h : Everywhere t locals P term ss live)
    (h' : Everywhere t locals Q term ss live) :
    Everywhere t locals (fun live e => P live e ∧ Q live e) term ss live := by
  induction ss generalizing live with
  | nil => exact fun e he p hp => ⟨h e he p hp, h' e he p hp⟩
  | cons s ss ih =>
    obtain ⟨hs, mid, hmid, hss⟩ := h
    obtain ⟨hs', mid', hmid', hss'⟩ := h'
    rw [hmid, Except.ok.injEq] at hmid'
    subst hmid'
    exact ⟨fun e he p hp => ⟨hs e he p hp, hs' e he p hp⟩, mid, hmid, ih hss hss'⟩

/-- The live locals of all points are declared ones, and with an expression come the
expressions inside. -/
theorem Everywhere.imp (h : Everywhere t locals P term ss live) (hl : live.Sub locals)
    (hPQ : ∀ live, live.Sub locals → ∀ e, (∀ p, Within Expr.parts p e → P live p) → Q live e) :
    Everywhere t locals Q term ss live := by
  induction ss generalizing live with
  | nil => exact fun e he p hp => hPQ live hl p fun q hq => h e he q (hq.trans hp)
  | cons s ss ih =>
    obtain ⟨hs, mid, hmid, hss⟩ := h
    refine ⟨fun e he p hp => hPQ live hl p fun q hq => hs e he q (hq.trans hp), mid, hmid, ?_⟩
    exact ih hss (Stmt.check_sub hmid hl)

end Points

namespace Func

variable {t : Target} {f : Func} {entry : Table Live} {P Q : Live → Expr → Prop}

/-- `P` holds of every expression of every declared block, with the locals live where it is
evaluated if those of `entry` are live on entry to the blocks. -/
def AtAllPoints (t : Target) (f : Func) (entry : Table Live) (P : Live → Expr → Prop) : Prop :=
  ∀ name block, f.blocks.get? name = some block → ∃ live, entry.get? name = some live ∧
    Everywhere t f.locals P block.terminator block.statements live

/-- In an accepted function every expression has a type. -/
theorem atAllPoints_typed (h : (f.check t).result = .ok entry) :
    f.AtAllPoints t entry fun live e => ∃ ty, e.infer t live = .ok ty := by
  rw [check_eq_checkBy] at h
  intro name block hb
  obtain ⟨live, hl⟩ := Table.mem_iff_exists_get?.1 ((mem_entry_iff h).2 (Table.mem_of_get? hb))
  obtain ⟨block', hb', after, hthread, next, hnext, _⟩ := settled_of_checkBy h hl
  obtain rfl : block = block' := Option.some.inj (hb ▸ hb')
  exact ⟨live, hl, everywhere_typed hthread hnext⟩

theorem AtAllPoints.and (hP : f.AtAllPoints t entry P) (hQ : f.AtAllPoints t entry Q) :
    f.AtAllPoints t entry fun live e => P live e ∧ Q live e := by
  intro name block hb
  obtain ⟨live, hl, hp⟩ := hP name block hb
  obtain ⟨live', hl', hq⟩ := hQ name block hb
  rw [hl, Option.some.injEq] at hl'
  subst hl'
  exact ⟨live, hl, hp.and hq⟩

theorem AtAllPoints.imp (h : (f.check t).result = .ok entry) (hP : f.AtAllPoints t entry P)
    (hPQ : ∀ live, live.Sub f.locals → ∀ e, (∀ p, Within Expr.parts p e → P live p) → Q live e) :
    f.AtAllPoints t entry Q := by
  rw [check_eq_checkBy] at h
  intro name block hb
  obtain ⟨live, hl, hp⟩ := hP name block hb
  obtain ⟨path, hw⟩ := (explored_of_checkBy h).walk name live hl
  exact ⟨live, hl, hp.imp hw.sub_locals hPQ⟩

/-- At every point of an accepted function, each expression for itself: the types computed in
it are well-formed if and only if its annotations are. -/
theorem validated_iff_wellAnnotated (h : (f.check t).result = .ok entry) :
    f.AtAllPoints t entry fun live e =>
      (∀ p, Within Expr.parts p e → p.Validated t live) ↔
        ∀ p, Within Expr.parts p e → p.WellAnnotated t live := by
  refine (atAllPoints_typed h).imp h fun live hsub e htyped => ⟨?_, ?_⟩
  · exact fun hv p hp => (hv p hp).wellAnnotated
  · intro ha p hp
    obtain ⟨ty, hty⟩ := htyped p hp
    have hlocals := (sound_of_checkBy (check_eq_checkBy ▸ h)).locals_check
    have hlive (name : String) (place : PlaceType) (hplace : live.get? name = some place) :=
      PlaceType.check_ty (hlocals name place (hsub name place hplace))
    have hparts (q : Expr) (hq : Within Expr.parts q p) := ha q (hq.trans hp)
    exact ⟨ty, hty, Expr.check_of_wellAnnotated hlive p hparts ty hty⟩

/-- In an accepted function all computed types are well-formed if and only if all result
types of integer operators and all layouts of references are. The same is so at each of its
points, of the types and the annotations in each expression for itself. -/
theorem all_validated_iff (h : (f.check t).result = .ok entry) :
    (f.AtAllPoints t entry (Expr.Validated t) ↔ f.AtAllPoints t entry (Expr.WellAnnotated t)) ∧
    f.AtAllPoints t entry fun live e =>
      (∀ p, Within Expr.parts p e → p.Validated t live) ↔
        ∀ p, Within Expr.parts p e → p.WellAnnotated t live := by
  have heach := validated_iff_wellAnnotated h
  refine ⟨⟨fun hv => ?_, fun ha => ?_⟩, heach⟩
  · exact hv.imp h fun live _ e he => (he e .self).wellAnnotated
  · refine (ha.and heach).imp h fun live _ e he => ?_
    exact (he e .self).2.2 (fun p hp => (he p hp).1) e .self

/-- A call passes a number cast to an integer type of `size` bytes. -/
def casting (size : Int) : Func where
  locals := .ofList [("out", ⟨.u32, 4⟩)]
  args := []
  ret := "out"
  blocks := .ofList [
    ("entry", ⟨[], .call "sink" [.unOp (.int .cast ⟨.unsigned, size⟩) (.const (.int 7) .u32)]
      (.slot "out") "done"⟩),
    ("done", ⟨[], .ret⟩)]
  start := "entry"

def castingEntry (size : Int) : Table Live :=
  ((∅ : Table Live).insert "entry" (casting size).entryLive).insert "done" (casting size).entryLive

theorem casting_check (size : Int) :
    ((casting size).check .default).result = .ok (castingEntry size) := by
  have hlive : (casting size).initialLive.result = .ok (casting size).entryLive := rfl
  refine check_of_explore rfl hlive ?_ rfl
  refine (explore_of_visit rfl).trans ((explore_of_visit rfl).trans ?_)
  exact congrArg Report.result (explore_nil ..)

/-- A cast to two bytes is well annotated, so that all types computed are well-formed. -/
theorem casting_two_validated :
    ((casting 2).check .default).result = .ok (castingEntry 2) ∧
    (casting 2).AtAllPoints .default (castingEntry 2) (Expr.WellAnnotated .default) ∧
    (casting 2).AtAllPoints .default (castingEntry 2) (Expr.Validated .default) := by
  have hannotated : (casting 2).AtAllPoints .default (castingEntry 2)
      (Expr.WellAnnotated .default) := by
    have hresult : IntType.WellFormed ⟨.unsigned, 2⟩ .default := by decide
    refine Table.forall_get?_iff.2 (List.forall_mem_cons.2 ⟨⟨_, rfl, ?_⟩,
      List.forall_mem_singleton.2 ⟨_, rfl, nofun⟩⟩)
    refine List.forall_mem_cons.2 ⟨?_, List.forall_mem_singleton.2 ?_⟩
    · exact forall_within_iff.2 ⟨hresult, List.forall_mem_singleton.2
        (forall_within_iff.2 ⟨trivial, nofun⟩)⟩
    · exact forall_within_iff.2 ⟨trivial, nofun⟩
  exact ⟨casting_check 2, hannotated, (all_validated_iff (casting_check 2)).1.2 hannotated⟩

/-- A cast to three bytes is accepted, and its type is not well-formed. -/
theorem casting_three_not_validated :
    ((casting 3).check .default).result = .ok (castingEntry 3) ∧
    ¬ (casting 3).AtAllPoints .default (castingEntry 3) (Expr.Validated .default) := by
  refine ⟨casting_check 3, fun h => ?_⟩
  obtain ⟨live, _, hp⟩ := h "entry" _ rfl
  obtain ⟨ty, hty, hc⟩ := hp _ (.head _) _ .self
  cases hty
  cases hc

end Func

end PlaceIR

import PlaceIR.Proofs.Expr.Realign
import PlaceIR.Proofs.Func.Reasons

/-! Functions that differ in the alignments of their locals only. Live locals are compared
where control arrives at a block for a second time, and their alignments are compared with
them. Still no alignment decides: all live locals are declared ones, so that in either
function they bind alike as soon as the same names are live. A search takes the same steps
in both functions, and they are accepted or rejected together. -/

namespace PlaceIR

/-- The same names in the same order, at the same types. The alignments may differ. -/
def Table.SameTypes (s u : Table PlaceType) : Prop := s.Rel (fun p q => p.ty = q.ty) u

section Live

variable {t : Target} {locals locals' : Table PlaceType} {live live' : Live}

theorem Table.SameTypes.realigned (h : live.SameTypes live') :
    live.Rel (PlaceType.Realigned fun _ _ => True) live' :=
  h.imp fun _ _ hty => ⟨hty, .intro⟩

theorem Value.infer_sameTypes (h : live.SameTypes live') (v : Value) :
    v.infer t live = v.infer t live' :=
  v.infer_realigned (keptByMoves_true t) h.realigned

theorem Place.infer_sameTypes (h : live.SameTypes live') (p : Place) :
    Alike (fun q q' => q.ty = q'.ty) (p.infer t live) (p.infer t live') :=
  (p.infer_realigned (keptByMoves_true t) h.realigned).imp fun _ _ hq => hq.ty

/-- A place is no better aligned where no live local is. -/
theorem Place.infer_align_le (h : live.SameTypes live')
    (halign : live.Rel (fun q q' => q.align ≤ q'.align) live') {p : Place} {q q' : PlaceType}
    (hq : p.infer t live = .ok q) (hq' : p.infer t live' = .ok q') : q.align ≤ q'.align := by
  have hlive : live.Rel (PlaceType.Realigned (· ≤ ·)) live' :=
    (h.and halign).imp fun _ _ hp => ⟨hp.1, hp.2⟩
  obtain ⟨r, hr, hqr⟩ := (p.infer_realigned (keptByMoves_le t) hlive).exists_ok hq
  obtain rfl : q' = r := Except.ok.inj (hq'.symm.trans hr)
  exact hqr.align

/-! ### Statements and terminators -/

/-- Live locals of the same types, each at their declared place types. -/
structure SameLive (locals locals' : Table PlaceType) (live live' : Live) : Prop where
  types : live.SameTypes live'
  left : live.Sub locals
  right : live'.Sub locals'

/-- Declared locals bind alike in both functions, or in neither. -/
theorem SameLive.equiv_iff {other other' : Live} (h : SameLive locals locals' live live')
    (ho : SameLive locals locals' other other') : live.Equiv other ↔ live'.Equiv other' := by
  rw [h.left.equiv_iff_mem ho.left, h.right.equiv_iff_mem ho.right]
  simp only [h.types.mem_iff, ho.types.mem_iff]

theorem SameLive.insert {name : String} {q q' : PlaceType} (h : SameLive locals locals' live live')
    (hq : locals.get? name = some q) (hq' : locals'.get? name = some q') (hty : q.ty = q'.ty) :
    SameLive locals locals' (live.insert name q) (live'.insert name q') :=
  ⟨h.types.insert name hty, h.left.insert_left hq, h.right.insert_left hq'⟩

theorem SameLive.erase (h : SameLive locals locals' live live') (name : String) :
    SameLive locals locals' (live.erase name) (live'.erase name) :=
  ⟨Table.Rel.erase h.types name, h.left.erase_left name, h.right.erase_left name⟩

theorem Stmt.check_alike (hlocals : locals.SameTypes locals')
    (h : SameLive locals locals' live live') (s : Stmt) :
    Alike (SameLive locals locals') (s.check t locals live) (s.check t locals' live') := by
  cases s with
  | assign destination source =>
    rw [check, check, source.infer_sameTypes h.types]
    refine (destination.infer_sameTypes h.types).bind fun q q' _ _ hq => ?_
    rw [hq]
    exact .bind_same fun _ _ => .bind_same fun _ _ => .ok h
  | finalize place =>
    rw [check, check]
    exact (place.infer_sameTypes h.types).bind fun _ _ _ _ _ => .ok h
  | storageLive name =>
    rw [check, check, require_congr (not_congr h.types.mem_iff)]
    refine (alike_orIllFormed (hlocals.get? name)).bind fun q q' hq hq' hty => ?_
    exact .bind_same fun _ _ =>
      .ok (h.insert (orIllFormed_eq_ok.1 hq) (orIllFormed_eq_ok.1 hq') hty)
  | storageDead name =>
    rw [check, check, require_congr h.types.mem_iff]
    exact .bind_same fun _ _ => .ok (h.erase name)
  | unknown => exact .error _

theorem Terminator.successors_sameTypes (h : live.SameTypes live') (term : Terminator) :
    term.successors t live = term.successors t live' := by
  cases term with
  | goto | ret | unknown => rfl
  | branch condition => rw [successors, successors, condition.infer_sameTypes h]
  | call callee arguments result next =>
    simp only [successors, Value.infer_sameTypes h]
    congr 1
    funext _
    exact (result.infer_sameTypes h).bind_eq fun _ _ _ => rfl

end Live

/-! ### Searches -/

section Search

variable {locals locals' : Table PlaceType} {live live' : Live} {s s' : Search}

structure SameArrival (locals locals' : Table PlaceType) (a a' : Arrival) : Prop where
  block : a.block = a'.block
  live : SameLive locals locals' a.live a'.live

/-- Searches that know the same blocks and have the same ones pending. -/
structure SameSearch (locals locals' : Table PlaceType) (s s' : Search) : Prop where
  entry : s.entry.Rel (SameLive locals locals') s'.entry
  pending : List.Forall₂ (SameArrival locals locals') s.pending s'.pending

theorem SameSearch.begin (h : SameLive locals locals' live live') (start : String) :
    SameSearch locals locals' (.begin start live) (.begin start live') where
  entry := Table.Rel.empty.insert start h
  pending := .cons ⟨rfl, h⟩ .nil

theorem Search.arrive_alike (hs : SameSearch locals locals' s s')
    (h : SameLive locals locals' live live') (source block : String) :
    (s.arrive source live block).Alike (SameSearch locals locals')
      (s'.arrive source live' block) := by
  have hrecorded := hs.entry.get? block
  unfold arrive
  generalize s.entry.get? block = r, s'.entry.get? block = r' at hrecorded ⊢
  cases hrecorded with
  | none =>
    have harrival : SameArrival locals locals' ⟨block, live⟩ ⟨block, live'⟩ := ⟨rfl, h⟩
    have hpending := List.rel_append hs.pending (.cons harrival .nil)
    exact Report.alike_pure ⟨hs.entry.insert block h, hpending⟩
  | some hr => exact .require_bind (hr.equiv_iff h) (Report.alike_pure hs)

end Search

namespace Func

variable {t : Target} {f : Func} {locals : Table PlaceType} {live live' : Live} {s s' : Search}

def withLocals (f : Func) (locals : Table PlaceType) : Func := { f with locals }

theorem through_alike (hlocals : f.locals.SameTypes locals)
    (h : SameLive f.locals locals live live') (name : String) (statements : List Stmt) :
    (f.through t name statements live).Alike (SameLive f.locals locals)
      ((f.withLocals locals).through t name statements live') :=
  .foldlM h fun s _ _ _ h => (Report.alike_silent (s.check_alike hlocals h)).blame _

/-- Visits of the same block go alike. -/
theorem visit_alike (hlocals : f.locals.SameTypes locals) {a a' : Arrival}
    (ha : SameArrival f.locals locals a a') (hs : SameSearch f.locals locals s s') :
    (f.visit t a s).Alike (SameSearch f.locals locals) ((f.withLocals locals).visit t a' s') := by
  rw [visit, visit, ha.block]
  refine .bind_same fun block _ => ?_
  refine (through_alike hlocals ha.live _ _).bind fun after after' _ _ hafter => ?_
  rw [block.terminator.successors_sameTypes hafter.types]
  exact .bind_same fun next _ => .foldlM hs fun b _ _ _ hs => Search.arrive_alike hs hafter _ b

theorem explore_alike (hlocals : f.locals.SameTypes locals)
    (hs : SameSearch f.locals locals s s') :
    (f.explore t s).Alike (·.Rel (SameLive f.locals locals) ·)
      ((f.withLocals locals).explore t s') := by
  induction s using visit_induction t f generalizing s' with
  | done entry =>
    obtain ⟨entry', pending'⟩ := s'
    obtain ⟨hentry, hpending⟩ := hs
    cases hpending
    rw [explore_nil, explore_nil]
    exact Report.alike_pure hentry
  | visit entry a rest ih =>
    obtain ⟨entry', pending'⟩ := s'
    obtain ⟨hentry, hpending⟩ := hs
    cases hpending with
    | @cons _ a' _ rest' ha hrest =>
      have hnext : SameSearch f.locals locals ⟨entry, rest⟩ ⟨entry', rest'⟩ := ⟨hentry, hrest⟩
      rw [explore_cons, explore_cons]
      exact (visit_alike hlocals ha hnext).bind fun s s' hv _ hs => ih s hv hs

/-! ### The whole check -/

theorem bindOnEntry_alike (hlocals : f.locals.SameTypes locals)
    (h : SameLive f.locals locals live live') (name : String) :
    (f.bindOnEntry live name).Alike (SameLive f.locals locals)
      ((f.withLocals locals).bindOnEntry live' name) := by
  refine .blame_bind (alike_orIllFormed (hlocals.get? name)) fun q q' hq hq' hty => ?_
  have hinsert := h.insert (orIllFormed_eq_ok.1 hq) (orIllFormed_eq_ok.1 hq') hty
  exact .require_bind (not_congr h.types.mem_iff) (Report.alike_pure hinsert)

theorem initialLive_alike (hlocals : f.locals.SameTypes locals) :
    f.initialLive.Alike (SameLive f.locals locals) (f.withLocals locals).initialLive :=
  .foldlM ⟨.empty, nofun, nofun⟩ fun name _ _ _ h => bindOnEntry_alike hlocals h name

theorem check_alike (hlocals : f.locals.SameTypes locals)
    (h : (f.checkLocals t).result = .ok ())
    (h' : ((f.withLocals locals).checkLocals t).result = .ok ()) :
    (f.check t).Alike (·.Rel (SameLive f.locals locals) ·) ((f.withLocals locals).check t) := by
  rw [check, check, explained_checkLocals.quiet.bind_eq h, explained_checkLocals.quiet.bind_eq h']
  refine (initialLive_alike hlocals).bind fun live live' _ _ hlive => ?_
  refine (explore_alike hlocals (.begin hlive f.start)).bind fun entry entry' _ _ hentry => ?_
  have hunreached : f.blocks.keys.filter (· ∉ entry) = f.blocks.keys.filter (· ∉ entry') := by
    simp only [hentry.mem_iff]
  simp only [hunreached]
  exact .require_bind .rfl (Report.alike_pure hentry)

end Func

/-- Alignments of locals decide nothing. Under live locals of the same types every value
has the same type, and every place has the same type, or they have the same fault; and a place
is no better aligned where no live local is. So a function whose locals are given other
alignments, all well-formed, is accepted, rejected with the same messages or at fault as
before, and the blocks recorded and the locals live there are the same, in the same order and
at the same types. -/
theorem align_free_typing (t : Target) :
    (∀ live live' : Live, live.SameTypes live' →
      (∀ v : Value, v.infer t live = v.infer t live') ∧
      (∀ p : Place, Alike (fun q q' => q.ty = q'.ty) (p.infer t live) (p.infer t live')) ∧
      (live.Rel (fun q q' => q.align ≤ q'.align) live' → ∀ (p : Place) (q q' : PlaceType),
        p.infer t live = .ok q → p.infer t live' = .ok q' → q.align ≤ q'.align)) ∧
    ∀ (f : Func) (locals : Table PlaceType), f.locals.SameTypes locals →
      (∀ name place, f.locals.get? name = some place → place.check t = .ok ()) →
      (∀ name place, locals.get? name = some place → place.check t = .ok ()) →
      (f.check t).Alike (·.Rel Table.SameTypes ·) ((f.withLocals locals).check t) := by
  refine ⟨fun live live' h => ⟨Value.infer_sameTypes h, Place.infer_sameTypes h, ?_⟩, ?_⟩
  · exact fun halign p q q' => Place.infer_align_le h halign
  · intro f locals h hf hlocals
    have hcheck := Func.check_alike h (Func.checkLocals_eq_ok.2 hf) (Func.checkLocals_eq_ok.2 hlocals)
    exact hcheck.imp fun _ _ hentry => hentry.imp fun _ _ hlive => hlive.types

/-! ### Packed locals -/

def Place.second : Place := .field (.slot "pair") 1

/-- Look at the second field of a packed pair, as often as wanted, through a reference that
promises more than the place has. -/
def peeking : Func where
  locals := .ofList [("pair", ⟨.tuple [(0, .u32), (4, .u32)] 8 4, 1⟩), ("more", ⟨.bool, 1⟩),
    ("view", ⟨.ref ⟨4, 4⟩ .immutable, 1⟩), ("out", ⟨.u32, 4⟩)]
  args := ["pair", "more"]
  ret := "out"
  blocks := .ofList [
    ("look", ⟨[.storageLive "view", .assign (.slot "view") (.ref .second 4 .immutable),
      .storageDead "view"], .branch (.ofSlot "more") "look" "done"⟩),
    ("done", ⟨[], .ret⟩)]
  start := "look"

def peekingAligned : Table PlaceType :=
  .ofList [("pair", ⟨.tuple [(0, .u32), (4, .u32)] 8 4, 8⟩), ("more", ⟨.bool, 1⟩),
    ("view", ⟨.ref ⟨4, 4⟩ .immutable, 8⟩), ("out", ⟨.u32, 4⟩)]

theorem peeking_check : ∃ entry, (peeking.check .default).result = .ok entry := by
  have hlive : peeking.initialLive.result = .ok peeking.entryLive := rfl
  refine ⟨?entry, Func.check_of_explore rfl hlive ?explore ?reached⟩
  case explore =>
    refine (Func.explore_of_visit rfl).trans ((Func.explore_of_visit rfl).trans ?_)
    exact congrArg Report.result (Func.explore_nil ..)
  case reached => rfl

/-- Both are accepted, the reference has the same type, and the field is no better aligned
in the packed pair. -/
theorem peeking_alike :
    (∃ entry entry', (peeking.check .default).result = .ok entry ∧
      ((peeking.withLocals peekingAligned).check .default).result = .ok entry' ∧
      entry.Rel Table.SameTypes entry') ∧
    (Value.ref .second 4 .immutable).infer .default peeking.locals =
      (Value.ref .second 4 .immutable).infer .default peekingAligned ∧
    ∃ q q', Place.second.infer .default peeking.locals = .ok q ∧
      Place.second.infer .default peekingAligned = .ok q' ∧ q.ty = q'.ty ∧ q.align ≤ q'.align := by
  obtain ⟨hexprs, hfuncs⟩ := align_free_typing .default
  have htypes : peeking.locals.SameTypes peekingAligned :=
    .cons ⟨rfl, rfl⟩ (.cons ⟨rfl, rfl⟩ (.cons ⟨rfl, rfl⟩ (.cons ⟨rfl, rfl⟩ .nil)))
  have haligns : peeking.locals.Rel (fun q q' => q.align ≤ q'.align) peekingAligned :=
    .cons ⟨rfl, by decide⟩ (.cons ⟨rfl, by decide⟩ (.cons ⟨rfl, by decide⟩
      (.cons ⟨rfl, by decide⟩ .nil)))
  have hpacked : (peeking.checkLocals .default).result = .ok () := rfl
  have haligned : ((peeking.withLocals peekingAligned).checkLocals .default).result = .ok () := rfl
  have hcheck := hfuncs _ _ htypes (Func.checkLocals_eq_ok.1 hpacked)
    (Func.checkLocals_eq_ok.1 haligned)
  obtain ⟨hvalues, hplaces, hle⟩ := hexprs _ _ htypes
  obtain ⟨entry, hentry⟩ := peeking_check
  obtain ⟨entry', hentry', hrel⟩ := hcheck.result.exists_ok hentry
  obtain ⟨q', hq', hty⟩ := (hplaces .second).exists_ok rfl
  exact ⟨⟨entry, entry', hentry, hentry', hrel⟩, hvalues _,
    _, q', rfl, hq', hty, hle haligns _ _ _ rfl hq'⟩

end PlaceIR

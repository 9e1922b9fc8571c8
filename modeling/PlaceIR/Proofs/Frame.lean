import PlaceIR.Build
import PlaceIR.Proofs.Block

/-! Locals that are not used. Expressions read only the bindings of the locals that occur
in them, and all of these must be live. Statements leave every other live local as it is,
so they run the same with more of them, as long as they do not start the storage of one
that is live already. -/

namespace PlaceIR

variable {t : Target} {locals : Table PlaceType} {live live' more extra after : Live}

/-! ### The locals of an expression -/

namespace Expr

def Mentions (e : Expr) (name : String) : Prop := Within parts (.place (.slot name)) e

theorem forall_mentions_iff {e : Expr} {P : String → Prop} : (∀ name, e.Mentions name → P name) ↔
    (∀ name, e = .place (.slot name) → P name) ∧
      ∀ p ∈ e.parts, ∀ name, p.Mentions name → P name := by
  constructor
  · refine fun h => ⟨?_, fun p hp name hn => h name (.inside hp hn)⟩
    rintro name rfl
    exact h name .self
  · rintro ⟨hself, hparts⟩ name hn
    cases hn with
    | self => exact hself name rfl
    | inside hp hn => exact hparts _ hp name hn

/-- Every local that occurs in a typed expression is live. -/
theorem mem_live_of_mentions {e : Expr} {name : String} (h : ∃ ty, e.infer t live = .ok ty)
    (hn : e.Mentions name) : name ∈ live := by
  obtain ⟨_, hplace⟩ := exists_infer_of_within h hn
  obtain ⟨_, hslot, _⟩ := infer_place_eq_ok.1 hplace
  exact Table.mem_of_get? (Place.infer_slot_eq_ok.1 hslot)

end Expr

theorem Value.mem_live_of_mentions {v : Value} {ty : Ty} (hv : v.infer t live = .ok ty) :
    ∀ name, (Expr.value v).Mentions name → name ∈ live :=
  fun _ => Expr.mem_live_of_mentions ⟨ty, hv⟩

theorem Place.mem_live_of_mentions {p : Place} {place : PlaceType}
    (hp : p.infer t live = .ok place) : ∀ name, (Expr.place p).Mentions name → name ∈ live :=
  fun _ => Expr.mem_live_of_mentions ⟨_, Expr.infer_place_eq_ok.2 ⟨place, hp, rfl⟩⟩

/-! ### More live locals -/

/-- A typed value keeps its type when more locals are live. -/
theorem Value.infer_of_sub (h : live.Sub live') {v : Value} {ty : Ty}
    (hv : v.infer t live = .ok ty) : v.infer t live' = .ok ty := by
  rw [← hv]
  exact (v.infer_congr fun name hn => h.get?_eq (mem_live_of_mentions hv name hn)).symm

/-- A typed place keeps its place type when more locals are live. -/
theorem Place.infer_of_sub (h : live.Sub live') {p : Place} {place : PlaceType}
    (hp : p.infer t live = .ok place) : p.infer t live' = .ok place := by
  rw [← hp]
  exact (p.infer_congr fun name hn => h.get?_eq (mem_live_of_mentions hp name hn)).symm

namespace Stmt

/-- A statement does the same beside further live locals as without them, and leaves them as
they are, unless it starts the storage of one. -/
theorem check_together {s : Stmt} (h : s.check t locals live = .ok after)
    (hextra : ∀ name ∈ extra, name ∉ live) (hs : ∀ name ∈ extra, s ≠ .storageLive name) :
    (∀ name ∈ extra, name ∉ after) ∧ ∃ after', s.check t locals (live.together extra) = .ok after' ∧
      after'.Equiv (after.together extra) := by
  have hsub : live.Sub (live.together extra) := Table.sub_together hextra
  cases s with
  | assign =>
    obtain ⟨place, hd, hv, rfl⟩ := check_assign_eq_ok.1 h
    exact ⟨hextra, _, check_assign_eq_ok.2
      ⟨place, Place.infer_of_sub hsub hd, Value.infer_of_sub hsub hv, rfl⟩, .refl _⟩
  | finalize =>
    obtain ⟨place, hp, rfl⟩ := check_finalize_eq_ok.1 h
    exact ⟨hextra, _, check_finalize_eq_ok.2 ⟨place, Place.infer_of_sub hsub hp, rfl⟩, .refl _⟩
  | storageLive started =>
    obtain ⟨place, hdecl, hdead, rfl⟩ := check_storageLive_eq_ok.1 h
    have hstarted : started ∉ extra := fun hk => hs started hk rfl
    refine ⟨fun name hn => ?_, _, check_storageLive_eq_ok.2 ⟨place, hdecl, ?_, rfl⟩,
      Table.together_insert_equiv hstarted place⟩
    · rw [Table.mem_insert, not_or]
      exact ⟨fun he => hstarted (he ▸ hn), hextra name hn⟩
    · rw [Table.mem_together, not_or]
      exact ⟨hdead, hstarted⟩
  | storageDead ended =>
    obtain ⟨hlive, rfl⟩ := check_storageDead_eq_ok.1 h
    have hended : ended ∉ extra := fun hk => hextra ended hk hlive
    refine ⟨fun name hn hmem => hextra name hn (Table.mem_erase.1 hmem).2, _,
      check_storageDead_eq_ok.2 ⟨Table.mem_together.2 (.inl hlive), rfl⟩,
      Table.together_erase_equiv hended⟩
  | unknown => cases h

/-- Statements in a row do the same beside further live locals, in whatever order the locals
are listed. -/
theorem thread_together {ss : List Stmt} (h : thread t locals ss live = .ok after)
    (hextra : ∀ name ∈ extra, name ∉ live) (hss : ∀ name ∈ extra, .storageLive name ∉ ss)
    (hmore : more.Equiv (live.together extra)) :
    (∀ name ∈ extra, name ∉ after) ∧ ∃ after', thread t locals ss more = .ok after' ∧
      after'.Equiv (after.together extra) := by
  induction ss generalizing live more with
  | nil =>
    cases h
    exact ⟨hextra, more, rfl, hmore⟩
  | cons s ss ih =>
    obtain ⟨mid, hs, hrest⟩ := thread_cons_eq_ok.1 h
    have hfirst : ∀ name ∈ extra, s ≠ .storageLive name :=
      fun name hn he => hss name hn (he ▸ .head ss)
    have hothers : ∀ name ∈ extra, .storageLive name ∉ ss := fun name hn h => hss name hn (.tail s h)
    obtain ⟨hmid, wide, hwide, hequiv⟩ := check_together hs hextra hfirst
    -- the step was taken from the locals in one order; the others follow it
    obtain ⟨mid', hs', hm⟩ := check_congr hwide hmore.symm
    obtain ⟨hafter, after', hrest', ha⟩ := ih hrest hmid hothers (hm.symm.trans hequiv)
    exact ⟨hafter, after', thread_cons_eq_ok.2 ⟨mid', hs', hrest'⟩, ha⟩

end Stmt

/-- The frame rule for live locals. Where two maps of live locals agree on the locals that
occur in an expression, it has the same type or the same fault under both, and if it has a
type all these locals are live. Statements that check take further live locals along
unchanged, unless they start the storage of one. -/
theorem frame_rule (t : Target) (locals : Table PlaceType) :
    (∀ live live' : Live,
      (∀ v : Value, (∀ name, (Expr.value v).Mentions name → live.get? name = live'.get? name) →
        v.infer t live = v.infer t live' ∧ ∀ ty, v.infer t live = .ok ty →
          ∀ name, (Expr.value v).Mentions name → name ∈ live) ∧
      ∀ p : Place, (∀ name, (Expr.place p).Mentions name → live.get? name = live'.get? name) →
        p.infer t live = p.infer t live' ∧ ∀ place, p.infer t live = .ok place →
          ∀ name, (Expr.place p).Mentions name → name ∈ live) ∧
    ∀ (ss : List Stmt) (live after : Live), Stmt.thread t locals ss live = .ok after →
      ∀ extra : Live, (∀ name ∈ extra, name ∉ live) → (∀ name ∈ extra, .storageLive name ∉ ss) →
        (∀ name ∈ extra, name ∉ after) ∧ ∀ more : Live, more.Equiv (live.together extra) →
          ∃ after', Stmt.thread t locals ss more = .ok after' ∧
            after'.Equiv (after.together extra) := by
  refine ⟨fun live live' => ⟨fun v hagree => ?_, fun p hagree => ?_⟩, ?_⟩
  · exact ⟨v.infer_congr hagree, fun ty => Value.mem_live_of_mentions⟩
  · exact ⟨p.infer_congr hagree, fun place => Place.mem_live_of_mentions⟩
  · intro ss live after h extra hextra hss
    have hequiv := Table.Equiv.refl (live.together extra)
    exact ⟨(Stmt.thread_together h hextra hss hequiv).1,
      fun more hmore => (Stmt.thread_together h hextra hss hmore).2⟩

/-! ### Cells beside a flag -/

def Place.indexedCell : Place := .index (.slot "cells") (.ofSlot "index")

def indexedCells : Live := .ofList [("cells", ⟨.array .u32 3, 8⟩), ("index", ⟨.u8, 1⟩)]

def indexedLive : Live :=
  .ofList [("cells", ⟨.array .u32 3, 8⟩), ("index", ⟨.u8, 1⟩), ("old", ⟨.bool, 1⟩)]

def indexedLater : Live :=
  .ofList [("index", ⟨.u8, 1⟩), ("new", ⟨.bool, 1⟩), ("cells", ⟨.array .u32 3, 8⟩)]

/-- The new flag takes the place of the old one. -/
def flagRenewal : List Stmt :=
  [.storageLive "new", .assign (.slot "new") (.ofSlot "old"), .storageDead "old"]

theorem indexedCell_agree : ∀ name, (Expr.place .indexedCell).Mentions name →
    indexedLive.get? name = indexedLater.get? name := by
  have hslot (name : String) (h : indexedLive.get? name = indexedLater.get? name) :
      ∀ n, (Expr.place (.slot name)).Mentions n → indexedLive.get? n = indexedLater.get? n := by
    refine Expr.forall_mentions_iff.2 ⟨?_, nofun⟩
    rintro n ⟨⟩
    exact h
  have hload : ∀ n, (Expr.value (.ofSlot "index")).Mentions n →
      indexedLive.get? n = indexedLater.get? n :=
    Expr.forall_mentions_iff.2 ⟨nofun, List.forall_mem_singleton.2 (hslot "index" rfl)⟩
  exact Expr.forall_mentions_iff.2 ⟨nofun, List.forall_mem_cons.2
    ⟨hslot "cells" rfl, List.forall_mem_singleton.2 hload⟩⟩

/-- The flag is renewed beside the cells and the index as it is alone, and a cell is found
after that as before. -/
theorem indexedCell_frame :
    (∀ name, (Expr.place .indexedCell).Mentions name →
      indexedLive.get? name = indexedLater.get? name ∧ name ∈ indexedLive) ∧
    Place.indexedCell.infer .default indexedLive = .ok ⟨.u32, 4⟩ ∧
    Place.indexedCell.infer .default indexedLater = .ok ⟨.u32, 4⟩ ∧
    Value.infer .default indexedLater (.load .indexedCell true) = .ok .u32 ∧
    ∃ alone after, Stmt.thread .default (.ofList [("new", ⟨.bool, 1⟩)]) flagRenewal
        (.ofList [("old", ⟨.bool, 1⟩)]) = .ok alone ∧
      Stmt.thread .default (.ofList [("new", ⟨.bool, 1⟩)]) flagRenewal indexedLive = .ok after ∧
      after.Equiv indexedLater := by
  obtain ⟨hexprs, hrows⟩ := frame_rule .default (.ofList [("new", ⟨.bool, 1⟩)])
  obtain ⟨hvalues, hplaces⟩ := hexprs indexedLive indexedLater
  obtain ⟨hplace, hlive⟩ := hplaces _ indexedCell_agree
  obtain ⟨hvalue, _⟩ := hvalues (.load .indexedCell true)
    (Expr.forall_mentions_iff.2 ⟨nofun, List.forall_mem_singleton.2 indexedCell_agree⟩)
  have halone : Stmt.thread .default (.ofList [("new", ⟨.bool, 1⟩)]) flagRenewal
      (.ofList [("old", ⟨.bool, 1⟩)]) = .ok (.ofList [("new", ⟨.bool, 1⟩)]) := rfl
  have hnew : ∀ name ∈ indexedCells, name ≠ "new" := by decide
  have hstart : ∀ name ∈ indexedCells, .storageLive name ∉ flagRenewal := by
    simpa [flagRenewal] using hnew
  obtain ⟨_, hrow⟩ := hrows _ _ _ halone indexedCells (by decide) hstart
  obtain ⟨after, hafter, hequiv⟩ := hrow indexedLive (by decide)
  exact ⟨fun name hn => ⟨indexedCell_agree name hn, hlive ⟨.u32, 4⟩ rfl name hn⟩, rfl, hplace ▸ rfl,
    hvalue ▸ rfl, _, after, halone, hafter, hequiv.trans (by decide)⟩

end PlaceIR

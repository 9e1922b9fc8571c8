import PlaceIR.Proofs.Func.Acceptance
import PlaceIR.Proofs.Report

/-! The walk over a function's blocks, one step at a time. A step enters the block of a
pending arrival, checks one statement or the terminator, or arrives at one successor. What
the walk still has to do at any stage is the step that comes next and what it has to do
after it, so the stages that steps lead to are those that the walk passes, whether it is
stopped later or not. Statements are the only steps to make live locals that were not held. -/

namespace PlaceIR

open Func

/-! ### Live locals held by a search -/

/-- The live locals of a search: those recorded, and those that pending arrivals bring. -/
def Search.Holds (s : Search) (live : Live) : Prop :=
  (∃ name, s.entry.get? name = some live) ∨ ∃ a ∈ s.pending, a.live = live

theorem Search.holds_of_arrive {source block : String} {here live : Live} {s s' : Search}
    (h : (s.arrive source here block).result = .ok s') (hl : s'.Holds live) :
    live = here ∨ s.Holds live := by
  have harr := arrived_of_arrive h
  have hentry : ∀ name, s'.entry.get? name = some live → live = here ∨ s.Holds live := by
    intro name hn
    rcases harr.entry_new name live hn with hn | ⟨_, rfl, _⟩
    · exact .inr (.inl ⟨name, hn⟩)
    · exact .inl rfl
  rcases hl with ⟨name, hn⟩ | ⟨a, ha, rfl⟩
  · exact hentry name hn
  · rcases harr.pending_new a ha with ha | ha
    · exact .inr (.inr ⟨a, ha, rfl⟩)
    · exact hentry a.block ha

/-! ### Stages and steps -/

/-- How far the walk over the blocks has come. -/
inductive Stage where
  /-- Between two visits. -/
  | between (s : Search)
  /-- In the block `name`, before the statements `rest` and the terminator. -/
  | inside (name : String) (term : Terminator) (rest : List Stmt) (live : Live) (s : Search)
  /-- At the end of the block `source`, before it arrives at the blocks `next`. -/
  | leaving (source : String) (live : Live) (next : List String) (s : Search)

namespace Stage

/-- The step that the walk takes next, with the stage that it leads to. There is none once
no arrival is pending. -/
inductive Step (t : Target) (f : Func) : Stage → Report Stage → Prop
  | enter (entry : Table Live) (a : Arrival) (rest : List Arrival) :
      Step t f (between ⟨entry, a :: rest⟩) do
        let block ← (Report.silent (orIllFormed (f.blocks.get? a.block))).blame
          (.undeclaredBlock a.block)
        return inside a.block block.terminator block.statements a.live ⟨entry, rest⟩
  | statement (name : String) (term : Terminator) (s : Stmt) (ss : List Stmt) (live : Live)
      (search : Search) : Step t f (inside name term (s :: ss) live search) do
        let after ← (Report.silent (s.check t f.locals live)).blame
          (.illFormedStatement name s.kind)
        return inside name term ss after search
  | terminator (name : String) (term : Terminator) (live : Live) (search : Search) :
      Step t f (inside name term [] live search) do
        let next ← (Report.silent (term.successors t live)).blame
          (.illFormedTerminator name term.kind)
        return leaving name live next search
  | arrive (source : String) (live : Live) (b : String) (next : List String) (search : Search) :
      Step t f (leaving source live (b :: next) search) do
        let search ← search.arrive source live b
        return leaving source live next search
  | leave (source : String) (live : Live) (search : Search) :
      Step t f (leaving source live [] search) (pure (between search))

/-- The stages that steps lead to from the stage `p`. -/
inductive Steps (t : Target) (f : Func) (p : Stage) : Stage → Prop
  | refl : Steps t f p p
  | tail {q q' : Stage} {r : Report Stage} :
      Steps t f p q → Step t f q r → r.result = .ok q' → Steps t f p q'

variable {t : Target} {f : Func} {p q : Stage} {r : Report Stage} {live : Live}

theorem Step.quiet (h : Step t f p r) : r.Quiet := by
  have blamed {α : Type} (c : Checked α) (m : Message) (g : α → Stage) :
      ((Report.silent c).blame m >>= fun a => (pure (g a) : Report Stage)).Quiet :=
    ((Report.quiet_silent c).blame m).bind fun _ => Report.quiet_pure _
  cases h with
  | enter | statement | terminator => exact blamed _ _ _
  | arrive source live b next search =>
    refine Report.Quiet.bind ?_ fun _ => Report.quiet_pure _
    unfold Search.arrive
    split
    · exact Report.quiet_pure _
    · exact ((Report.quiet_silent _).blame _).bind fun _ => Report.quiet_pure _
  | leave => exact Report.quiet_pure _

/-! ### What is still to do -/

/-- All that the walk still has to do. -/
def finish (t : Target) (f : Func) : Stage → Report (Table Live)
  | between s => f.explore t s
  | inside name term rest live search => do
    let after ← f.through t name rest live
    let next ← (Report.silent (term.successors t after)).blame (.illFormedTerminator name term.kind)
    let search ← next.foldlM (Search.arrive name after) search
    f.explore t search
  | leaving source live next search => do
    let search ← next.foldlM (Search.arrive source live) search
    f.explore t search

/-- What is still to do is the next step, and what is still to do after it. -/
theorem Step.finish_eq (h : Step t f p r) : p.finish t f = r >>= finish t f := by
  cases h with
  | enter => simp only [finish, explore_cons, visit, bind_assoc, pure_bind]
  | statement => simp only [finish, through, List.foldlM_cons, bind_assoc, pure_bind]
  | terminator => simp only [finish, through, List.foldlM_nil, bind_assoc, pure_bind]
  | arrive => simp only [finish, List.foldlM_cons, bind_assoc, pure_bind]
  | leave => simp only [finish, List.foldlM_nil, pure_bind]

/-- A walk that comes to a later stage does from there on what is still to do there. -/
theorem Steps.finish_eq (h : Steps t f p q) : p.finish t f = q.finish t f := by
  induction h with
  | refl => rfl
  | tail _ hstep hr ih => rw [ih, hstep.finish_eq, hstep.quiet.bind_eq hr]

/-! ### The end of a walk -/

/-- The walk ends at a stage, with a report: no arrival is pending, or the next step fails. -/
inductive Ends (t : Target) (f : Func) : Stage → Report (Table Live) → Prop
  | done (entry : Table Live) : Ends t f (between ⟨entry, []⟩) (pure entry)
  | stopped {p : Stage} {r : Report Stage} {e : Fault} :
      Step t f p r → r.result = .error e → Ends t f p ⟨.error e, r.log⟩

theorem done_or_step (p : Stage) :
    (∃ entry, p = between ⟨entry, []⟩) ∨ ∃ r, Step t f p r := by
  cases p with
  | between s =>
    obtain ⟨entry, pending⟩ := s
    cases pending with
    | nil => exact .inl ⟨entry, rfl⟩
    | cons a rest => exact .inr ⟨_, .enter entry a rest⟩
  | inside name term rest live search =>
    cases rest with
    | nil => exact .inr ⟨_, .terminator name term live search⟩
    | cons s ss => exact .inr ⟨_, .statement name term s ss live search⟩
  | leaving source live next search =>
    cases next with
    | nil => exact .inr ⟨_, .leave source live search⟩
    | cons b next => exact .inr ⟨_, .arrive source live b next search⟩

def rank (f : Func) : Stage → Nat × Nat × Nat
  | between s => (f.work s, 0, 0)
  | inside _ _ rest _ s => (f.work s, 2, rest.length)
  | leaving _ _ next s => (f.work s, 1, next.length)

abbrev Below : Nat × Nat × Nat → Nat × Nat × Nat → Prop :=
  Prod.Lex (· < ·) (Prod.Lex (· < ·) (· < ·))

theorem below_wf : WellFounded Below :=
  (Prod.lex Nat.lt_wfRel (Prod.lex Nat.lt_wfRel Nat.lt_wfRel)).wf

theorem Step.below (h : Step t f p r) (hr : r.result = .ok q) : Below (q.rank f) (p.rank f) := by
  cases h with
  | enter entry a rest =>
    obtain ⟨block, hb, hq⟩ := Report.result_bind_eq_ok.1 hr
    cases hq
    rw [Report.result_blame, Report.result_silent, orIllFormed_eq_ok] at hb
    have hdeclared : a.block ∈ f.blocks := Table.mem_of_get? hb
    refine .left _ _ ?_
    simp [work, hdeclared]
  | statement name term s ss here search =>
    obtain ⟨after, _, hq⟩ := Report.result_bind_eq_ok.1 hr
    cases hq
    exact .right _ (.right _ (Nat.lt_succ_self _))
  | terminator name term here search =>
    obtain ⟨next, _, hq⟩ := Report.result_bind_eq_ok.1 hr
    cases hq
    exact .right _ (.left _ _ (by decide))
  | arrive source here b next search =>
    obtain ⟨s, hs, hq⟩ := Report.result_bind_eq_ok.1 hr
    cases hq
    -- an arrival adds no work, so one successor fewer counts
    rcases Nat.lt_or_eq_of_le (work_arrive (f := f) hs) with hlt | heq
    · exact .left _ _ hlt
    · simp only [rank, heq]
      exact .right _ (.right _ (Nat.lt_succ_self _))
  | leave source here search =>
    cases hr
    exact .right _ (.left _ _ (by decide))

theorem Steps.head {q' : Stage} (h : Step t f p r) (hr : r.result = .ok q) (hs : Steps t f q q') :
    Steps t f p q' := by
  induction hs with
  | refl => exact .tail .refl h hr
  | tail _ hstep hr ih => exact .tail ih hstep hr

/-- From every stage the walk comes to an end, with the report of all that is to do. -/
theorem exists_ends (p : Stage) : ∃ q, Steps t f p q ∧ q.Ends t f (p.finish t f) := by
  induction hn : p.rank f using below_wf.induction generalizing p with
  | _ n ih =>
  rcases p.done_or_step (t := t) (f := f) with ⟨entry, rfl⟩ | ⟨r, h⟩
  · rw [finish, explore_nil]
    exact ⟨_, .refl, .done entry⟩
  · rw [h.finish_eq]
    cases hr : r.result with
    | error e =>
      rw [Report.bind_of_error hr]
      exact ⟨p, .refl, .stopped h hr⟩
    | ok q =>
      rw [h.quiet.bind_eq hr]
      obtain ⟨last, hs, hend⟩ := ih _ (hn ▸ h.below hr) q rfl
      exact ⟨last, .head h hr hs, hend⟩

/-! ### Live locals held at a stage -/

/-- The live locals held at a stage: those of the search, and those at the point in a block. -/
def Holds : Stage → Live → Prop
  | between s, live => s.Holds live
  | inside _ _ _ here s, live => live = here ∨ s.Holds live
  | leaving _ here _ s, live => live = here ∨ s.Holds live

/-- After a step nothing new is held, but for what a statement makes of what was held. -/
theorem Step.holds (h : Step t f p r) (hr : r.result = .ok q) (hl : q.Holds live) :
    p.Holds live ∨
      ∃ (s : Stmt) (here : Live), p.Holds here ∧ s.check t f.locals here = .ok live := by
  cases h with
  | enter entry a rest =>
    obtain ⟨block, _, hq⟩ := Report.result_bind_eq_ok.1 hr
    cases hq
    rcases hl with rfl | ⟨name, hn⟩ | ⟨b, hb, rfl⟩
    · exact .inl (.inr ⟨a, .head _, rfl⟩)
    · exact .inl (.inl ⟨name, hn⟩)
    · exact .inl (.inr ⟨b, .tail _ hb, rfl⟩)
  | statement name term s ss here search =>
    obtain ⟨after, hs, hq⟩ := Report.result_bind_eq_ok.1 hr
    cases hq
    rw [Report.result_blame, Report.result_silent] at hs
    rcases hl with rfl | hl
    · exact .inr ⟨s, here, .inl rfl, hs⟩
    · exact .inl (.inr hl)
  | terminator name term here search =>
    obtain ⟨next, _, hq⟩ := Report.result_bind_eq_ok.1 hr
    cases hq
    exact .inl hl
  | arrive source here b next search =>
    obtain ⟨s, hs, hq⟩ := Report.result_bind_eq_ok.1 hr
    cases hq
    rcases hl with rfl | hl
    · exact .inl (.inl rfl)
    · exact .inl (Search.holds_of_arrive hs hl)
  | leave source here search =>
    cases hr
    exact .inl (.inr hl)

/-- What statements keep holds of all live locals that are ever held, if it holds of those
held first. -/
theorem Steps.holds {P : Live → Prop} (h : Steps t f p q) (hp : ∀ live, p.Holds live → P live)
    (hs : ∀ (s : Stmt) here live, P here → s.check t f.locals here = .ok live → P live) :
    ∀ live, q.Holds live → P live := by
  induction h with
  | refl => exact hp
  | tail _ hstep hr ih =>
    intro live hl
    rcases hstep.holds hr hl with hl | ⟨s, here, hhere, hcheck⟩
    · exact ih live hl
    · exact hs s here live (ih here hhere) hcheck

end Stage

end PlaceIR

import Mathlib.Data.List.Perm.Subperm
import PlaceIR.Proofs.Func.Stages

/-! The pending arrivals over a whole walk. They are a queue: what was ever added to it has
been taken off or is still pending, in this order. A block is added when it is recorded and
no block is recorded twice, so none is added twice. Blocks that are not declared may be added
as well, but the first of them to be taken off ends the walk; so the walk takes off no more
blocks than are declared, and one. -/

namespace PlaceIR

open Func

namespace Stage

variable {t : Target} {f : Func} {start : Live} {past : List Stage} {p q q' : Stage}
  {r : Report Stage}

def search : Stage → Search
  | between s => s
  | inside _ _ _ _ s => s
  | leaving _ _ _ s => s

/-- The block that the next step takes off the pending arrivals, whether or not it can be
entered. -/
def taken : Stage → List String
  | between ⟨_, a :: _⟩ => [a.block]
  | _ => []

def added : Stage → List String
  | leaving _ _ (b :: _) s => if b ∈ s.entry then [] else [b]
  | _ => []

/-- The walk that was at the stage `p` has taken a step from each of the stages `past`, in
this order, and is at the stage `q`. -/
inductive Run (t : Target) (f : Func) (p : Stage) : List Stage → Stage → Prop
  | start : Run t f p [] p
  | step {past : List Stage} {q q' : Stage} {r : Report Stage} :
      Run t f p past q → Step t f q r → r.result = .ok q' → Run t f p (past ++ [q]) q'

theorem Run.steps (h : Run t f p past q) : Steps t f p q := by
  induction h with
  | start => exact .refl
  | step _ hstep hr ih => exact .tail ih hstep hr

theorem Run.append_steps (h : Run t f p past q) (hs : Steps t f q q') :
    ∃ rest, Run t f p (past ++ rest) q' := by
  induction hs with
  | refl => exact ⟨[], by simpa using h⟩
  | @tail q₁ _ _ _ hstep hr ih =>
    obtain ⟨rest, hrest⟩ := ih
    exact ⟨rest ++ [q₁], by simpa using hrest.step hstep hr⟩

/-! ### The queue -/

/-- What holds of the pending arrivals once steps were taken from the stages `past`. -/
structure Queued (f : Func) (past : List Stage) (p : Stage) : Prop where
  queue : f.start :: past.flatMap added = past.flatMap taken ++ p.search.pending.map (·.block)
  recorded : p.search.entry.keys = f.start :: past.flatMap added
  live : ∀ a ∈ p.search.pending, p.search.entry.get? a.block = some a.live
  declared : ∀ b ∈ past.flatMap taken, b ∈ f.blocks

theorem Queued.begin : Queued f [] (.between (Search.begin f.start start)) where
  queue := rfl
  recorded := rfl
  live := List.forall_mem_singleton.2 (Table.get?_insert_self ..)
  declared := nofun

/-- A step that neither takes off nor adds leaves the queue as it is. -/
theorem Queued.same (h : Queued f past p) (hs : q.search = p.search) (ht : p.taken = [])
    (ha : p.added = []) : Queued f (past ++ [p]) q where
  queue := by simpa [hs, ht, ha] using h.queue
  recorded := by simpa [hs, ha] using h.recorded
  live := hs ▸ h.live
  declared := by simpa [ht] using h.declared

theorem Queued.enter {entry : Table Live} {a : Arrival} {rest : List Arrival} {block : Block}
    (h : Queued f past (.between ⟨entry, a :: rest⟩)) (hb : f.blocks.get? a.block = some block) :
    Queued f (past ++ [.between ⟨entry, a :: rest⟩])
      (.inside a.block block.terminator block.statements a.live ⟨entry, rest⟩) where
  queue := by simpa [taken, added, search] using h.queue
  recorded := by simpa [added, search] using h.recorded
  live := fun b hb => h.live b (.tail _ hb)
  declared := by
    have hdeclared : a.block ∈ f.blocks := Table.mem_of_get? hb
    intro b hb
    rw [List.flatMap_append, List.mem_append] at hb
    rcases hb with hb | hb
    · exact h.declared b hb
    · obtain rfl : b = a.block := by simpa [taken] using hb
      exact hdeclared

theorem Queued.arrive {source b : String} {here : Live} {next : List String} {s s' : Search}
    (h : Queued f past (.leaving source here (b :: next) s))
    (hs : (s.arrive source here b).result = .ok s') :
    Queued f (past ++ [.leaving source here (b :: next) s]) (.leaving source here next s') := by
  have harrived := Search.arrived_of_arrive hs
  have hlive : ∀ a ∈ s'.pending, s'.entry.get? a.block = some a.live := by
    intro a ha
    rcases harrived.pending_new a ha with ha | ha
    · exact harrived.entry_sub _ _ (h.live a ha)
    · exact ha
  rcases Search.arrive_eq_ok.1 hs with ⟨hnone, rfl⟩ | ⟨recorded, hr, _, rfl⟩
  · have hnew : b ∉ s.entry := Table.get?_eq_none_iff.1 hnone
    have hadded : (Stage.leaving source here (b :: next) s).added = [b] := if_neg hnew
    refine ⟨?_, ?_, hlive, ?_⟩
    · simpa [hadded, taken, search] using congrArg (· ++ [b]) h.queue
    · simpa [hadded, search, Table.keys_insert, hnew] using congrArg (· ++ [b]) h.recorded
    · simpa [taken] using h.declared
  · have hadded : (Stage.leaving source here (b :: next) s').added = [] :=
      if_pos (Table.mem_of_get? hr)
    exact h.same rfl rfl hadded

/-- A step keeps the queue. -/
theorem Queued.step (h : Queued f past p) (hstep : Step t f p r) (hr : r.result = .ok q) :
    Queued f (past ++ [p]) q := by
  cases hstep with
  | enter entry a rest =>
    obtain ⟨block, hb, hq⟩ := Report.result_bind_eq_ok.1 hr
    cases hq
    rw [Report.result_blame, Report.result_silent, orIllFormed_eq_ok] at hb
    exact h.enter hb
  | statement name term s ss here search =>
    obtain ⟨after, _, hq⟩ := Report.result_bind_eq_ok.1 hr
    cases hq
    exact h.same rfl rfl rfl
  | terminator name term here search =>
    obtain ⟨next, _, hq⟩ := Report.result_bind_eq_ok.1 hr
    cases hq
    exact h.same rfl rfl rfl
  | arrive source here b next search =>
    obtain ⟨s, hs, hq⟩ := Report.result_bind_eq_ok.1 hr
    cases hq
    exact h.arrive hs
  | leave source here search =>
    cases hr
    exact h.same rfl rfl rfl

theorem Run.queued (h : Run t f (.between (Search.begin f.start start)) past p) :
    Queued f past p := by
  induction h with
  | start => exact .begin
  | step _ hstep hr ih => exact ih.step hstep hr

theorem Queued.nodup (h : Queued f past p) : (f.start :: past.flatMap added).Nodup :=
  h.recorded ▸ p.search.entry.nodup

/-- The blocks taken off so far are declared, and no two are the same. -/
theorem Queued.length_taken_le (h : Queued f past p) :
    (past.flatMap taken).length ≤ f.blocks.keys.length := by
  have hnodup : (past.flatMap taken).Nodup := (List.nodup_append.1 (h.queue ▸ h.nodup)).1
  exact (List.subperm_of_subset hnodup h.declared).length_le

theorem length_taken_le_one (p : Stage) : p.taken.length ≤ 1 := by
  unfold taken
  split <;> simp

end Stage

open Stage in
/-- Whatever the function, at each stage of the walk over its blocks: no block was added to
the pending arrivals twice; the live locals that a pending arrival brings are those recorded
for its block; what was ever added is what has been taken off, followed by what is pending;
and no more blocks than are declared, and one, have been taken off once the next step is
taken. From there the walk comes to its end, with the report of the search. -/
theorem pending_once {t : Target} {f : Func} {start : Live} {past : List Stage} {p : Stage}
    (h : Run t f (.between (Search.begin f.start start)) past p) :
    (f.start :: past.flatMap added).Nodup ∧
    (∀ a ∈ p.search.pending, p.search.entry.get? a.block = some a.live) ∧
    f.start :: past.flatMap added = past.flatMap taken ++ p.search.pending.map (·.block) ∧
    ((past ++ [p]).flatMap taken).length ≤ f.blocks.keys.length + 1 ∧
    ∃ rest q, Run t f (.between (Search.begin f.start start)) (past ++ rest) q ∧
      q.Ends t f (f.explore t (Search.begin f.start start)) := by
  have hq := h.queued
  refine ⟨hq.nodup, hq.live, hq.queue, ?_, ?_⟩
  · have := hq.length_taken_le
    have := p.length_taken_le_one
    simp only [List.flatMap_append, List.flatMap_singleton, List.length_append]
    omega
  · have hfinish : f.explore t (Search.begin f.start start) = p.finish t f := h.steps.finish_eq
    obtain ⟨q, hsteps, hend⟩ := p.exists_ends (t := t) (f := f)
    obtain ⟨rest, hrun⟩ := h.append_steps hsteps
    exact ⟨rest, q, hrun, hfinish ▸ hend⟩

/-! ### A jump to nowhere -/

/-- A loop, a block that names another one twice, and a jump to a block that is not declared. -/
def tangled : Func where
  locals := .ofList [("flag", ⟨.bool, 1⟩), ("out", ⟨.bool, 1⟩)]
  args := ["flag"]
  ret := "out"
  blocks := .ofList [
    ("loop", ⟨[], .branch (.ofSlot "flag") "loop" "side"⟩),
    ("side", ⟨[.finalize (.slot "out")], .branch (.ofSlot "flag") "nowhere" "nowhere"⟩)]
  start := "loop"

def tangledEntry : Table Live :=
  (((∅ : Table Live).insert "loop" tangled.entryLive).insert "side" tangled.entryLive).insert
    "nowhere" tangled.entryLive

theorem tangled_run : ∃ past, Stage.Run .default tangled
      (.between (Search.begin tangled.start tangled.entryLive)) past
      (.between ⟨tangledEntry, [⟨"nowhere", tangled.entryLive⟩]⟩) ∧
    past.flatMap Stage.taken = ["loop", "side"] ∧
    past.flatMap Stage.added = ["side", "nowhere"] := by
  have hloop := (Stage.Run.start (t := .default) (f := tangled)
      (p := .between (Search.begin tangled.start tangled.entryLive))).step (.enter ..) rfl
    |>.step (.terminator ..) rfl |>.step (.arrive ..) rfl |>.step (.arrive ..) rfl
    |>.step (.leave ..) rfl
  have hside := hloop.step (.enter ..) rfl |>.step (.statement ..) rfl
    |>.step (.terminator ..) rfl |>.step (.arrive ..) rfl |>.step (.arrive ..) rfl
    |>.step (.leave ..) rfl
  exact ⟨_, hside, rfl, rfl⟩

/-- The jump comes third, with two blocks declared, and is taken off once. -/
theorem tangled_pending : ∃ past p, Stage.Run .default tangled
      (.between (Search.begin tangled.start tangled.entryLive)) past p ∧
    (past ++ [p]).flatMap Stage.taken = ["loop", "side", "nowhere"] ∧
    (tangled.start :: past.flatMap Stage.added).Nodup ∧
    ((past ++ [p]).flatMap Stage.taken).length ≤ tangled.blocks.keys.length + 1 ∧
    ∃ rest q, Stage.Run .default tangled
        (.between (Search.begin tangled.start tangled.entryLive)) (past ++ rest) q ∧
      q.Ends .default tangled
        (tangled.explore .default (Search.begin tangled.start tangled.entryLive)) := by
  obtain ⟨past, hrun, htaken, _⟩ := tangled_run
  obtain ⟨hadded, _, _, hlength, hend⟩ := pending_once hrun
  refine ⟨past, _, hrun, ?_, hadded, hlength, hend⟩
  rw [List.flatMap_append, htaken]
  rfl

end PlaceIR

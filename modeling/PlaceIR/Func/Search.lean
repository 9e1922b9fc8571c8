import PlaceIR.Func.Basic
import PlaceIR.Report

/-! The walk over a function's blocks. Whenever control can arrive at a block, the
locals live on arrival are compared with those recorded for it; the first arrival is
recorded and set down for a visit. A visit takes the recorded locals through the block
and arrives at every successor. Arrivals are visited in the order in which they came,
until none is pending. `work` bounds the visits to come: each makes it smaller. -/

namespace PlaceIR

/-- A block that control can enter, and the locals live there. -/
structure Arrival where
  block : String
  live : Live

structure Search where
  /-- The locals live on entry to each block arrived at so far. -/
  entry : Table Live
  /-- The arrivals that have not been visited. -/
  pending : List Arrival

namespace Search

def begin (start : String) (live : Live) : Search :=
  ⟨(∅ : Table Live).insert start live, [⟨start, live⟩]⟩

/-- Arrive at `block` from the block `source`. Every arrival must bring the same live
locals as the first. -/
def arrive (source : String) (live : Live) (s : Search) (block : String) : Report Search :=
  match s.entry.get? block with
  | none => pure ⟨s.entry.insert block live, s.pending ++ [⟨block, live⟩]⟩
  | some recorded => do
    (Report.silent (require (recorded.Equiv live))).blame (.divergent block source)
    return s

end Search

namespace Func

def through (t : Target) (f : Func) (name : String) (statements : List Stmt) (live : Live) :
    Report Live :=
  statements.foldlM (fun live s =>
    (Report.silent (s.check t f.locals live)).blame (.illFormedStatement name s.kind)) live

/-- Visit the block of an arrival, and arrive at its successors. -/
def visit (t : Target) (f : Func) (a : Arrival) (s : Search) : Report Search := do
  let block ← (Report.silent (orIllFormed (f.blocks.get? a.block))).blame (.undeclaredBlock a.block)
  let live ← f.through t a.block block.statements a.live
  let next ← (Report.silent (block.terminator.successors t live)).blame
    (.illFormedTerminator a.block block.terminator.kind)
  next.foldlM (Search.arrive a.block live) s

def unrecorded (f : Func) (entry : Table Live) : Nat := f.blocks.keys.countP (· ∉ entry)

/-- The number of declared blocks that have not been visited: those not arrived at, and
those of pending arrivals. -/
def work (f : Func) (s : Search) : Nat :=
  f.unrecorded s.entry + s.pending.countP (·.block ∈ f.blocks)

/-! ### A visit makes the work smaller -/

theorem countP_lt {α : Type} {p q : α → Bool} {l : List α} (h : ∀ a ∈ l, p a = true → q a = true)
    {a : α} (ha : a ∈ l) (hp : p a = false) (hq : q a = true) : l.countP p < l.countP q := by
  induction l with
  | nil => cases ha
  | cons b l ih =>
    rw [List.forall_mem_cons] at h
    rw [List.countP_cons, List.countP_cons]
    rcases List.mem_cons.1 ha with rfl | ha
    · have := List.countP_mono_left h.2
      rw [if_neg (by simp [hp]), if_pos hq]; omega
    · have := ih h.2 ha
      by_cases hb : p b = true
      · rw [if_pos hb, if_pos (h.1 hb)]; omega
      · rw [if_neg hb]; split <;> omega

theorem unrecorded_insert_le (f : Func) (entry : Table Live) (block : String) (live : Live) :
    f.unrecorded (entry.insert block live) ≤ f.unrecorded entry :=
  List.countP_mono_left fun k _ hk => by simp_all

theorem unrecorded_insert_lt {f : Func} {entry : Table Live} {block : String} (live : Live)
    (hb : block ∈ f.blocks) (hnew : block ∉ entry) :
    f.unrecorded (entry.insert block live) < f.unrecorded entry :=
  countP_lt (fun k _ hk => by simp_all) hb (by simp) (by simpa using hnew)

theorem work_arrive {f : Func} {source block : String} {live : Live} {s s' : Search}
    (h : (s.arrive source live block).result = .ok s') : f.work s' ≤ f.work s := by
  unfold Search.arrive at h
  split at h
  · rename_i hnone
    cases h
    simp only [work, List.countP_append, List.countP_singleton]
    by_cases hb : block ∈ f.blocks
    · have := unrecorded_insert_lt live hb (Table.get?_eq_none_iff.1 hnone)
      simp only [hb, decide_true, if_true]; omega
    · have := f.unrecorded_insert_le s.entry block live
      simp only [hb, decide_false, Bool.false_eq_true, if_false]; omega
  · rw [Report.result_bind_eq_ok] at h
    obtain ⟨_, _, h⟩ := h
    cases h
    exact Nat.le_refl _

theorem work_arrive_all {f : Func} {source : String} {live : Live} {next : List String}
    {s s' : Search} (h : (next.foldlM (Search.arrive source live) s).result = .ok s') :
    f.work s' ≤ f.work s := by
  induction next generalizing s with
  | nil => cases h; exact Nat.le_refl _
  | cons block next ih =>
    rw [List.foldlM_cons, Report.result_bind_eq_ok] at h
    obtain ⟨s₁, h₁, h₂⟩ := h
    exact Nat.le_trans (ih h₂) (work_arrive h₁)

theorem work_visit {t : Target} {f : Func} {a : Arrival} {entry : Table Live}
    {rest : List Arrival} {s : Search} (h : (f.visit t a ⟨entry, rest⟩).result = .ok s) :
    f.work s < f.work ⟨entry, a :: rest⟩ := by
  simp only [visit, Report.result_bind_eq_ok, Report.result_blame, Report.result_silent,
    orIllFormed_eq_ok] at h
  obtain ⟨block, hblock, live, _, next, _, h⟩ := h
  have hle := work_arrive_all (f := f) h
  have : a.block ∈ f.blocks := Table.mem_of_get? hblock
  simp only [work, List.countP_cons, this, decide_true, if_true] at hle ⊢
  omega

/-- Visit the pending arrivals, first come first, until none is left. Gives the locals
live on entry to each block. -/
def explore (t : Target) (f : Func) : Search → Report (Table Live)
  | ⟨entry, []⟩ => pure entry
  | ⟨entry, a :: rest⟩ => do
    let ⟨s, _⟩ ← (f.visit t a ⟨entry, rest⟩).attach
    f.explore t s
termination_by s => f.work s
decreasing_by exact work_visit (by assumption)

theorem explore_nil (t : Target) (f : Func) (entry : Table Live) :
    f.explore t ⟨entry, []⟩ = pure entry := by
  rw [explore]

/-- The first pending arrival is visited, then the others and those that it led to. -/
theorem explore_cons (t : Target) (f : Func) (entry : Table Live) (a : Arrival)
    (rest : List Arrival) :
    f.explore t ⟨entry, a :: rest⟩ = f.visit t a ⟨entry, rest⟩ >>= f.explore t := by
  rw [explore]
  exact Report.attach_bind ..

/-- Induction on the visits to come: while arrivals are pending, what is to be shown may be
used after a visit of the first. -/
theorem visit_induction (t : Target) (f : Func) {motive : Search → Prop}
    (done : ∀ entry, motive ⟨entry, []⟩)
    (visit : ∀ entry a rest, (∀ s, (f.visit t a ⟨entry, rest⟩).result = .ok s → motive s) →
      motive ⟨entry, a :: rest⟩) (s : Search) : motive s := by
  induction hn : f.work s using Nat.strongRecOn generalizing s with
  | ind n ih =>
  obtain ⟨entry, pending⟩ := s
  cases pending with
  | nil => exact done entry
  | cons a rest => exact visit entry a rest fun s hs => ih _ (hn ▸ work_visit hs) s rfl

end Func

end PlaceIR

import PlaceIR.Proofs.Func.Stages

/-! The live locals that a check ever holds. Once the declared locals and those of the entry
have passed, every map of live locals, at every stage of the walk, is part of the table of
declared locals. So two such maps bind alike if they name the same locals, and an arrival is
rejected exactly if it brings other names than are recorded. -/

namespace PlaceIR

open Func

variable {t : Target} {f : Func} {start : Live} {p : Stage}

theorem Search.holds_begin {live : Live} (h : (Search.begin f.start start).Holds live) :
    live = start := by
  rcases h with ⟨name, hn⟩ | ⟨a, ha, rfl⟩
  · exact (Search.eq_of_get?_begin hn).2
  · rw [List.mem_singleton.1 ha]

/-- From the declared locals that are live on entry no step leads away from the declared
locals. -/
theorem Stage.Steps.sub_locals (hstart : f.initialLive.result = .ok start)
    (h : Stage.Steps t f (.between (Search.begin f.start start)) p) :
    ∀ live, p.Holds live → live.Sub f.locals := by
  refine h.holds (fun live hl => ?_) fun s here live hhere hcheck => Stmt.check_sub hcheck hhere
  obtain ⟨_, _, rfl⟩ := initialLive_eq_ok.1 hstart
  rw [Search.holds_begin hl]
  exact Table.restrict_sub f.locals _

/-- Once the locals and the entry have passed, at each stage that the walk over the blocks
comes to before it ends, with whatever report: a live local is declared, with just this
place type, which is well-formed; two maps of live locals bind alike if they name the same
locals; and an arrival at a block is rejected if and only if it brings other names than are
recorded there. -/
theorem held_declared (hlocals : (f.checkLocals t).result = .ok ())
    (hstart : f.initialLive.result = .ok start)
    (h : Stage.Steps t f (.between (Search.begin f.start start)) p) :
    (∃ q, Stage.Steps t f p q ∧ q.Ends t f (f.explore t (Search.begin f.start start))) ∧
    (∀ live, p.Holds live → ∀ name place, live.get? name = some place →
      f.locals.get? name = some place ∧ place.check t = .ok ()) ∧
    (∀ live live', p.Holds live → p.Holds live' →
      (live.Equiv live' ↔ ∀ name, name ∈ live ↔ name ∈ live')) ∧
    ∀ source live b next s recorded, p = .leaving source live (b :: next) s →
      s.entry.get? b = some recorded →
      ((s.arrive source live b).result = .error .illFormed ↔
        ∃ name, ¬ (name ∈ recorded ↔ name ∈ live)) := by
  have hsub := h.sub_locals hstart
  have hequiv : ∀ live live', p.Holds live → p.Holds live' →
      (live.Equiv live' ↔ ∀ name, name ∈ live ↔ name ∈ live') :=
    fun live live' hl hl' => (hsub live hl).equiv_iff_mem (hsub live' hl')
  have hend : f.explore t (Search.begin f.start start) = p.finish t f := h.finish_eq
  refine ⟨hend ▸ p.exists_ends, ?_, hequiv, ?_⟩
  · intro live hl name place hplace
    have hdeclared := hsub live hl name place hplace
    exact ⟨hdeclared, checkLocals_eq_ok.1 hlocals name place hdeclared⟩
  · rintro source live b next s recorded rfl hrecorded
    have hnames := hequiv recorded live (.inr (.inl ⟨b, hrecorded⟩)) (.inl rfl)
    rw [Search.arrive_eq_error, ← Classical.not_forall, ← hnames]
    simp [hrecorded]

/-! ### A local left alive in a loop -/

/-- Each round begins the storage of the same local, and none ends it. -/
def drifting : Func where
  locals := .ofList [("flag", ⟨.bool, 1⟩), ("extra", ⟨.u32, 4⟩), ("out", ⟨.bool, 1⟩)]
  args := ["flag"]
  ret := "out"
  blocks := .ofList [
    ("loop", ⟨[.storageLive "extra"], .branch (.ofSlot "flag") "loop" "done"⟩),
    ("done", ⟨[], .ret⟩)]
  start := "loop"

def driftingAfter : Live := drifting.entryLive.insert "extra" ⟨.u32, 4⟩

def driftingStage : Stage :=
  .leaving "loop" driftingAfter ["loop", "done"]
    ⟨(∅ : Table Live).insert "loop" drifting.entryLive, []⟩

theorem drifting_steps : Stage.Steps .default drifting
    (.between (Search.begin drifting.start drifting.entryLive)) driftingStage := by
  refine .tail (.tail (.tail .refl (.enter ..) rfl) (.statement ..) rfl) (.terminator ..) rfl

/-- The check comes to the end of the first round, and ends with a rejection. -/
theorem drifting_held : (drifting.checkLocals .default).result = .ok () ∧
    drifting.initialLive.result = .ok drifting.entryLive ∧
    (∃ q, Stage.Steps .default drifting driftingStage q ∧ q.Ends .default drifting
      (drifting.explore .default (Search.begin drifting.start drifting.entryLive))) ∧
    (drifting.check .default).result = .error .illFormed ∧
    drifting.locals.get? "extra" = some ⟨.u32, 4⟩ ∧
    PlaceType.check .default ⟨.u32, 4⟩ = .ok () ∧
    ∃ name, ¬ (name ∈ drifting.entryLive ↔ name ∈ driftingAfter) := by
  have hlocals : (drifting.checkLocals .default).result = .ok () := rfl
  have hstart : drifting.initialLive.result = .ok drifting.entryLive := rfl
  obtain ⟨hend, hdeclared, _, harrive⟩ := held_declared hlocals hstart drifting_steps
  have hfinish : drifting.explore .default (Search.begin drifting.start drifting.entryLive) =
      driftingStage.finish .default drifting := drifting_steps.finish_eq
  have hcheck : (drifting.check .default).result = .error .illFormed := by
    rw [Func.check, Report.bind_of_ok hlocals, Report.bind_of_ok hstart, hfinish]
    rfl
  have hrejected : (Search.arrive "loop" driftingAfter
      ⟨(∅ : Table Live).insert "loop" drifting.entryLive, []⟩ "loop").result =
        .error .illFormed := rfl
  obtain ⟨hextra, hwell⟩ := hdeclared driftingAfter (.inl rfl) "extra" _ (Table.get?_insert_self ..)
  refine ⟨hlocals, hstart, hend, hcheck, hextra, hwell, ?_⟩
  exact (harrive _ _ _ _ _ _ rfl rfl).1 hrejected

end PlaceIR

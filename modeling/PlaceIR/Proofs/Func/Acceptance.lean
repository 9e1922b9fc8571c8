import PlaceIR.Build
import PlaceIR.Proofs.Func.Exploration

/-! Acceptance. A function is accepted exactly if all its walks go well, in whatever order
its blocks are visited, and the recorded locals are those that the walks bring. -/

namespace PlaceIR.Func

variable {t : Target} {f : Func} {o : Order} {entry : Table Live}

/-! ### The steps of the check -/

theorem checkLocals_eq_ok : (f.checkLocals t).result = .ok () ↔
    ∀ name place, f.locals.get? name = some place → place.check t = .ok () := by
  rw [checkLocals, Report.result_forM, forM_eq_ok, Table.forall_get?_iff]
  simp only [Report.result_blame, Report.result_silent]

theorem bindOnEntry_eq_ok {name : String} {live live' : Live} :
    (f.bindOnEntry live name).result = .ok live' ↔ ∃ place, f.locals.get? name = some place ∧
      name ∉ live ∧ live.insert name place = live' := by
  simp only [bindOnEntry, Report.result_bind_eq_ok, Report.result_blame, Report.result_silent,
    orIllFormed_eq_ok, require_eq_ok, Report.result_pure, Except.ok.injEq, exists_const]

/-- Names come alive one after another if all are declared and none is alive already. -/
theorem foldlM_bindOnEntry_eq_ok {names : List String} {live live' : Live} :
    (names.foldlM f.bindOnEntry live).result = .ok live' ↔ names.Nodup ∧
      (∀ name ∈ names, name ∈ f.locals ∧ name ∉ live) ∧ names.foldl f.locals.takeOver live = live' := by
  induction names generalizing live with
  | nil => simp
  | cons k names ih =>
    rw [List.foldlM_cons, Report.result_bind_eq_ok, List.nodup_cons, List.forall_mem_cons,
      List.foldl_cons, Table.mem_iff_exists_get?]
    constructor
    · rintro ⟨mid, hk, hnames⟩
      obtain ⟨place, hp, hu, rfl⟩ := bindOnEntry_eq_ok.1 hk
      obtain ⟨hnodup, hdecl, hl⟩ := ih.1 hnames
      have hk' : k ∉ names := fun hmem => (hdecl k hmem).2 (Table.mem_insert.2 (.inl rfl))
      rw [Table.takeOver_of_get? hp]
      refine ⟨⟨hk', hnodup⟩, ⟨⟨⟨place, hp⟩, hu⟩, fun name hn => ⟨(hdecl name hn).1, ?_⟩⟩, hl⟩
      exact fun hmem => (hdecl name hn).2 (Table.mem_insert.2 (.inr hmem))
    · rintro ⟨⟨hk, hnodup⟩, ⟨⟨⟨place, hp⟩, hu⟩, hdecl⟩, hl⟩
      rw [Table.takeOver_of_get? hp] at hl
      refine ⟨_, bindOnEntry_eq_ok.2 ⟨place, hp, hu, rfl⟩, ih.2 ⟨hnodup, ?_, hl⟩⟩
      intro name hn
      refine ⟨(hdecl name hn).1, fun hmem => ?_⟩
      rcases Table.mem_insert.1 hmem with rfl | hmem
      · exact hk hn
      · exact (hdecl name hn).2 hmem

/-- The arguments and the return local come alive if all are declared and none is named twice. -/
theorem initialLive_eq_ok {live : Live} : f.initialLive.result = .ok live ↔
    (f.args ++ [f.ret]).Nodup ∧ (∀ name ∈ f.args ++ [f.ret], name ∈ f.locals) ∧
      f.entryLive = live := by
  rw [initialLive, foldlM_bindOnEntry_eq_ok, entryLive, Table.restrict]
  refine and_congr_right fun _ => and_congr_left fun _ => ?_
  exact forall₂_congr fun name _ => and_iff_left (Table.not_mem_empty name)

theorem checkBy_eq_ok : (f.checkBy t o).result = .ok entry ↔
    (∀ name place, f.locals.get? name = some place → place.check t = .ok ()) ∧
    (f.args ++ [f.ret]).Nodup ∧ (∀ name ∈ f.args ++ [f.ret], name ∈ f.locals) ∧
    (f.exploreBy t o [] (Search.begin f.start f.entryLive)).result = .ok entry ∧
    ∀ name ∈ f.blocks, name ∈ entry := by
  have hreached : f.blocks.keys.filter (· ∉ entry) = [] ↔ ∀ name ∈ f.blocks, name ∈ entry := by
    rw [List.filter_eq_nil_iff]
    simp [Table.mem_iff_mem_keys]
  rw [checkBy, Report.result_bind, seq_eq_ok, checkLocals_eq_ok, Report.result_bind_eq_ok, ← hreached]
  refine and_congr_right fun _ => ?_
  constructor
  · rintro ⟨live, hl, h⟩
    obtain ⟨hnodup, hdecl, rfl⟩ := initialLive_eq_ok.1 hl
    obtain ⟨entry', he, h⟩ := Report.result_bind_eq_ok.1 h
    obtain ⟨hr, h⟩ := Report.result_require_bind_eq_ok.1 h
    cases h
    exact ⟨hnodup, hdecl, he, hr⟩
  · rintro ⟨hnodup, hdecl, he, hr⟩
    refine ⟨_, initialLive_eq_ok.2 ⟨hnodup, hdecl, rfl⟩, Report.result_bind_eq_ok.2 ⟨entry, he, ?_⟩⟩
    exact Report.result_require_bind_eq_ok.2 ⟨hr, rfl⟩

/-! ### Accepted functions -/

theorem explored_of_checkBy (h : (f.checkBy t o).result = .ok entry) :
    Explored t f ⟨entry, []⟩ := by
  obtain ⟨_, _, _, he, _⟩ := checkBy_eq_ok.1 h
  rcases exploreBy_outcome o [] Explored.begin with ⟨entry', he', hx⟩ | ⟨_, _, _, e, _, _, he'⟩
  · rw [he, Except.ok.injEq] at he'
    exact he' ▸ hx
  · rw [he] at he'
    cases he'

theorem settled_of_checkBy (h : (f.checkBy t o).result = .ok entry) {name : String} {live : Live}
    (hl : entry.get? name = some live) : Settled t f entry name live :=
  ((explored_of_checkBy h).settled name live hl).resolve_left List.not_mem_nil

/-- Locals are recorded for the declared blocks, and no others. -/
theorem mem_entry_iff (h : (f.checkBy t o).result = .ok entry) {name : String} :
    name ∈ entry ↔ name ∈ f.blocks := by
  constructor
  · intro hn
    obtain ⟨live, hl⟩ := Table.mem_iff_exists_get?.1 hn
    obtain ⟨_, hb, _⟩ := settled_of_checkBy h hl
    exact Table.mem_of_get? hb
  · obtain ⟨_, _, _, _, hr⟩ := checkBy_eq_ok.1 h
    exact hr name

/-- In an accepted function all walks go well. -/
theorem sound_of_checkBy (h : (f.checkBy t o).result = .ok entry) : f.Sound t := by
  obtain ⟨hlocals, hnodup, hdecl, _, hreached⟩ := checkBy_eq_ok.1 h
  have hx := explored_of_checkBy h
  refine ⟨hlocals, hnodup, hdecl, ?_, ?_, ?_⟩
  · intro path name live hw
    obtain ⟨r, hr, hl⟩ := hx.walk_recorded hw
    exact (settled_of_checkBy h hr).passable.congr hl
  · intro path path' name live live' hw hw'
    obtain ⟨r, hr, hl⟩ := hx.walk_recorded hw
    obtain ⟨r', hr', hl'⟩ := hx.walk_recorded hw'
    rw [hr, Option.some.injEq] at hr'
    exact hl.symm.trans (hr' ▸ hl')
  · intro name hn
    obtain ⟨live, hl⟩ := Table.mem_iff_exists_get?.1 (hreached name hn)
    obtain ⟨path, hw⟩ := hx.walk name live hl
    exact ⟨path, live, hw⟩

/-- A function whose walks all go well is accepted, in any order of visits. -/
theorem Sound.exists_checkBy (h : f.Sound t) (o : Order) :
    ∃ entry, (f.checkBy t o).result = .ok entry := by
  rcases exploreBy_outcome o [] Explored.begin with ⟨entry, he, hx⟩ | ⟨_, _, _, _, hx, hv, _⟩
  · refine ⟨entry, checkBy_eq_ok.2 ⟨h.locals_check, h.entry_nodup, h.entry_declared, he, ?_⟩⟩
    intro name hn
    obtain ⟨path, live, hw⟩ := h.reached name hn
    obtain ⟨r, hr, _⟩ := hx.walk_recorded hw
    exact Table.mem_of_get? hr
  · obtain ⟨s, hs⟩ := hx.exists_visit h
    rw [hs] at hv
    cases hv

/-! ### Running the check -/

theorem explore_of_visit {a : Arrival} {rest : List Arrival} {s : Search}
    (h : (f.visit t a ⟨entry, rest⟩).result = .ok s) :
    (f.explore t ⟨entry, a :: rest⟩).result = (f.explore t s).result := by
  rw [explore_cons, Report.bind_of_ok h]

/-- The check, from what its steps give. -/
theorem check_of_explore {live : Live} (hlocals : (f.checkLocals t).result = .ok ())
    (hlive : f.initialLive.result = .ok live)
    (hentry : (f.explore t (Search.begin f.start live)).result = .ok entry)
    (hreached : f.blocks.keys.filter (· ∉ entry) = []) : (f.check t).result = .ok entry := by
  rw [check, Report.bind_of_ok hlocals, Report.bind_of_ok hlive, Report.bind_of_ok hentry]
  simp only [hreached]
  rfl

/-! ### The criterion -/

/-- The check accepts exactly the functions whose walks, of any length, all go well. The
locals that it records are those of the declared blocks, and every walk that arrives at a
block brings the locals recorded there. -/
theorem accepted_iff_sound (t : Target) (f : Func) :
    ((∃ entry, (f.check t).result = .ok entry) ↔ f.Sound t) ∧
    ∀ entry, (f.check t).result = .ok entry →
      (∀ name, name ∈ entry ↔ name ∈ f.blocks) ∧
      ∀ path name live, Walk t f path name live →
        ∃ recorded, entry.get? name = some recorded ∧ recorded.Equiv live := by
  rw [check_eq_checkBy]
  refine ⟨⟨?_, fun h => h.exists_checkBy .firstCome⟩, ?_⟩
  · rintro ⟨entry, h⟩
    exact sound_of_checkBy h
  · intro entry h
    exact ⟨fun name => mem_entry_iff h, fun path name live hw =>
      (explored_of_checkBy h).walk_recorded hw⟩

/-- Wait in a loop until the argument is set, then hand it back. -/
def waiting : Func where
  locals := .ofList [("ready", ⟨.bool, 1⟩), ("out", ⟨.bool, 1⟩)]
  args := ["ready"]
  ret := "out"
  blocks := .ofList [
    ("poll", ⟨[], .branch (.ofSlot "ready") "done" "poll"⟩),
    ("done", ⟨[.assign (.slot "out") (.ofSlot "ready")], .ret⟩)]
  start := "poll"

theorem waiting_check : (waiting.check .default).result =
    .ok (((∅ : Table Live).insert "poll" waiting.entryLive).insert "done" waiting.entryLive) := by
  have hlive : waiting.initialLive.result = .ok waiting.entryLive := rfl
  refine check_of_explore rfl hlive ?_ rfl
  refine (explore_of_visit rfl).trans ((explore_of_visit rfl).trans ?_)
  exact congrArg Report.result (explore_nil ..)

/-- The loop goes well however often it is taken. -/
theorem waiting_sound : waiting.Sound .default ∧
    ∃ entry, (waiting.check .default).result = .ok entry ∧ ("done" ∈ entry ↔ "done" ∈ waiting.blocks) ∧
      ∃ recorded, entry.get? "poll" = some recorded ∧ recorded.Equiv waiting.entryLive := by
  obtain ⟨hsound, hentry⟩ := accepted_iff_sound .default waiting
  obtain ⟨hnames, hwalks⟩ := hentry _ waiting_check
  have hloop : Walk .default waiting ["poll"] "poll" waiting.entryLive :=
    .step .start rfl rfl (.tail _ (.head _))
  exact ⟨hsound.1 ⟨_, waiting_check⟩, _, waiting_check, hnames "done", hwalks _ _ _ hloop⟩

end PlaceIR.Func

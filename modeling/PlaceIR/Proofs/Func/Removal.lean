import PlaceIR.Session
import PlaceIR.Proofs.Func.Acceptance

/-! Functions that share the blocks that a search comes to. A visit reads nothing but the
declared locals and the block visited, and a visited block is recorded. So the search ends
alike in a function that has the recorded blocks, whatever other blocks it has; and a
function is accepted once all the blocks that were not recorded are taken out. -/

namespace PlaceIR.Func

variable {t : Target} {f g : Func} {a : Arrival} {s : Search} {entry : Table Live}
  {names : List String}

/-! ### Searches that come to an end -/

/-- Induction on the visits of a search that ends with `entry`. -/
theorem explore_ok_induction {motive : Search → Prop} (done : motive ⟨entry, []⟩)
    (visit : ∀ e a rest s, (f.visit t a ⟨e, rest⟩).result = .ok s →
      (f.explore t s).result = .ok entry → motive s → motive ⟨e, a :: rest⟩)
    (h : (f.explore t s).result = .ok entry) : motive s := by
  induction s using visit_induction t f with
  | done e =>
    rw [explore_nil] at h
    cases h
    exact done
  | visit e a rest ih =>
    rw [explore_cons, Report.result_bind_eq_ok] at h
    obtain ⟨s', hv, h'⟩ := h
    exact visit e a rest s' hv h' (ih s' hv h')

theorem sub_of_visit {s' : Search} (h : (f.visit t a s).result = .ok s') : s.entry.Sub s'.entry := by
  obtain ⟨_, _, _, _, _, _, harrive⟩ := visit_eq_ok.1 h
  exact (Search.arrived_of_foldlM harrive).entry_sub

/-- What is recorded stays recorded. -/
theorem sub_of_explore (h : (f.explore t s).result = .ok entry) : s.entry.Sub entry := by
  refine explore_ok_induction (motive := fun s => s.entry.Sub entry) (.refl _) ?_ h
  intro e a rest s hv _ hs
  exact (sub_of_visit hv).trans hs

theorem Explored.of_explore (hx : Explored t f s) (h : (f.explore t s).result = .ok entry) :
    Explored t f ⟨entry, []⟩ := by
  refine explore_ok_induction (motive := fun s => Explored t f s → Explored t f ⟨entry, []⟩)
    id ?_ h hx
  intro e a rest s hv _ hs hx
  exact hs (hx.visit hv)

/-- The recorded blocks are those that walks arrive at. -/
theorem Explored.mem_entry_iff (h : Explored t f ⟨entry, []⟩) {name : String} :
    name ∈ entry ↔ ∃ path live, Walk t f path name live := by
  constructor
  · intro hn
    obtain ⟨live, hl⟩ := Table.mem_iff_exists_get?.1 hn
    obtain ⟨path, hw⟩ := h.walk name live hl
    exact ⟨path, live, hw⟩
  · rintro ⟨path, live, hw⟩
    obtain ⟨r, hr, _⟩ := h.walk_recorded hw
    exact Table.mem_of_get? hr

/-! ### Other blocks -/

theorem visit_congr (hl : f.locals = g.locals)
    (hb : f.blocks.get? a.block = g.blocks.get? a.block) : f.visit t a s = g.visit t a s := by
  simp only [visit, through, hl, hb]

/-- A search ends alike in a function that shares the locals and the blocks recorded. -/
theorem explore_congr (hl : f.locals = g.locals)
    (hb : ∀ b ∈ entry, f.blocks.get? b = g.blocks.get? b) (hx : Explored t f s)
    (h : (f.explore t s).result = .ok entry) : (g.explore t s).result = .ok entry := by
  refine explore_ok_induction
    (motive := fun s => Explored t f s → (g.explore t s).result = .ok entry) ?_ ?_ h hx
  · intro _
    rw [explore_nil]
    rfl
  · intro e a rest s hv hs ih hx
    have hrecorded : s.entry.get? a.block = some a.live :=
      sub_of_visit hv _ _ (hx.pending a (.head _))
    have ha : a.block ∈ entry := Table.mem_of_get? (sub_of_explore hs _ _ hrecorded)
    rw [explore_cons, ← visit_congr hl (hb a.block ha), Report.result_bind_eq_ok]
    exact ⟨s, hv, ih (hx.visit hv)⟩

/-! ### Removed blocks -/

def without (f : Func) (names : List String) : Func :=
  names.foldl (fun f b => f.edit (.eraseBlock b)) f

theorem without_eq (f : Func) (names : List String) :
    f.without names = { f with blocks := names.foldl Table.erase f.blocks } := by
  induction names generalizing f with
  | nil => rfl
  | cons b names ih => exact ih (f.edit (.eraseBlock b))

/-- Without the blocks that were not recorded the function is accepted, with what was
recorded before. -/
theorem check_without (hlocals : (f.checkLocals t).result = .ok ())
    (hlive : f.initialLive.result = .ok f.entryLive)
    (hentry : (f.explore t (Search.begin f.start f.entryLive)).result = .ok entry)
    (hnames : ∀ b, b ∈ names ↔ b ∈ f.blocks ∧ b ∉ entry) :
    ((f.without names).check t).result = .ok entry := by
  rw [without_eq]
  have hblocks : ∀ b ∈ entry,
      f.blocks.get? b = (names.foldl Table.erase f.blocks).get? b := by
    intro b hb
    have hkept : b ∉ names := fun hn => ((hnames b).1 hn).2 hb
    rw [Table.get?_foldl_erase, if_neg hkept]
  have hreached : ∀ b ∈ names.foldl Table.erase f.blocks, b ∈ entry := by
    intro b hb
    rw [← Table.isSome_get?_iff, Table.get?_foldl_erase] at hb
    split at hb
    · cases hb
    · rename_i hkept
      refine Decidable.byContradiction fun hn => hkept ((hnames b).2 ⟨?_, hn⟩)
      exact Table.isSome_get?_iff.1 hb
  refine check_of_explore hlocals hlive
    (explore_congr (f := f) rfl hblocks Explored.begin hentry) ?_
  rw [List.filter_eq_nil_iff]
  intro b hb
  simpa using hreached b hb

end PlaceIR.Func

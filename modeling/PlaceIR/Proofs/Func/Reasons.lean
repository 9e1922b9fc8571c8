import PlaceIR.Proofs.Func.Removal
import PlaceIR.Proofs.Report

/-! The logged reasons of rejections. A message is logged in the middle of a search, with
most of the function still unseen; yet what it says holds of the function. The blocks that
a search knows were reached by walks on which all checks succeed, and this is what the
message can point to. Only the message about blocks that were not reached speaks of all
walks. It is logged after the search has come to its end, so that it is exact, and the
blocks that it names are all that keeps the function from being accepted. -/

namespace PlaceIR.Func

variable {t : Target} {f : Func} {path : List String} {name : String} {live : Live}
  {a : Arrival} {s s' : Search} {entry : Table Live}

/-! ### Walks on which all checks succeed -/

/-- A walk that has passed the blocks of `path`, whose statements and terminators all check,
and arrives at the block `name` with the live locals `live`. -/
inductive CleanWalk (t : Target) (f : Func) : List String → String → Live → Prop
  | start : CleanWalk t f [] f.start f.entryLive
  | step {path names : List String} {name next : String} {live after : Live} {block : Block} :
      CleanWalk t f path name live → f.blocks.get? name = some block →
      Stmt.thread t f.locals block.statements live = .ok after →
      block.terminator.successors t after = .ok names → next ∈ names →
      CleanWalk t f (path ++ [name]) next after

theorem CleanWalk.walk (h : CleanWalk t f path name live) : Walk t f path name live := by
  induction h with
  | start => exact .start
  | step _ hb hthread hnames hnext ih =>
    rw [Terminator.successors_eq_targets hnames] at hnext
    exact .step ih hb hthread hnext

/-- All that is recorded was brought by such walks. -/
def Traced (t : Target) (f : Func) (entry : Table Live) : Prop :=
  ∀ name live, entry.get? name = some live → ∃ path, CleanWalk t f path name live

theorem Traced.begin : Traced t f (Search.begin f.start f.entryLive).entry := by
  intro name live h
  obtain ⟨rfl, rfl⟩ := Search.eq_of_get?_begin h
  exact ⟨[], .start⟩

/-- A visit of a recorded block records only what walks through the block bring. -/
theorem Traced.visit (h : Traced t f s.entry) (ha : s.entry.get? a.block = some a.live)
    (hv : (f.visit t a s).result = .ok s') : Traced t f s'.entry := by
  obtain ⟨block, hb, after, hthread, names, hnames, harrive⟩ := visit_eq_ok.1 hv
  have harrived := Search.arrived_of_foldlM harrive
  intro name live hl
  rcases harrived.entry_new name live hl with hl | ⟨hn, rfl, _⟩
  · exact h name live hl
  · obtain ⟨path, hw⟩ := h a.block a.live ha
    exact ⟨path ++ [a.block], .step hw hb hthread hnames hn⟩

/-! ### What messages say -/

/-- What a message says of the function that is rejected with it. -/
def Reason (t : Target) (f : Func) : Message → Prop
  | .illFormedLocal name =>
      ∃ place, f.locals.get? name = some place ∧ place.check t = .error .illFormed
  | .undeclaredOnEntry name => name ∈ f.args ++ [f.ret] ∧ name ∉ f.locals
  | .boundTwice name => 1 < (f.args ++ [f.ret]).count name
  | .undeclaredBlock name => name ∉ f.blocks ∧ ∃ path live, CleanWalk t f path name live
  | .illFormedStatement name kind => ∃ path live block, CleanWalk t f path name live ∧
      f.blocks.get? name = some block ∧ ∃ before s rest here,
      block.statements = before ++ s :: rest ∧ Stmt.thread t f.locals before live = .ok here ∧
      s.check t f.locals here = .error .illFormed ∧ s.kind = kind
  | .illFormedTerminator name kind => ∃ path live block, CleanWalk t f path name live ∧
      f.blocks.get? name = some block ∧ ∃ after,
      Stmt.thread t f.locals block.statements live = .ok after ∧
      block.terminator.successors t after = .error .illFormed ∧ block.terminator.kind = kind
  | .divergent name source => ∃ path path' live live', CleanWalk t f path name live ∧
      CleanWalk t f (path' ++ [source]) name live' ∧ ¬ live.Equiv live'
  | .unreachable names => names.Sublist f.blocks.keys ∧
      (∀ b, b ∈ names ↔ b ∈ f.blocks ∧ ∀ path live, ¬ Walk t f path b live) ∧
      ∃ entry, (f.explore t (Search.begin f.start f.entryLive)).result = .ok entry ∧
        ((f.without names).check t).result = .ok entry
  | .undefinedStart _ | .illFormedFunction _ => False

/-! ### One visit -/

theorem explained_through {block : Block} (hw : CleanWalk t f path name live)
    (hb : f.blocks.get? name = some block) :
    (f.through t name block.statements live).Explained (f.Reason t) := by
  -- the live locals come from the statements before
  refine Report.Explained.foldlM (I := fun done here => Stmt.thread t f.locals done live = .ok here)
    rfl fun before s rest hsplit here hbefore => ⟨?_, fun after hs => ?_⟩
  · refine Report.explained_blame fun hs => ?_
    exact ⟨path, live, block, hw, hb, before, s, rest, here, hsplit, hbefore, hs, rfl⟩
  · rw [Report.result_blame, Report.result_silent] at hs
    have hlast : Stmt.thread t f.locals [s] here = .ok after :=
      Stmt.thread_cons_eq_ok.2 ⟨after, hs, rfl⟩
    exact Stmt.thread_append_eq_ok.2 ⟨here, hbefore, hlast⟩

theorem explained_arrivals {block : Block} {names : List String} {after : Live}
    (htraced : Traced t f s.entry) (hw : CleanWalk t f path name live)
    (hb : f.blocks.get? name = some block)
    (hthread : Stmt.thread t f.locals block.statements live = .ok after)
    (hnames : block.terminator.successors t after = .ok names) :
    (names.foldlM (Search.arrive name after) s).Explained (f.Reason t) := by
  refine Report.Explained.foldlM (I := fun done s' => Search.Arrived after done s s') .nil
    fun done b rest hsplit s' harrived => ⟨?_, fun s'' hs => harrived.append (Search.arrived_of_arrive hs)⟩
  unfold Search.arrive
  split
  · exact Report.explained_pure _
  · rename_i r hr
    refine Report.Explained.blame_bind (fun he => ?_) fun _ _ => Report.explained_pure _
    have hdiffer : ¬ r.Equiv after := (require_eq_error.1 he).1
    have hmem : b ∈ names := by
      rw [hsplit]
      exact List.mem_append_right _ (.head _)
    -- an arrival of the same visit brings the same live locals, so it is an older one
    rcases harrived.entry_new b r hr with hr | ⟨_, rfl, _⟩
    · obtain ⟨path', hw'⟩ := htraced b r hr
      exact ⟨path', path, r, after, hw', .step hw hb hthread hnames hmem, hdiffer⟩
    · exact absurd (Table.Equiv.refl r) hdiffer

theorem explained_visit (htraced : Traced t f s.entry)
    (ha : s.entry.get? a.block = some a.live) : (f.visit t a s).Explained (f.Reason t) := by
  obtain ⟨path, hw⟩ := htraced a.block a.live ha
  refine Report.Explained.blame_bind (fun h => ?_) fun block hb => ?_
  · obtain ⟨hnone, _⟩ := orIllFormed_eq_error.1 h
    exact ⟨Table.get?_eq_none_iff.1 hnone, path, a.live, hw⟩
  rw [orIllFormed_eq_ok] at hb
  refine (explained_through hw hb).bind fun after hthread => ?_
  rw [result_through] at hthread
  refine Report.Explained.blame_bind (fun h => ?_) fun names hnames => ?_
  · exact ⟨path, a.live, block, hw, hb, after, hthread, h, rfl⟩
  · exact explained_arrivals htraced hw hb hthread hnames

/-! ### The whole check -/

theorem explained_explore (hx : Explored t f s) (htraced : Traced t f s.entry) :
    (f.explore t s).Explained (f.Reason t) := by
  induction s using visit_induction t f with
  | done entry =>
    rw [explore_nil]
    exact Report.explained_pure entry
  | visit entry a rest ih =>
    have ha : entry.get? a.block = some a.live := hx.pending a (.head _)
    have hvisit : (f.visit t a ⟨entry, rest⟩).Explained (f.Reason t) := explained_visit htraced ha
    rw [explore_cons]
    refine hvisit.bind fun s' hs => ?_
    have htraced' : Traced t f s'.entry := Traced.visit (s := ⟨entry, rest⟩) htraced ha hs
    exact ih s' hs (hx.visit hs) htraced'

theorem explained_checkLocals : (f.checkLocals t).Explained (f.Reason t) :=
  .forM fun e he => Report.explained_blame fun h => ⟨e.2, Table.get?_eq_some_iff.2 he, h⟩

theorem explained_initialLive : f.initialLive.Explained (f.Reason t) := by
  refine Report.Explained.foldlM (I := fun done live => ∀ name, name ∈ live → name ∈ done)
    (fun name hn => absurd hn (Table.not_mem_empty name)) fun done name rest hsplit live hdone => ?_
  constructor
  · refine Report.Explained.blame_bind (fun h => ?_) fun place _ => ?_
    · obtain ⟨hnone, _⟩ := orIllFormed_eq_error.1 h
      refine ⟨?_, Table.get?_eq_none_iff.1 hnone⟩
      rw [hsplit]
      exact List.mem_append_right _ (.head _)
    · refine Report.Explained.blame_bind (fun h => ?_) fun _ _ => Report.explained_pure _
      have hlive : name ∈ live := Decidable.not_not.1 (require_eq_error.1 h).1
      have hcount : 0 < done.count name := List.count_pos_iff.2 (hdone name hlive)
      change 1 < (f.args ++ [f.ret]).count name
      rw [hsplit, List.count_append, List.count_cons_self]
      omega
  · intro live' h k hk
    obtain ⟨place, _, _, rfl⟩ := bindOnEntry_eq_ok.1 h
    rcases Table.mem_insert.1 hk with rfl | hk
    · exact List.mem_append_right _ (.head _)
    · exact List.mem_append_left _ (hdone k hk)

/-- After a search to its end, the declared blocks that are not recorded are those that no
walk arrives at, and the only obstacle to acceptance. -/
theorem reason_unreachable (hlocals : (f.checkLocals t).result = .ok ())
    (hlive : f.initialLive.result = .ok f.entryLive)
    (hentry : (f.explore t (Search.begin f.start f.entryLive)).result = .ok entry) :
    f.Reason t (.unreachable (f.blocks.keys.filter (· ∉ entry))) := by
  have hx : Explored t f ⟨entry, []⟩ := Explored.begin.of_explore hentry
  have hnames : ∀ b, b ∈ f.blocks.keys.filter (· ∉ entry) ↔ b ∈ f.blocks ∧ b ∉ entry := by
    intro b
    rw [List.mem_filter, decide_eq_true_iff]
    rfl
  refine ⟨List.filter_sublist, fun b => ?_, entry, hentry, check_without hlocals hlive hentry hnames⟩
  rw [hnames, hx.mem_entry_iff]
  simp only [not_exists]

theorem explained_check (t : Target) (f : Func) : (f.check t).Explained (f.Reason t) := by
  refine explained_checkLocals.bind fun _ hlocals => explained_initialLive.bind fun live hlive => ?_
  obtain rfl : f.entryLive = live := (initialLive_eq_ok.1 hlive).2.2
  refine (explained_explore Explored.begin Traced.begin).bind fun entry hentry => ?_
  refine Report.Explained.blame_bind (fun _ => ?_) fun _ _ => Report.explained_pure _
  exact reason_unreachable hlocals hlive hentry

/-- A function is rejected for one reason, and what is logged of it is true. -/
theorem rejection_reason {t : Target} {f : Func} (h : (f.check t).result = .error .illFormed) :
    ∃ m, (f.check t).log = [m] ∧ f.Reason t m :=
  (explained_check t f).blamed h

/-! ### Blocks on their own -/

/-- A loop and its exit, and between them two blocks that only lead to each other and to the
exit. One of them would not check. -/
def stranded : Func where
  locals := .ofList [("more", ⟨.bool, 1⟩), ("out", ⟨.u32, 4⟩)]
  args := ["more"]
  ret := "out"
  blocks := .ofList [
    ("loop", ⟨[.finalize (.slot "more")], .branch (.ofSlot "more") "loop" "exit"⟩),
    ("idle", ⟨[.storageDead "ghost"], .goto "spin"⟩),
    ("exit", ⟨[.assign (.slot "out") (.const (.int 7) .u32)], .ret⟩),
    ("spin", ⟨[], .branch (.ofSlot "more") "idle" "exit"⟩)]
  start := "loop"

def strandedEntry : Table Live :=
  ((∅ : Table Live).insert "loop" stranded.entryLive).insert "exit" stranded.entryLive

theorem stranded_explore :
    stranded.explore .default (Search.begin stranded.start stranded.entryLive) =
      pure strandedEntry := by
  have hloop : stranded.visit .default ⟨"loop", stranded.entryLive⟩
      ⟨(∅ : Table Live).insert "loop" stranded.entryLive, []⟩ =
        pure ⟨strandedEntry, [⟨"exit", stranded.entryLive⟩]⟩ := rfl
  have hexit : stranded.visit .default ⟨"exit", stranded.entryLive⟩ ⟨strandedEntry, []⟩ =
      pure ⟨strandedEntry, []⟩ := rfl
  change stranded.explore .default
    ⟨(∅ : Table Live).insert "loop" stranded.entryLive, [⟨"loop", stranded.entryLive⟩]⟩ = _
  rw [explore_cons, hloop, pure_bind, explore_cons, hexit, pure_bind, explore_nil]

theorem stranded_check : stranded.check .default =
    ⟨.error .illFormed, [.unreachable ["idle", "spin"]]⟩ := by
  have hlocals : stranded.checkLocals .default = pure () := rfl
  have hlive : stranded.initialLive = pure stranded.entryLive := rfl
  rw [check, hlocals, pure_bind, hlive, pure_bind, stranded_explore, pure_bind]
  rfl

/-- The two blocks are named in the order of their declaration, and without them the function
is accepted. -/
theorem stranded_reason : (stranded.check .default).result = .error .illFormed ∧
    (stranded.check .default).log = [.unreachable ["idle", "spin"]] ∧
    (∀ path live, ¬ Walk .default stranded path "spin" live) ∧
    ((stranded.without ["idle", "spin"]).check .default).result = .ok strandedEntry := by
  have hresult : (stranded.check .default).result = .error .illFormed := by rw [stranded_check]
  have hlog : (stranded.check .default).log = [.unreachable ["idle", "spin"]] := by
    rw [stranded_check]
  obtain ⟨m, hm, hreason⟩ := rejection_reason hresult
  obtain rfl : Message.unreachable ["idle", "spin"] = m := by
    rw [hlog] at hm
    exact List.head_eq_of_cons_eq hm
  obtain ⟨_, hnames, entry, hentry, haccepted⟩ := hreason
  rw [stranded_explore] at hentry
  cases hentry
  exact ⟨hresult, hlog, ((hnames "spin").1 (.tail _ (.head _))).2, haccepted⟩

end PlaceIR.Func

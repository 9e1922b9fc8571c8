import PlaceIR.Proofs.Func.Order
import PlaceIR.Proofs.Func.Walk

/-! What a search knows after any number of visits, in any order: the recorded locals of a
block were brought there by a walk, and a recorded block is still pending unless all its
successors are recorded with what it hands on. Once nothing is pending, every walk brings
the recorded locals. -/

namespace PlaceIR

namespace Search

variable {source block : String} {live : Live} {next : List String} {s s' : Search}

/-- At the beginning nothing is recorded but the start block. -/
theorem eq_of_get?_begin {start name : String} {first : Live}
    (h : (begin start first).entry.get? name = some live) : name = start ∧ live = first := by
  rw [begin, Table.get?_insert] at h
  split at h
  · rename_i hn
    exact ⟨hn, (Option.some.inj h).symm⟩
  · cases h

/-! ### Arrivals -/

theorem arrive_eq_ok : (s.arrive source live block).result = .ok s' ↔
    (s.entry.get? block = none ∧
      s' = ⟨s.entry.insert block live, s.pending ++ [⟨block, live⟩]⟩) ∨
    ∃ r, s.entry.get? block = some r ∧ r.Equiv live ∧ s' = s := by
  unfold arrive
  split
  · rename_i hnone
    simp only [hnone, Report.result_pure, Except.ok.injEq]
    simp [eq_comm]
  · rename_i r hr
    rw [Report.result_require_bind_eq_ok]
    simp [hr, eq_comm]

/-- An arrival is rejected if it brings other live locals than those recorded. -/
theorem arrive_eq_error {e : Fault} : (s.arrive source live block).result = .error e ↔
    ∃ r, s.entry.get? block = some r ∧ ¬ r.Equiv live ∧ e = .illFormed := by
  unfold arrive
  split
  · rename_i hnone
    simp [hnone]
  · rename_i r hr
    rw [Report.result_bind, Report.result_blame, Report.result_silent, bind_eq_error]
    simp [hr]

/-- What arrivals with `live` at the blocks `next` do to a search. Nothing recorded or
pending is lost, and what is new is recorded and pending alike. -/
structure Arrived (live : Live) (next : List String) (s s' : Search) : Prop where
  entry_sub : s.entry.Sub s'.entry
  pending_subset : s.pending ⊆ s'.pending
  recorded : ∀ b ∈ next, ∃ r, s'.entry.get? b = some r ∧ r.Equiv live
  entry_new : ∀ b r, s'.entry.get? b = some r →
    s.entry.get? b = some r ∨ (b ∈ next ∧ r = live ∧ ⟨b, r⟩ ∈ s'.pending)
  pending_new : ∀ a ∈ s'.pending, a ∈ s.pending ∨ s'.entry.get? a.block = some a.live

theorem Arrived.nil : Arrived live [] s s where
  entry_sub := Table.Sub.refl _
  pending_subset := List.Subset.refl _
  recorded := fun _ hb => nomatch hb
  entry_new := fun _ _ hr => .inl hr
  pending_new := fun _ ha => .inl ha

theorem Arrived.append {s₁ : Search} {more : List String} (h : Arrived live next s s₁)
    (h' : Arrived live more s₁ s') : Arrived live (next ++ more) s s' where
  entry_sub := h.entry_sub.trans h'.entry_sub
  pending_subset := List.Subset.trans h.pending_subset h'.pending_subset
  recorded := by
    intro b hb
    rcases List.mem_append.1 hb with hb | hb
    · obtain ⟨r, hr, hl⟩ := h.recorded b hb
      exact ⟨r, h'.entry_sub b r hr, hl⟩
    · exact h'.recorded b hb
  entry_new := by
    intro b r hr
    rcases h'.entry_new b r hr with hr | ⟨hb, hl, hp⟩
    · rcases h.entry_new b r hr with hr | ⟨hb, hl, hp⟩
      · exact .inl hr
      · exact .inr ⟨List.mem_append_left _ hb, hl, h'.pending_subset hp⟩
    · exact .inr ⟨List.mem_append_right _ hb, hl, hp⟩
  pending_new := by
    intro a ha
    rcases h'.pending_new a ha with ha | ha
    · exact (h.pending_new a ha).imp id (h'.entry_sub _ _)
    · exact .inr ha

theorem arrived_of_arrive (h : (s.arrive source live block).result = .ok s') :
    Arrived live [block] s s' := by
  rcases arrive_eq_ok.1 h with ⟨hnone, rfl⟩ | ⟨r, hr, hl, rfl⟩
  · refine ⟨Table.sub_insert hnone live, List.subset_append_left _ _, ?_, ?_, ?_⟩
    · exact List.forall_mem_singleton.2 ⟨live, Table.get?_insert_self .., .refl live⟩
    · intro b r hr
      rw [Table.get?_insert] at hr
      split at hr
      · rename_i hb
        cases hr
        rw [hb]
        exact .inr ⟨List.mem_singleton_self _, rfl, List.mem_append_right _ (.head _)⟩
      · exact .inl hr
    · intro a ha
      rcases List.mem_append.1 ha with ha | ha
      · exact .inl ha
      · rw [List.mem_singleton.1 ha]
        exact .inr (Table.get?_insert_self ..)
  · refine ⟨Table.Sub.refl _, List.Subset.refl _, ?_, fun _ _ hr => .inl hr, fun _ ha => .inl ha⟩
    exact List.forall_mem_singleton.2 ⟨r, hr, hl⟩

theorem arrived_of_foldlM (h : (next.foldlM (Search.arrive source live) s).result = .ok s') :
    Arrived live next s s' := by
  induction next generalizing s with
  | nil =>
    cases h
    exact .nil
  | cons b next ih =>
    rw [List.foldlM_cons, Report.result_bind_eq_ok] at h
    obtain ⟨s₁, hb, hnext⟩ := h
    exact (arrived_of_arrive hb).append (ih hnext)

/-- Arrivals that bring what is recorded where something is recorded are not rejected. -/
theorem exists_arrived (h : ∀ b ∈ next, ∀ r, s.entry.get? b = some r → r.Equiv live) :
    ∃ s', (next.foldlM (Search.arrive source live) s).result = .ok s' := by
  induction next generalizing s with
  | nil => exact ⟨s, rfl⟩
  | cons b next ih =>
    have hb : ∃ s₁, (s.arrive source live b).result = .ok s₁ := by
      cases hr : s.entry.get? b with
      | none => exact ⟨_, arrive_eq_ok.2 (.inl ⟨hr, rfl⟩)⟩
      | some r => exact ⟨s, arrive_eq_ok.2 (.inr ⟨r, hr, h b (.head _) r hr, rfl⟩)⟩
    obtain ⟨s₁, hs₁⟩ := hb
    have hnext : ∀ c ∈ next, ∀ r, s₁.entry.get? c = some r → r.Equiv live := by
      intro c hc r hr
      rcases (arrived_of_arrive hs₁).entry_new c r hr with hr | ⟨_, rfl, _⟩
      · exact h c (.tail _ hc) r hr
      · exact .refl r
    obtain ⟨s', hs'⟩ := ih hnext
    exact ⟨s', by rw [List.foldlM_cons, Report.result_bind_eq_ok]; exact ⟨s₁, hs₁, hs'⟩⟩

end Search

namespace Func

variable {t : Target} {f : Func} {a : Arrival} {s s' : Search}

/-! ### Visits -/

theorem result_through (name : String) (ss : List Stmt) (live : Live) :
    (f.through t name ss live).result = Stmt.thread t f.locals ss live := by
  rw [through, Report.result_foldlM]
  simp only [Report.result_blame, Report.result_silent]
  rfl

theorem visit_eq_ok : (f.visit t a s).result = .ok s' ↔
    ∃ block, f.blocks.get? a.block = some block ∧ ∃ after,
      Stmt.thread t f.locals block.statements a.live = .ok after ∧ ∃ next,
      block.terminator.successors t after = .ok next ∧
      (next.foldlM (Search.arrive a.block after) s).result = .ok s' := by
  simp only [visit, Report.result_bind_eq_ok, Report.result_blame, Report.result_silent,
    orIllFormed_eq_ok, result_through]

/-- A block that hands on, to each of its successors, what is recorded there. -/
def Settled (t : Target) (f : Func) (entry : Table Live) (name : String) (live : Live) : Prop :=
  ∃ block, f.blocks.get? name = some block ∧ ∃ after,
    Stmt.thread t f.locals block.statements live = .ok after ∧ ∃ next,
    block.terminator.successors t after = .ok next ∧
    ∀ b ∈ next, ∃ r, entry.get? b = some r ∧ r.Equiv after

theorem Settled.mono {entry entry' : Table Live} {name : String} {live : Live}
    (h : Settled t f entry name live) (he : entry.Sub entry') : Settled t f entry' name live := by
  obtain ⟨block, hb, after, hthread, next, hnext, hr⟩ := h
  refine ⟨block, hb, after, hthread, next, hnext, fun b hb => ?_⟩
  obtain ⟨r, hr, hl⟩ := hr b hb
  exact ⟨r, he b r hr, hl⟩

theorem Settled.passable {entry : Table Live} {name : String} {live : Live}
    (h : Settled t f entry name live) : f.Passable t name live := by
  obtain ⟨block, hb, after, hthread, next, hnext, _⟩ := h
  exact ⟨block, hb, after, hthread, next, hnext⟩

/-! ### The invariant -/

structure Explored (t : Target) (f : Func) (s : Search) : Prop where
  start : s.entry.get? f.start = some f.entryLive
  walk : ∀ name live, s.entry.get? name = some live → ∃ path, Walk t f path name live
  pending : ∀ a ∈ s.pending, s.entry.get? a.block = some a.live
  settled : ∀ name live, s.entry.get? name = some live →
    ⟨name, live⟩ ∈ s.pending ∨ Settled t f s.entry name live

namespace Explored

theorem begin : Explored t f (Search.begin f.start f.entryLive) where
  start := Table.get?_insert_self ..
  walk := by
    intro name live h
    obtain ⟨rfl, rfl⟩ := Search.eq_of_get?_begin h
    exact ⟨[], .start⟩
  pending := List.forall_mem_singleton.2 (Table.get?_insert_self ..)
  settled := by
    intro name live h
    obtain ⟨rfl, rfl⟩ := Search.eq_of_get?_begin h
    exact .inl (.head _)

/-- The order of the pending arrivals does not matter. -/
theorem perm {arrivals : List Arrival} (h : Explored t f s) (hp : arrivals.Perm s.pending) :
    Explored t f ⟨s.entry, arrivals⟩ where
  start := h.start
  walk := h.walk
  pending := fun a ha => h.pending a (hp.mem_iff.1 ha)
  settled := fun name live hl => (h.settled name live hl).imp hp.mem_iff.2 id

variable {entry : Table Live} {rest : List Arrival}

/-- A visit keeps the invariant: the visited arrival is settled by the arrivals that the
visit ends with. -/
theorem visit (h : Explored t f ⟨entry, a :: rest⟩)
    (hv : (f.visit t a ⟨entry, rest⟩).result = .ok s) : Explored t f s := by
  obtain ⟨block, hb, after, hthread, next, hnext, harrive⟩ := visit_eq_ok.1 hv
  have hs := Search.arrived_of_foldlM harrive
  have hrecorded : entry.get? a.block = some a.live := h.pending a (.head _)
  refine ⟨hs.entry_sub _ _ h.start, ?_, ?_, ?_⟩
  · intro name live hl
    rcases hs.entry_new name live hl with hl | ⟨hn, rfl, _⟩
    · exact h.walk name live hl
    · obtain ⟨path, hw⟩ := h.walk _ _ hrecorded
      rw [Terminator.successors_eq_targets hnext] at hn
      exact ⟨path ++ [a.block], .step hw hb hthread hn⟩
  · intro b hb
    rcases hs.pending_new b hb with hb | hb
    · exact hs.entry_sub _ _ (h.pending b (.tail _ hb))
    · exact hb
  · intro name live hl
    rcases hs.entry_new name live hl with hl | ⟨_, _, hp⟩
    · rcases h.settled name live hl with hp | hsettled
      · rcases List.mem_cons.1 hp with rfl | hp
        · exact .inr ⟨block, hb, after, hthread, next, hnext, hs.recorded⟩
        · exact .inl (hs.pending_subset hp)
      · exact .inr (hsettled.mono hs.entry_sub)
    · exact .inl hp

/-- On a sound function no visit fails. -/
theorem exists_visit (h : Explored t f ⟨entry, a :: rest⟩) (hf : f.Sound t) :
    ∃ s, (f.visit t a ⟨entry, rest⟩).result = .ok s := by
  obtain ⟨path, hw⟩ := h.walk _ _ (h.pending a (.head _))
  obtain ⟨block, hb, after, hthread, next, hnext⟩ := hf.passable _ _ _ hw
  have hagree : ∀ b ∈ next, ∀ r, entry.get? b = some r → r.Equiv after := by
    intro b hn r hr
    obtain ⟨path', hw'⟩ := h.walk b r hr
    rw [Terminator.successors_eq_targets hnext] at hn
    exact hf.agree _ _ _ _ _ hw' (.step hw hb hthread hn)
  have harrive : ∃ s, (next.foldlM (Search.arrive a.block after) ⟨entry, rest⟩).result = .ok s :=
    Search.exists_arrived hagree
  obtain ⟨s, hs⟩ := harrive
  exact ⟨s, visit_eq_ok.2 ⟨block, hb, after, hthread, next, hnext, hs⟩⟩

/-- Once nothing is pending, every walk brings what is recorded where it arrives. -/
theorem walk_recorded (h : Explored t f ⟨entry, []⟩) {path : List String} {name : String}
    {live : Live} (hw : Walk t f path name live) :
    ∃ r, entry.get? name = some r ∧ r.Equiv live := by
  induction hw with
  | start => exact ⟨f.entryLive, h.start, .refl _⟩
  | @step path name next live after block _ hb hthread hn ih =>
    obtain ⟨r, hr, hl⟩ := ih
    obtain ⟨block', hb', after', hthread', next', hnext', hrec⟩ :=
      (h.settled name r hr).resolve_left List.not_mem_nil
    obtain rfl : block = block' := Option.some.inj (hb ▸ hb')
    rw [← Terminator.successors_eq_targets hnext'] at hn
    obtain ⟨r', hr', hl'⟩ := hrec next hn
    -- the walk and the recorded locals pass the block side by side
    obtain ⟨after'', hthread'', ha⟩ := Stmt.thread_congr hthread' hl
    obtain rfl : after = after'' := Except.ok.inj (hthread ▸ hthread'')
    exact ⟨r', hr', hl'.trans ha⟩

end Explored

/-! ### Whole searches -/

/-- A search comes to its end with the invariant, or is stopped by a visit that fails. -/
theorem exploreBy_outcome (o : Order) (past : List Arrival) (h : Explored t f s) :
    (∃ entry, (f.exploreBy t o past s).result = .ok entry ∧ Explored t f ⟨entry, []⟩) ∨
    ∃ a entry rest e, Explored t f ⟨entry, a :: rest⟩ ∧
      (f.visit t a ⟨entry, rest⟩).result = .error e ∧ (f.exploreBy t o past s).result = .error e := by
  induction hn : f.work s using Nat.strongRecOn generalizing past s with
  | ind n ih =>
  have hp := h.perm (o.perm past s)
  cases harr : o.arrange past s with
  | nil =>
    rw [harr] at hp
    rw [exploreBy_nil harr]
    exact .inl ⟨s.entry, rfl, hp⟩
  | cons a rest =>
    rw [harr] at hp
    have hwork : f.work ⟨s.entry, a :: rest⟩ = n := hn ▸ work_of_perm (harr ▸ o.perm past s)
    rw [exploreBy_cons harr]
    cases hv : (f.visit t a ⟨s.entry, rest⟩).result with
    | error e => exact .inr ⟨a, s.entry, rest, e, hp, hv, by rw [Report.bind_of_error hv]⟩
    | ok s' =>
      rw [Report.bind_of_ok hv]
      exact ih _ (hwork ▸ work_visit hv) (a :: past) (hp.visit hv) rfl

end Func

end PlaceIR

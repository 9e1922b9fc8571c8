import PlaceIR.Proofs.Func.Acceptance
import PlaceIR.Proofs.Known

/-! No order decides the outcome of a check. Which failure is met first depends on the
order of visits and on the order of the tables, and so does the block from which the live
locals of another are recorded. But whether there is a failure at all depends on the walks
only, and so do the recorded locals, up to the order in which they are listed. -/

namespace PlaceIR

/-- Both checks reject for the same reason, or both accept with locals recorded for the
same blocks, which bind alike. -/
def SameOutcome (c d : Checked (Table Live)) : Prop :=
  match c, d with
  | .ok a, .ok b => ∀ name, Option.Rel Table.Equiv (a.get? name) (b.get? name)
  | .error e, .error e' => e = e'
  | _, _ => False

namespace Func

variable {t : Target} {f g : Func} {o : Order} {s : Search}

/-! ### The check of a known function comes to a decision -/

theorem decides_arrive (source block : String) (live : Live) :
    Decides (s.arrive source live block).result fun _ => True := by
  unfold Search.arrive
  split
  · exact .intro
  · rw [Report.result_bind, Report.result_blame]
    exact (decides_require _).bind fun _ _ => .intro

theorem Explored.decides_visit {entry : Table Live} {a : Arrival} {rest : List Arrival}
    (h : Explored t f ⟨entry, a :: rest⟩) (hf : f.Known) :
    Decides (f.visit t a ⟨entry, rest⟩).result fun _ => True := by
  obtain ⟨path, hw⟩ := h.walk _ _ (h.pending a (.head _))
  rw [Func.visit, Report.result_bind, Report.result_blame]
  refine (decides_orIllFormed _).bind fun block hb => ?_
  rw [Report.result_bind, result_through]
  refine (Stmt.decides_thread hf.locals hw.sub_locals (hf.statements _ block hb)).bind fun after ha => ?_
  rw [Report.result_bind, Report.result_blame]
  have hlive : ∀ name place, after.get? name = some place → place.ty.Known := fun name place hp =>
    hf.locals name place (ha name place hp)
  refine (Terminator.decides_successors hlive (hf.terminators _ block hb)).bind fun next _ => ?_
  rw [Report.result_foldlM]
  exact Decides.foldlM .intro fun b _ s _ => decides_arrive _ _ _

theorem decides_checkLocals (hf : f.Known) : Decides (f.checkLocals t).result fun _ => True := by
  rw [checkLocals, Report.result_forM]
  refine Decides.forM fun e he => ?_
  rw [Report.result_blame]
  exact PlaceType.decides_check (Table.forall_get?_iff.1 hf.locals e he)

theorem decides_initialLive : Decides f.initialLive.result fun live => f.entryLive = live := by
  have h : Decides f.initialLive.result fun _ => True := by
    rw [initialLive, Report.result_foldlM]
    refine Decides.foldlM .intro fun name _ live _ => ?_
    rw [bindOnEntry, Report.result_bind, Report.result_blame]
    refine (decides_orIllFormed _).bind fun place _ => ?_
    rw [Report.result_bind, Report.result_blame]
    exact (decides_require _).bind fun _ _ => .intro
  exact h.answer.imp fun live hl => (initialLive_eq_ok.1 hl).2.2

theorem decides_exploreBy (hf : f.Known) (past : List Arrival) (h : Explored t f s) :
    Decides (f.exploreBy t o past s).result fun _ => True := by
  rcases exploreBy_outcome o past h with ⟨entry, he, _⟩ | ⟨a, entry, rest, e, hx, hv, he⟩
  · rw [he]
    exact .intro
  · rw [he]
    exact (hx.decides_visit hf).eq_illFormed hv

theorem decides_checkBy (hf : f.Known) : Decides (f.checkBy t o).result fun _ => True := by
  rw [checkBy, Report.result_bind]
  refine (decides_checkLocals hf).bind fun _ _ => ?_
  rw [Report.result_bind]
  refine decides_initialLive.bind fun live hl => ?_
  subst hl
  rw [Report.result_bind]
  refine (decides_exploreBy hf [] Explored.begin).bind fun entry _ => ?_
  rw [Report.result_bind, Report.result_blame]
  exact (decides_require _).bind fun _ _ => .intro

/-! ### Functions in any order -/

theorem Reordered.known (h : f.Reordered g) (hf : f.Known) : g.Known where
  locals := fun name place hp => hf.locals name place (h.locals_equiv name ▸ hp)
  statements := fun name block hb => hf.statements name block (h.blocks_equiv name ▸ hb)
  terminators := fun name block hb => hf.terminators name block (h.blocks_equiv name ▸ hb)

/-- Whatever the orders, the locals recorded on acceptance are those that the walks bring. -/
theorem Reordered.entries_equiv (h : f.Reordered g) {o' : Order} {entry entry' : Table Live}
    (he : (f.checkBy t o).result = .ok entry) (he' : (g.checkBy t o').result = .ok entry')
    (name : String) : Option.Rel Table.Equiv (entry.get? name) (entry'.get? name) := by
  cases hl : entry.get? name with
  | none =>
    have hn : name ∉ entry' := by
      rw [mem_entry_iff he', ← h.blocks_equiv.mem_iff, ← mem_entry_iff he]
      exact Table.get?_eq_none_iff.1 hl
    rw [Table.get?_eq_none_iff.2 hn]
    exact .none
  | some live =>
    obtain ⟨path, hw⟩ := (explored_of_checkBy he).walk name live hl
    obtain ⟨live', hl', hequiv⟩ := (explored_of_checkBy he').walk_recorded (h.walk hw)
    rw [hl']
    exact .some hequiv.symm

theorem Reordered.sameOutcome (h : f.Reordered g) (hf : f.Known) (o o' : Order) :
    SameOutcome (f.checkBy t o).result (g.checkBy t o').result := by
  cases hc : (f.checkBy t o).result with
  | ok entry =>
    obtain ⟨entry', he'⟩ := (h.sound (sound_of_checkBy hc)).exists_checkBy o'
    rw [he']
    exact h.entries_equiv hc he'
  | error e =>
    cases hc' : (g.checkBy t o').result with
    | ok entry' =>
      obtain ⟨entry, he⟩ := (h.symm.sound (sound_of_checkBy hc')).exists_checkBy o
      rw [hc] at he
      cases he
    | error e' =>
      show e = e'
      rw [(decides_checkBy hf).eq_illFormed hc, (decides_checkBy (h.known hf)).eq_illFormed hc']

end Func

/-! ### Programs in any order -/

namespace Program

variable {t : Target} {p q : Program}

theorem check_eq_ok : (p.check t).result = .ok () ↔ p.start ∈ p.functions ∧
    ∀ name f, p.functions.get? name = some f → ∃ entry, (f.check t).result = .ok entry := by
  rw [check, Report.result_require_bind_eq_ok, Report.result_forM, forM_eq_ok]
  refine and_congr_right fun _ => ?_
  rw [Table.forall_get?_iff]
  simp only [Report.result_blame, Report.result_discard, discard_eq_ok]

theorem decides_check (hp : p.Known) : Decides (p.check t).result fun _ => True := by
  rw [check, Report.result_bind, Report.result_blame]
  refine (decides_require _).bind fun _ _ => ?_
  rw [Report.result_forM]
  refine Decides.forM fun e he => ?_
  rw [Report.result_blame, Report.result_discard, Func.check_eq_checkBy]
  exact (Func.decides_checkBy (Table.forall_get?_iff.1 hp e he)).discard

theorem check_of_perm (hp : p.Known) (hperm : p.functions.entries.Perm q.functions.entries)
    (hstart : p.start = q.start) : (p.check t).result = (q.check t).result := by
  have hf := Table.equiv_of_perm hperm
  have hq : q.Known := fun name f hq => hp name f (hf name ▸ hq)
  refine (decides_check hp).eq_of_iff (decides_check hq) ?_
  rw [check_eq_ok, check_eq_ok, hstart, hf.mem_iff]
  simp only [hf _]

end Program

/-- The outcome of a check depends on no order: neither on the order in which the blocks of
a function are visited, nor on those in which its locals and its blocks are listed, nor on
that in which the functions of a program are. -/
theorem outcome_order_free (t : Target) :
    (∀ f g : Func, f.Known → f.Reordered g → ∀ o : Order,
      SameOutcome (f.check t).result (g.checkBy t o).result) ∧
    ∀ p q : Program, p.Known → p.functions.entries.Perm q.functions.entries → p.start = q.start →
      (p.check t).result = (q.check t).result := by
  constructor
  · intro f g hf h o
    rw [Func.check_eq_checkBy]
    exact h.sameOutcome hf .firstCome o
  · intro p q hp hperm hstart
    exact Program.check_of_perm hp hperm hstart

/-! ### Two arms in either order -/

def Func.backwards (f : Func) : Func :=
  { f with locals := f.locals.reverse, blocks := f.blocks.reverse }

theorem Func.reordered_backwards (f : Func) : f.Reordered f.backwards where
  locals := (List.reverse_perm _).symm
  blocks := (List.reverse_perm _).symm
  args := rfl
  ret := rfl
  start := rfl

/-- Two arms that come together again. -/
def Func.arms : Func where
  locals := .ofList [("flag", ⟨.bool, 1⟩), ("out", ⟨.bool, 1⟩)]
  args := ["flag"]
  ret := "out"
  blocks := .ofList [
    ("top", ⟨[], .branch (.ofSlot "flag") "left" "right"⟩),
    ("left", ⟨[.finalize (.slot "out")], .goto "join"⟩),
    ("right", ⟨[], .goto "join"⟩),
    ("join", ⟨[], .ret⟩)]
  start := "top"

theorem Func.arms_known : arms.Known := by
  have hslot (name : String) : (Expr.place (.slot name)).Known := Expr.known_of_parts .intro nofun
  have hflag : (Expr.value (.ofSlot "flag")).Known :=
    Expr.known_of_parts .intro (List.forall_mem_singleton.2 (hslot "flag"))
  refine known_of_entries ?_ ?_
  · exact List.forall_mem_cons.2 ⟨Ty.known_bool, List.forall_mem_singleton.2 Ty.known_bool⟩
  · refine List.forall_mem_cons.2 ⟨⟨nofun, nofun, ?_⟩, List.forall_mem_cons.2 ⟨⟨?_, nofun, nofun⟩,
      List.forall_mem_cons.2 ⟨⟨nofun, nofun, nofun⟩, List.forall_mem_singleton.2
        ⟨nofun, nofun, nofun⟩⟩⟩⟩
    · exact List.forall_mem_singleton.2 hflag
    · exact List.forall_mem_singleton.2 ⟨nofun, List.forall_mem_singleton.2 (hslot "out")⟩

theorem Func.arms_check : ∃ entry, (arms.check .default).result = .ok entry := by
  have hlive : arms.initialLive.result = .ok arms.entryLive := rfl
  refine ⟨?entry, check_of_explore rfl hlive ?explore ?reached⟩
  case explore =>
    refine (explore_of_visit rfl).trans ((explore_of_visit rfl).trans ?_)
    refine (explore_of_visit rfl).trans ((explore_of_visit rfl).trans ?_)
    exact congrArg Report.result (explore_nil ..)
  case reached => rfl

def Program.arms : Program := ⟨.ofList [("main", .arms), ("twin", Func.arms.backwards)], "main"⟩

theorem Program.arms_known : arms.Known := by
  have htwin := Func.arms.reordered_backwards.known Func.arms_known
  refine Table.forall_get?_iff.2 (List.forall_mem_cons.2 ⟨Func.arms_known, ?_⟩)
  exact List.forall_mem_singleton.2 htwin

/-- The latest arrival first, on the function and on the program listed backwards. -/
theorem arms_order_free : (∃ entry, (Func.arms.check .default).result = .ok entry) ∧
    SameOutcome (Func.arms.check .default).result
      (Func.arms.backwards.checkBy .default .lastCome).result ∧
    (Program.arms.check .default).result =
      (Program.check .default { Program.arms with functions := Program.arms.functions.reverse }).result := by
  obtain ⟨hfunc, hprogram⟩ := outcome_order_free .default
  refine ⟨Func.arms_check, ?_, ?_⟩
  · exact hfunc _ _ Func.arms_known Func.arms.reordered_backwards .lastCome
  · exact hprogram _ _ Program.arms_known (List.reverse_perm _).symm rfl

end PlaceIR

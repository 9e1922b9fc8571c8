import Mathlib.Data.List.Chain
import PlaceIR.Proofs.Func.Acceptance

/-! The storage of locals along walks. The statements that a walk meets are enough to say
whether a local has storage: the last statement about its storage decides, and before the
first one it is an argument or the return local. In an accepted function storage begins and
ends in turns on every walk, expressions name only locals that have storage, and a walk
that comes back to its block ends storage as often as it begins it. -/

namespace PlaceIR

namespace Stmt

variable {t : Target} {locals : Table PlaceType} {live after : Live} {name : String}

/-! ### Statements about storage -/

def storage (name : String) : Stmt → Option Bool
  | storageLive n => if n = name then some true else none
  | storageDead n => if n = name then some false else none
  | _ => none

/-- The beginnings (`true`) and ends of the storage of a local, in order. -/
def storages (name : String) (ss : List Stmt) : List Bool := ss.filterMap (storage name)

def storedAfter (name : String) (stored : Bool) (ss : List Stmt) : Bool :=
  (storages name ss).getLast?.getD stored

theorem storages_cons_of_none {s : Stmt} (h : s.storage name = none) (ss : List Stmt) :
    storages name (s :: ss) = storages name ss :=
  List.filterMap_cons_none h

theorem storages_cons_of_some {s : Stmt} {b : Bool} (h : s.storage name = some b)
    (ss : List Stmt) : storages name (s :: ss) = b :: storages name ss :=
  List.filterMap_cons_some h

theorem storedAfter_cons_of_none {s : Stmt} (h : s.storage name = none) (ss : List Stmt)
    (stored : Bool) : storedAfter name stored (s :: ss) = storedAfter name stored ss := by
  rw [storedAfter, storages_cons_of_none h, storedAfter]

theorem storedAfter_cons_of_some {s : Stmt} {b : Bool} (h : s.storage name = some b)
    (ss : List Stmt) (stored : Bool) :
    storedAfter name stored (s :: ss) = storedAfter name b ss := by
  rw [storedAfter, storages_cons_of_some h, List.getLast?_cons, Option.getD_some, storedAfter]

/-- A statement about the storage of a local changes whether it is live. -/
theorem check_of_storage_some {s : Stmt} {b : Bool} (h : s.check t locals live = .ok after)
    (hs : s.storage name = some b) : decide (name ∈ live) ≠ b ∧ decide (name ∈ after) = b := by
  cases s with
  | storageLive n =>
    obtain ⟨place, _, hn, rfl⟩ := check_storageLive_eq_ok.1 h
    obtain ⟨rfl, rfl⟩ : n = name ∧ true = b := by simpa [storage] using hs
    simp [hn]
  | storageDead n =>
    obtain ⟨hn, rfl⟩ := check_storageDead_eq_ok.1 h
    obtain ⟨rfl, rfl⟩ : n = name ∧ false = b := by simpa [storage] using hs
    simp [hn]
  | assign | finalize | unknown => cases hs

/-- All other statements leave it as it is. -/
theorem check_of_storage_none {s : Stmt} (h : s.check t locals live = .ok after)
    (hs : s.storage name = none) : decide (name ∈ after) = decide (name ∈ live) := by
  cases s with
  | assign =>
    obtain ⟨_, _, _, rfl⟩ := check_assign_eq_ok.1 h
    rfl
  | finalize =>
    obtain ⟨_, _, rfl⟩ := check_finalize_eq_ok.1 h
    rfl
  | storageLive n =>
    obtain ⟨_, _, _, rfl⟩ := check_storageLive_eq_ok.1 h
    have hne : ¬ n = name := by simpa [storage] using hs
    simp [Ne.symm hne]
  | storageDead n =>
    obtain ⟨_, rfl⟩ := check_storageDead_eq_ok.1 h
    have hne : ¬ n = name := by simpa [storage] using hs
    simp [Ne.symm hne]
  | unknown => cases h

/-- Through statements that check, the storage of a local begins and ends in turns, and the
local is live afterwards if it has storage. -/
theorem thread_storages (name : String) {ss : List Stmt} (h : thread t locals ss live = .ok after) :
    (decide (name ∈ live) :: storages name ss).IsChain (· ≠ ·) ∧
      storedAfter name (decide (name ∈ live)) ss = decide (name ∈ after) := by
  induction ss generalizing live with
  | nil =>
    cases h
    exact ⟨.singleton _, rfl⟩
  | cons s ss ih =>
    obtain ⟨mid, hs, hss⟩ := thread_cons_eq_ok.1 h
    obtain ⟨hchain, hlast⟩ := ih hss
    cases hstorage : s.storage name with
    | none =>
      have hmid := check_of_storage_none hs hstorage
      rw [hmid] at hchain hlast
      rw [storages_cons_of_none hstorage, storedAfter_cons_of_none hstorage]
      exact ⟨hchain, hlast⟩
    | some b =>
      obtain ⟨hlive, hmid⟩ := check_of_storage_some hs hstorage
      rw [hmid] at hchain hlast
      rw [storages_cons_of_some hstorage, storedAfter_cons_of_some hstorage]
      exact ⟨.cons_cons hlive hchain, hlast⟩

/-- Of beginnings and ends in turns there are as many of the one as of the other, but for
what they change on the whole. -/
theorem count_true_add {stored : Bool} {bs : List Bool} (h : (stored :: bs).IsChain (· ≠ ·)) :
    bs.count true + stored.toNat = bs.count false + (bs.getLast?.getD stored).toNat := by
  induction bs generalizing stored with
  | nil => simp
  | cons b bs ih =>
    obtain ⟨hne, hbs⟩ := List.isChain_cons_cons.1 h
    have := ih hbs
    rw [List.getLast?_cons, Option.getD_some]
    -- the first of them changes what was before
    obtain rfl : stored = !b := Bool.eq_not_of_ne hne
    cases b with
    | true =>
      simp only [List.count_cons, Bool.toNat_true] at this ⊢
      simp
      omega
    | false =>
      simp only [List.count_cons, Bool.toNat_false] at this ⊢
      simp
      omega

end Stmt

namespace Func

variable {t : Target} {f : Func} {entry : Table Live} {a b : String} {met : List Stmt}

/-! ### Walks and what they meet -/

/-- A walk along the edges from the block `a` to the block `b`, which meets the statements
`met` on its way. Whether they check is not asked. -/
inductive Path (f : Func) (a : String) : List Stmt → String → Prop
  | here : Path f a [] a
  | step {met : List Stmt} {b c : String} {block : Block} : Path f a met b →
      f.blocks.get? b = some block → c ∈ block.terminator.targets →
      Path f a (met ++ block.statements) c

/-- The expressions that are evaluated next, before the statements `rest` of a block: those
of the first statement, or of the terminator. -/
def exprsNext (term : Terminator) : List Stmt → List Expr
  | [] => term.exprs
  | s :: _ => s.exprs

def stored (f : Func) (met : List Stmt) (name : String) : Bool :=
  Stmt.storedAfter name (decide (name ∈ f.args ++ [f.ret])) met

/-- From a recorded block every walk leads to a recorded block. All that it meets checks,
and it brings the locals recorded where it arrives. -/
theorem Path.recorded (h : Path f a met b)
    (hs : ∀ name live, entry.get? name = some live → Settled t f entry name live)
    {live : Live} (ha : entry.get? a = some live) :
    ∃ after, Stmt.thread t f.locals met live = .ok after ∧
      ∃ r, entry.get? b = some r ∧ r.Equiv after := by
  induction h with
  | here => exact ⟨live, rfl, live, ha, .refl live⟩
  | @step met b c block _ hb hc ih =>
    obtain ⟨mid, hmid, r, hr, hequiv⟩ := ih
    obtain ⟨block', hb', after, hthread, next, hnext, hrecorded⟩ := hs b r hr
    obtain rfl : block = block' := Option.some.inj (hb ▸ hb')
    rw [← Terminator.successors_eq_targets hnext] at hc
    obtain ⟨r', hr', hequiv'⟩ := hrecorded c hc
    -- the walk and the recorded locals pass the block side by side
    obtain ⟨after', hthread', ha'⟩ := Stmt.thread_congr hthread hequiv
    exact ⟨after', Stmt.thread_append_eq_ok.2 ⟨mid, hmid, hthread'⟩, r', hr', hequiv'.trans ha'⟩

theorem mem_entryLive_iff (hdecl : ∀ name ∈ f.args ++ [f.ret], name ∈ f.locals) {name : String} :
    name ∈ f.entryLive ↔ name ∈ f.args ++ [f.ret] := by
  rw [← Table.isSome_get?_iff, entryLive, Table.get?_restrict]
  split
  · rename_i hn
    exact iff_of_true (Table.isSome_get?_iff.2 (hdecl name hn)) hn
  · rename_i hn
    exact iff_of_false Bool.noConfusion hn

/-- At every point of a block that is passed, what comes next is typed. -/
theorem exists_infer_next {term : Terminator} {before rest : List Stmt} {live after : Live}
    {next : List String} (hthread : Stmt.thread t f.locals (before ++ rest) live = .ok after)
    (hnext : term.successors t after = .ok next) :
    ∃ mid, Stmt.thread t f.locals before live = .ok mid ∧
      ∀ e ∈ exprsNext term rest, ∃ ty, e.infer t mid = .ok ty := by
  obtain ⟨mid, hbefore, hrest⟩ := Stmt.thread_append_eq_ok.1 hthread
  refine ⟨mid, hbefore, ?_⟩
  cases rest with
  | nil =>
    cases hrest
    exact Terminator.exists_infer_of_successors hnext
  | cons s rest =>
    obtain ⟨_, hs, _⟩ := Stmt.thread_cons_eq_ok.1 hrest
    exact Stmt.exists_infer_of_check hs

/-- At every point of every walk, the statements met so far check, and what comes next is
typed. -/
theorem Path.typed (h : (f.check t).result = .ok entry) (hp : Path f f.start met b) :
    ∃ block, f.blocks.get? b = some block ∧ ∀ before rest, block.statements = before ++ rest →
      ∃ live, Stmt.thread t f.locals (met ++ before) f.entryLive = .ok live ∧
        ∀ e ∈ exprsNext block.terminator rest, ∃ ty, e.infer t live = .ok ty := by
  rw [check_eq_checkBy] at h
  have hsettled : ∀ name live, entry.get? name = some live → Settled t f entry name live :=
    fun name live => settled_of_checkBy h
  obtain ⟨mid, hmet, r, hr, hequiv⟩ := hp.recorded hsettled (explored_of_checkBy h).start
  obtain ⟨block, hb, after, hthread, next, hnext⟩ := (hsettled b r hr).passable.congr hequiv
  refine ⟨block, hb, fun before rest hsplit => ?_⟩
  rw [hsplit] at hthread
  obtain ⟨live, hbefore, htyped⟩ := exists_infer_next hthread hnext
  exact ⟨live, Stmt.thread_append_eq_ok.2 ⟨mid, hmet, hbefore⟩, htyped⟩

/-- A walk that comes back to its block ends the storage of each local as often as it
begins it. -/
theorem Path.balanced (h : (f.check t).result = .ok entry) (ha : a ∈ f.blocks)
    (hp : Path f a met a) (name : String) :
    (Stmt.storages name met).count true = (Stmt.storages name met).count false := by
  rw [check_eq_checkBy] at h
  obtain ⟨live, hl⟩ := Table.mem_iff_exists_get?.1 ((mem_entry_iff h).2 ha)
  obtain ⟨after, hmet, r, hr, hequiv⟩ := hp.recorded (fun name live => settled_of_checkBy h) hl
  obtain rfl : live = r := Option.some.inj (hl ▸ hr)
  obtain ⟨hchain, hlast⟩ := Stmt.thread_storages name hmet
  have hcount := Stmt.count_true_add hchain
  have hsame : decide (name ∈ after) = decide (name ∈ live) :=
    decide_eq_decide.2 hequiv.mem_iff.symm
  rw [← Stmt.storedAfter, hlast, hsame] at hcount
  omega

/-- On every walk through an accepted function, up to any point of any block: the storage
of each local begins and ends in turns, first ending if it is there on entry; and all
locals named in what is evaluated next have storage. On every walk from a block back to it,
the storage of each local begins as often as it ends. -/
theorem storage_discipline {t : Target} {f : Func} {entry : Table Live}
    (h : (f.check t).result = .ok entry) :
    (∀ met b, Path f f.start met b → ∃ block, f.blocks.get? b = some block ∧
      ∀ before rest, block.statements = before ++ rest → ∀ name,
        (decide (name ∈ f.args ++ [f.ret]) :: Stmt.storages name (met ++ before)).IsChain (· ≠ ·) ∧
        ∀ e ∈ exprsNext block.terminator rest,
          Within Expr.parts (.place (.slot name)) e → f.stored (met ++ before) name = true) ∧
    ∀ a ∈ f.blocks, ∀ met, Path f a met a → ∀ name,
      (Stmt.storages name met).count true = (Stmt.storages name met).count false := by
  have hdecl := (sound_of_checkBy (check_eq_checkBy ▸ h)).entry_declared
  refine ⟨fun met b hp => ?_, fun a ha met hp => hp.balanced h ha⟩
  obtain ⟨block, hb, hpoint⟩ := hp.typed h
  refine ⟨block, hb, fun before rest hsplit name => ?_⟩
  obtain ⟨live, hthread, htyped⟩ := hpoint before rest hsplit
  obtain ⟨hchain, hlast⟩ := Stmt.thread_storages name hthread
  have hentry : decide (name ∈ f.entryLive) = decide (name ∈ f.args ++ [f.ret]) :=
    decide_eq_decide.2 (mem_entryLive_iff hdecl)
  rw [hentry] at hchain hlast
  refine ⟨hchain, fun e he hwithin => ?_⟩
  obtain ⟨_, hty⟩ := Expr.exists_infer_of_within (htyped e he) hwithin
  obtain ⟨place, hplace, _⟩ := Expr.infer_place_eq_ok.1 hty
  have hlive : name ∈ live := Table.mem_of_get? (Place.infer_slot_eq_ok.1 hplace)
  rw [stored, hlast]
  exact decide_eq_true hlive

/-! ### A local of a loop -/

/-- What a round of the loop does: copy the flag into a local of the round. -/
def retryRound : List Stmt :=
  [.storageLive "copy", .assign (.slot "copy") (.ofSlot "flag"), .storageDead "copy"]

/-- Go round until the flag is set. -/
def retrying : Func where
  locals := .ofList [("flag", ⟨.bool, 1⟩), ("copy", ⟨.bool, 1⟩), ("out", ⟨.bool, 1⟩)]
  args := ["flag"]
  ret := "out"
  blocks := .ofList [
    ("loop", ⟨retryRound, .branch (.ofSlot "flag") "done" "loop"⟩),
    ("done", ⟨[.assign (.slot "out") (.ofSlot "flag")], .ret⟩)]
  start := "loop"

theorem retrying_check : ∃ entry, (retrying.check .default).result = .ok entry := by
  have hlive : retrying.initialLive.result = .ok retrying.entryLive := rfl
  refine ⟨?entry, check_of_explore rfl hlive ?explore ?reached⟩
  case explore =>
    refine (explore_of_visit rfl).trans ((explore_of_visit rfl).trans ?_)
    exact congrArg Report.result (explore_nil ..)
  case reached => rfl

/-- In the third round, once its local has storage, the copy into it may be made; and the
two rounds before ended its storage as often as they began it. -/
theorem retrying_storage : (∃ entry, (retrying.check .default).result = .ok entry) ∧
    Path retrying "loop" (retryRound ++ retryRound) "loop" ∧
    (false :: Stmt.storages "copy" (retryRound ++ retryRound ++ [.storageLive "copy"])).IsChain
      (· ≠ ·) ∧
    retrying.stored (retryRound ++ retryRound ++ [.storageLive "copy"]) "copy" = true ∧
    (Stmt.storages "copy" (retryRound ++ retryRound)).count true =
      (Stmt.storages "copy" (retryRound ++ retryRound)).count false := by
  obtain ⟨entry, h⟩ := retrying_check
  obtain ⟨hpoints, hrounds⟩ := storage_discipline h
  have hblock : retrying.blocks.get? "loop" =
      some ⟨retryRound, .branch (.ofSlot "flag") "done" "loop"⟩ := rfl
  have hloop : Path retrying "loop" (retryRound ++ retryRound) "loop" :=
    (Path.here.step hblock (.tail _ (.head _))).step hblock (.tail _ (.head _))
  obtain ⟨block, hb, hpoint⟩ := hpoints _ _ hloop
  obtain rfl := Option.some.inj hb
  obtain ⟨hchain, hnamed⟩ := hpoint [.storageLive "copy"] _ rfl "copy"
  have hcounts := hrounds "loop" (by decide) _ hloop "copy"
  exact ⟨⟨entry, h⟩, hloop, hchain, hnamed _ (.head _) .self, hcounts⟩

end Func

end PlaceIR

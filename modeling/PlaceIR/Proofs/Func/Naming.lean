import PlaceIR.Proofs.Func.Realign
import PlaceIR.Proofs.Func.Relabel

/-! What names are good for. Checking compares names for equality and does nothing else with
them, so a function under other names is checked the same way. The table of locals is looked
up for the arguments, the return local and the locals whose storage starts; a well-formed
local that is none of these makes no difference, wherever it is declared. -/

namespace PlaceIR

/-! ### Reports that agree step by step -/

namespace Report

variable {α β : Type} {l : List α}

theorem foldlM_congr {f g : β → α → Report β} (h : ∀ a ∈ l, ∀ b, f b a = g b a) (b : β) :
    l.foldlM f b = l.foldlM g b := by
  induction l generalizing b with
  | nil => rfl
  | cons a l ih =>
    obtain ⟨ha, hl⟩ := List.forall_mem_cons.1 h
    rw [List.foldlM_cons, List.foldlM_cons, ha]
    exact congrArg _ (funext (ih hl))

/-- Members that pass in silence may be left out. -/
theorem forM_filter {p : α → Bool} {f : α → Report Unit}
    (h : ∀ a ∈ l, p a = false → f a = pure ()) : (l.filter p).forM f = l.forM f := by
  induction l with
  | nil => rfl
  | cons a l ih =>
    obtain ⟨ha, hl⟩ := List.forall_mem_cons.1 h
    change _ = f a >>= fun _ => l.forM f
    rw [List.filter_cons]
    split
    · exact congrArg (f a >>= ·) (funext fun _ => ih hl)
    · rename_i hp
      rw [ha (by simpa using hp), pure_bind]
      exact ih hl

end Report

/-! ### Locals that are never live -/

/-- Of the declared locals a statement reads at most the one whose storage it starts. -/
theorem Stmt.check_locals_agree {t : Target} {locals locals' : Table PlaceType} {s : Stmt}
    (h : ∀ name, s = .storageLive name → locals.get? name = locals'.get? name) (live : Live) :
    s.check t locals live = s.check t locals' live := by
  cases s with
  | storageLive name => rw [check, check, h name rfl]
  | assign | finalize | storageDead | unknown => rfl

namespace Func

variable {t : Target} {f : Func} {locals more : Table PlaceType} {name : String} {place : PlaceType}

/-- The function makes the local live: on entry, or by a statement of one of its blocks. -/
def Starts (f : Func) (name : String) : Prop :=
  name ∈ f.args ++ [f.ret] ∨
    ∃ b block, f.blocks.get? b = some block ∧ .storageLive name ∈ block.statements

section Agree

variable (h : ∀ name, f.Starts name → locals.get? name = f.locals.get? name)
include h

theorem visit_withLocals (a : Arrival) (s : Search) :
    (f.withLocals locals).visit t a s = f.visit t a s := by
  rw [visit, visit]
  refine Report.bind_congr fun block hblock => ?_
  rw [Report.result_blame, Report.result_silent, orIllFormed_eq_ok] at hblock
  have hthrough : (f.withLocals locals).through t a.block block.statements a.live =
      f.through t a.block block.statements a.live := by
    refine Report.foldlM_congr (fun s hs live => ?_) a.live
    have hagree : ∀ name, s = .storageLive name → locals.get? name = f.locals.get? name :=
      fun name he => h name (.inr ⟨_, _, hblock, he ▸ hs⟩)
    exact congrArg (fun c => (Report.silent c).blame _) (Stmt.check_locals_agree hagree live)
  rw [hthrough]

theorem explore_withLocals (s : Search) : (f.withLocals locals).explore t s = f.explore t s := by
  induction s using visit_induction t f with
  | done entry => rw [explore_nil, explore_nil]
  | visit entry a rest ih =>
    rw [explore_cons, explore_cons, visit_withLocals h]
    exact Report.bind_congr ih

theorem initialLive_withLocals : (f.withLocals locals).initialLive = f.initialLive := by
  refine Report.foldlM_congr (fun name hn live => ?_) ∅
  rw [bindOnEntry, bindOnEntry, withLocals, h name (.inl hn)]

theorem check_withLocals (hlocals : (f.withLocals locals).checkLocals t = f.checkLocals t) :
    (f.withLocals locals).check t = f.check t := by
  rw [check, check, hlocals, initialLive_withLocals h]
  simp only [explore_withLocals h]
  rfl

end Agree

/-- A further local, well-formed and never live, changes nothing in the check. -/
theorem check_further (hmore : more.get? name = some place) (hothers : more.erase name = f.locals)
    (hplace : place.check t = .ok ()) (hstarts : ¬ f.Starts name) :
    (f.withLocals more).check t = f.check t := by
  refine check_withLocals (fun k hk => ?_) ?_
  · have hne : k ≠ name := fun he => hstarts (he ▸ hk)
    rw [← hothers, Table.get?_erase, if_neg hne]
  -- the entry that the erased table lacks is the only one left out
  · rw [checkLocals, checkLocals, ← hothers]
    refine (Report.forM_filter fun e he hp => ?_).symm
    obtain ⟨k, v⟩ := e
    obtain rfl : k = name := by simpa using hp
    have hv : more.get? k = some v := Table.get?_eq_some_iff.2 he
    rw [hmore, Option.some.injEq] at hv
    change (Report.silent (v.check t)).blame _ = _
    rw [← hv, hplace]
    rfl

end Func

/-- Names are told apart and no more. Under other names of locals and blocks, one to one
throughout the function, the check ends with the renamed records, is rejected with the renamed
messages, or meets the same fault; callees, flags and operators may be replaced as well. And a
well-formed local declared besides, at any position, changes nothing if the function never
makes it live, as when it does not occur elsewhere. -/
theorem naming_free_check (t : Target) (f : Func) :
    (∀ r : Relabelling, (f.relabel r).check t = (f.check t).relabel r) ∧
    ∀ (name : String) (place : PlaceType) (more : Table PlaceType),
      more.get? name = some place → more.erase name = f.locals → place.check t = .ok () →
      ¬ f.Starts name → (f.withLocals more).check t = f.check t :=
  ⟨fun _ => Func.check_relabel, fun _ _ _ => Func.check_further⟩

/-! ### A loop under other names -/

/-- A mark before every name of a local, and another one before every name of a block. -/
def Relabelling.marks : Relabelling where
  slot := ⟨("local " ++ ·), fun _ _ => (String.append_right_inj _).1⟩
  block := ⟨("block " ++ ·), fun _ _ => (String.append_right_inj _).1⟩
  callee := id
  destructive := id
  inbounds := id
  unOp := id
  binOp := id

def waitingWithSpare : Table PlaceType :=
  .ofList [("ready", ⟨.bool, 1⟩), ("spare", ⟨.u64, 4⟩), ("out", ⟨.bool, 1⟩)]

theorem Func.waiting_not_starts_spare : ¬ waiting.Starts "spare" := by
  have hblocks : ∀ b block, waiting.blocks.get? b = some block →
      .storageLive "spare" ∉ block.statements :=
    Table.forall_get?_iff.2 (List.forall_mem_cons.2
      ⟨nofun, List.forall_mem_singleton.2 (by simp)⟩)
  rintro (hentry | ⟨b, block, hb, hs⟩)
  · exact absurd hentry (by decide)
  · exact hblocks b block hb hs

/-- With marked names the loop is recorded under them, and the spare local changes nothing. -/
theorem waiting_naming : waitingWithSpare.get? "spare" = some ⟨.u64, 4⟩ ∧
    waitingWithSpare.erase "spare" = Func.waiting.locals ∧
    PlaceType.check .default ⟨.u64, 4⟩ = .ok () ∧ ¬ Func.waiting.Starts "spare" ∧
    (Func.waiting.withLocals waitingWithSpare).check .default = Func.waiting.check .default ∧
    ∃ entry, ((Func.waiting.relabel .marks).check .default).result = .ok entry ∧
      entry.keys = ["block poll", "block done"] := by
  have hadded : waitingWithSpare.get? "spare" = some ⟨.u64, 4⟩ := rfl
  have hothers : waitingWithSpare.erase "spare" = Func.waiting.locals := rfl
  obtain ⟨hrenamed, hfurther⟩ := naming_free_check .default .waiting
  have hspare := Func.waiting_not_starts_spare
  refine ⟨hadded, hothers, rfl, hspare, hfurther _ _ _ hadded hothers rfl hspare, ?_⟩
  rw [hrenamed, Report.relabel, Report.map, Func.waiting_check]
  exact ⟨_, rfl, rfl⟩

end PlaceIR

import PlaceIR.Proofs.Func.Reasons

/-! What the checks log. A function that is rejected leaves one message, and one that is
accepted leaves none. So the log of a program's check tells where it ended: the functions
are checked in the order of the table, up to the first that is rejected, and those before it
leave no trace. -/

namespace PlaceIR

theorem exists_ok_or_illFormed {α : Type} {c : Checked α}
    (h : ∀ family, c ≠ .error (.unknown family)) : (∃ a, c = .ok a) ∨ c = .error .illFormed := by
  cases c with
  | ok a => exact .inl ⟨a, rfl⟩
  | error e =>
    cases e with
    | illFormed => exact .inr rfl
    | unknown family => exact absurd rfl (h family)

namespace Program

variable {t : Target} {p : Program}

/-! ### One function -/

def examine (t : Target) (e : String × Func) : Report Unit :=
  (discard (e.2.check t)).blame (.illFormedFunction e.1)

theorem quiet_examine (t : Target) (e : String × Func) : (examine t e).Quiet :=
  (Func.explained_check t e.2).quiet.discard.blame _

theorem examine_eq_ok {e : String × Func} :
    (examine t e).result = .ok () ↔ ∃ entry, (e.2.check t).result = .ok entry := by
  rw [examine, Report.result_blame, Report.result_discard, discard_eq_ok]

theorem examine_eq_error {e : String × Func} {fault : Fault} :
    (examine t e).result = .error fault ↔ (e.2.check t).result = .error fault := by
  rw [examine, Report.result_blame, Report.result_discard, discard_eq_error]

/-- The name of a rejected function comes after the reason. -/
theorem log_examine {e : String × Func} (h : (e.2.check t).result = .error .illFormed) :
    (examine t e).log = (e.2.check t).log ++ [.illFormedFunction e.1] := by
  have hdiscard : discard (e.2.check t) = ⟨.error .illFormed, (e.2.check t).log⟩ :=
    Report.bind_of_error h fun _ => pure ()
  rw [examine, hdiscard]
  rfl

/-! ### All functions -/

theorem check_of_not_mem (h : p.start ∉ p.functions) :
    p.check t = ⟨.error .illFormed, [.undefinedStart p.start]⟩ := by
  rw [check, require, if_neg h]
  rfl

theorem check_of_mem (h : p.start ∈ p.functions) :
    p.check t = p.functions.entries.forM (examine t) := by
  rw [check, require, if_pos h]
  exact pure_bind () _

theorem quiet_check (t : Target) (p : Program) : (p.check t).Quiet := by
  by_cases h : p.start ∈ p.functions
  · rw [check_of_mem h]
    exact Report.Quiet.forM fun e _ => quiet_examine t e
  · rw [check_of_not_mem h]
    exact nofun

/-- The function `f`, listed under `name`, is rejected, and all functions listed before it
are accepted. -/
def FirstRejected (t : Target) (p : Program) (name : String) (f : Func) : Prop :=
  ∃ before after, p.functions.entries = before ++ (name, f) :: after ∧
    (∀ e ∈ before, ∃ entry, (e.2.check t).result = .ok entry) ∧
    (f.check t).result = .error .illFormed

theorem FirstRejected.unique {name name' : String} {f f' : Func}
    (h : p.FirstRejected t name f) (h' : p.FirstRejected t name' f') : name = name' ∧ f = f' := by
  obtain ⟨before, after, hsplit, hbefore, hf⟩ := h
  obtain ⟨before', after', hsplit', hbefore', hf'⟩ := h'
  have rejected {g : Func} (hg : (g.check t).result = .error .illFormed) :
      ¬ ∃ entry, (g.check t).result = .ok entry := by
    rw [hg]
    exact nofun
  -- neither of the two stands before the other
  rcases List.append_eq_append_iff.1 (hsplit.symm.trans hsplit') with
    ⟨_ | _, rfl, heq⟩ | ⟨_ | _, rfl, heq⟩ <;> cases heq
  · exact ⟨rfl, rfl⟩
  · exact absurd (hbefore' (name, f) (List.mem_append_right _ (.head _))) (rejected hf)
  · exact ⟨rfl, rfl⟩
  · exact absurd (hbefore (name', f') (List.mem_append_right _ (.head _))) (rejected hf')

/-- A rejected program has no start function, or it has a first function that is rejected. -/
theorem log_of_illFormed (h : (p.check t).result = .error .illFormed) :
    (p.start ∉ p.functions ∧ (p.check t).log = [.undefinedStart p.start]) ∨
      (p.start ∈ p.functions ∧ ∃ name f m, p.FirstRejected t name f ∧
        (f.check t).log = [m] ∧ (p.check t).log = [m, .illFormedFunction name]) := by
  by_cases hstart : p.start ∈ p.functions
  · rw [check_of_mem hstart] at h ⊢
    obtain ⟨before, ⟨name, f⟩, after, hsplit, hbefore, hlast⟩ :=
      Report.Quiet.forM_of_error (fun e _ => quiet_examine t e) h
    rw [hlast] at h ⊢
    have hf : (f.check t).result = .error .illFormed := examine_eq_error.1 h
    obtain ⟨m, hm, _⟩ := (Func.explained_check t f).blamed hf
    have hfirst : p.FirstRejected t name f :=
      ⟨before, after, hsplit, fun e he => examine_eq_ok.1 (hbefore e he), hf⟩
    refine .inr ⟨hstart, name, f, m, hfirst, hm, ?_⟩
    rw [log_examine hf, hm]
    rfl
  · rw [check_of_not_mem hstart]
    exact .inl ⟨hstart, rfl⟩

end Program

/-- Every rejection logs its reason, and nothing else is logged. A function whose check
meets no node of unknown kind leaves no message if it is accepted and one if it is rejected.
A program whose check meets none is accepted exactly if nothing is logged; otherwise its
start function is missing, or the reason of the first function that is rejected is logged and
after it that function's name. -/
theorem logged_once (t : Target) :
    (∀ f : Func, (∀ family, (f.check t).result ≠ .error (.unknown family)) →
      ((∃ entry, (f.check t).result = .ok entry) ∧ (f.check t).log = []) ∨
        ((f.check t).result = .error .illFormed ∧ ∃ m, (f.check t).log = [m])) ∧
    ∀ p : Program, (∀ family, (p.check t).result ≠ .error (.unknown family)) →
      ((p.check t).result = .ok () ↔ (p.check t).log = []) ∧
      ((p.check t).result = .error .illFormed →
        (p.start ∉ p.functions ∧ (p.check t).log = [.undefinedStart p.start]) ∨
          (p.start ∈ p.functions ∧ ∃ name f m, p.FirstRejected t name f ∧
            (f.check t).log = [m] ∧ (p.check t).log = [m, .illFormedFunction name])) := by
  constructor
  · intro f h
    have hexplained := Func.explained_check t f
    rcases exists_ok_or_illFormed h with ⟨entry, hok⟩ | hill
    · exact .inl ⟨⟨entry, hok⟩, hexplained.quiet entry hok⟩
    · obtain ⟨m, hm, _⟩ := hexplained.blamed hill
      exact .inr ⟨hill, m, hm⟩
  · intro p h
    refine ⟨⟨p.quiet_check t (), fun hlog => ?_⟩, Program.log_of_illFormed⟩
    rcases exists_ok_or_illFormed h with ⟨_, hok⟩ | hill
    · exact hok
    · rcases Program.log_of_illFormed hill with ⟨_, hl⟩ | ⟨_, _, _, _, _, _, hl⟩
      · rw [hl] at hlog; cases hlog
      · rw [hl] at hlog; cases hlog

/-! ### Halfway through the functions -/

/-- The second function is rejected, and the third is not looked at. -/
def Program.halfway : Program :=
  ⟨.ofList [("main", .waiting), ("lost", .stranded), ("late", .stranded)], "main"⟩

theorem Program.halfway_firstRejected : halfway.FirstRejected .default "lost" .stranded := by
  refine ⟨[("main", .waiting)], [("late", .stranded)], rfl, ?_, ?_⟩
  · exact List.forall_mem_singleton.2 ⟨_, Func.waiting_check⟩
  · rw [Func.stranded_check]

theorem Program.halfway_check : (halfway.check .default).result = .error .illFormed := by
  have hmain : (examine .default ("main", .waiting)).result = .ok () :=
    examine_eq_ok.2 ⟨_, Func.waiting_check⟩
  have hlost : (examine .default ("lost", .stranded)).result = .error .illFormed := by
    rw [examine_eq_error, Func.stranded_check]
  rw [check_of_mem (by decide)]
  change (examine .default ("main", .waiting) >>= fun _ => examine .default ("lost", .stranded) >>=
    fun _ => [("late", Func.stranded)].forM (examine .default)).result = _
  rw [Report.bind_of_ok hmain, Report.bind_of_error hlost]

/-- The accepted function leaves no message, and the rejected one two. -/
theorem halfway_logged_once :
    ((∃ entry, (Func.waiting.check .default).result = .ok entry) ∧
      (Func.waiting.check .default).log = []) ∧
    (Program.halfway.check .default).result = .error .illFormed ∧
    Program.halfway.FirstRejected .default "lost" .stranded ∧
    (Func.stranded.check .default).log = [.unreachable ["idle", "spin"]] ∧
    (Program.halfway.check .default).log =
      [.unreachable ["idle", "spin"], .illFormedFunction "lost"] := by
  have hlog : (Func.stranded.check .default).log = [.unreachable ["idle", "spin"]] := by
    rw [Func.stranded_check]
  have hresult := Program.halfway_check
  obtain ⟨hfuncs, hprograms⟩ := logged_once .default
  have hwaiting := hfuncs .waiting (by rw [Func.waiting_check]; exact nofun)
  obtain ⟨_, hlogs⟩ := hprograms .halfway (by rw [hresult]; exact nofun)
  rw [Func.waiting_check] at hwaiting
  refine ⟨?accepted, hresult, Program.halfway_firstRejected, hlog, ?rejected⟩
  case accepted =>
    rcases hwaiting with ⟨_, hl⟩ | ⟨hill, _⟩
    · exact ⟨⟨_, Func.waiting_check⟩, hl⟩
    · cases hill
  case rejected =>
    rcases hlogs hresult with ⟨hstart, _⟩ | ⟨_, name, f, m, hfirst, hm, hl⟩
    · exact absurd (by decide) hstart
    · obtain ⟨rfl, rfl⟩ := hfirst.unique Program.halfway_firstRejected
      rw [hlog] at hm
      cases hm
      exact hl

end PlaceIR

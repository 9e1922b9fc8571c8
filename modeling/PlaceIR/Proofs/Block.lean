import PlaceIR.Func.Basic
import PlaceIR.Proofs.Expr.Parts
import PlaceIR.Proofs.Table

/-! Statements and terminators one at a time, and a block's statements in a row. Each
lemma says what one step does to the live locals: they stay among the declared ones, and
maps that bind alike are taken to maps that bind alike. -/

namespace PlaceIR

namespace Stmt

variable {t : Target} {locals : Table PlaceType} {live live' after : Live}

def exprs : Stmt → List Expr
  | assign destination source => [.place destination, .value source]
  | finalize place => [.place place]
  | _ => []

/-! ### The rules, form by form -/

theorem check_assign_eq_ok {d : Place} {s : Value} :
    (assign d s).check t locals live = .ok after ↔ ∃ place, d.infer t live = .ok place ∧
      s.infer t live = .ok place.ty ∧ live = after := by
  simp only [check, bind_eq_ok, require_eq_ok, pure_eq_ok, Except.ok.injEq]
  constructor
  · rintro ⟨place, hd, ty, hs, _, rfl, rfl⟩
    exact ⟨place, hd, hs, rfl⟩
  · rintro ⟨place, hd, hs, rfl⟩
    exact ⟨place, hd, _, hs, (), rfl, rfl⟩

theorem check_finalize_eq_ok {p : Place} : (finalize p).check t locals live = .ok after ↔
    ∃ place, p.infer t live = .ok place ∧ live = after := by
  simp [check, bind_eq_ok]

theorem check_storageLive_eq_ok {name : String} :
    (storageLive name).check t locals live = .ok after ↔ ∃ place, locals.get? name = some place ∧
      name ∉ live ∧ live.insert name place = after := by
  simp [check, bind_eq_ok]

theorem check_storageDead_eq_ok {name : String} :
    (storageDead name).check t locals live = .ok after ↔ name ∈ live ∧ live.erase name = after := by
  simp [check, seq_eq_ok]

/-! ### One statement -/

/-- A statement that checks types all its expressions. -/
theorem exists_infer_of_check {s : Stmt} (h : s.check t locals live = .ok after) :
    ∀ e ∈ s.exprs, ∃ ty, e.infer t live = .ok ty := by
  cases s with
  | assign d v =>
    obtain ⟨place, hd, hv, _⟩ := check_assign_eq_ok.1 h
    exact List.forall_mem_cons.2 ⟨⟨_, Expr.infer_place_eq_ok.2 ⟨place, hd, rfl⟩⟩,
      List.forall_mem_singleton.2 ⟨_, hv⟩⟩
  | finalize p =>
    obtain ⟨place, hp, _⟩ := check_finalize_eq_ok.1 h
    exact List.forall_mem_singleton.2 ⟨_, Expr.infer_place_eq_ok.2 ⟨place, hp, rfl⟩⟩
  | storageLive | storageDead | unknown => exact fun _ he => nomatch he

/-- A local comes alive with its declared place type only. -/
theorem check_sub {s : Stmt} (h : s.check t locals live = .ok after) (hl : live.Sub locals) :
    after.Sub locals := by
  cases s with
  | assign =>
    obtain ⟨_, _, _, rfl⟩ := check_assign_eq_ok.1 h
    exact hl
  | finalize =>
    obtain ⟨_, _, rfl⟩ := check_finalize_eq_ok.1 h
    exact hl
  | storageLive =>
    obtain ⟨_, hd, _, rfl⟩ := check_storageLive_eq_ok.1 h
    exact hl.insert_left hd
  | storageDead name =>
    obtain ⟨_, rfl⟩ := check_storageDead_eq_ok.1 h
    exact hl.erase_left name
  | unknown => cases h

/-- From live locals that bind alike a statement goes on to live locals that bind alike. -/
theorem check_congr {s : Stmt} (h : s.check t locals live = .ok after) (hl : live.Equiv live') :
    ∃ after', s.check t locals live' = .ok after' ∧ after.Equiv after' := by
  cases s with
  | assign d v =>
    obtain ⟨place, hd, hv, rfl⟩ := check_assign_eq_ok.1 h
    rw [d.infer_congr fun name _ => hl name] at hd
    rw [v.infer_congr fun name _ => hl name] at hv
    exact ⟨live', check_assign_eq_ok.2 ⟨place, hd, hv, rfl⟩, hl⟩
  | finalize p =>
    obtain ⟨place, hp, rfl⟩ := check_finalize_eq_ok.1 h
    rw [p.infer_congr fun name _ => hl name] at hp
    exact ⟨live', check_finalize_eq_ok.2 ⟨place, hp, rfl⟩, hl⟩
  | storageLive name =>
    obtain ⟨place, hd, hn, rfl⟩ := check_storageLive_eq_ok.1 h
    rw [hl.mem_iff] at hn
    exact ⟨_, check_storageLive_eq_ok.2 ⟨place, hd, hn, rfl⟩, hl.insert name place⟩
  | storageDead name =>
    obtain ⟨hn, rfl⟩ := check_storageDead_eq_ok.1 h
    rw [hl.mem_iff] at hn
    exact ⟨_, check_storageDead_eq_ok.2 ⟨hn, rfl⟩, hl.erase name⟩
  | unknown => cases h

/-- Of the declared locals a statement reads nothing but their bindings. -/
theorem check_locals_congr {locals' : Table PlaceType} (h : locals.Equiv locals') (s : Stmt) :
    s.check t locals live = s.check t locals' live := by
  cases s with
  | storageLive name => rw [check, check, h name]
  | assign | finalize | storageDead | unknown => rfl

/-! ### Statements in a row -/

def thread (t : Target) (locals : Table PlaceType) (ss : List Stmt) (live : Live) : Checked Live :=
  ss.foldlM (fun live s => s.check t locals live) live

theorem thread_cons_eq_ok {s : Stmt} {ss : List Stmt} : thread t locals (s :: ss) live = .ok after ↔
    ∃ mid, s.check t locals live = .ok mid ∧ thread t locals ss mid = .ok after := by
  rw [thread, List.foldlM_cons, bind_eq_ok]
  rfl

theorem thread_append_eq_ok {ss ss' : List Stmt} : thread t locals (ss ++ ss') live = .ok after ↔
    ∃ mid, thread t locals ss live = .ok mid ∧ thread t locals ss' mid = .ok after := by
  rw [thread, List.foldlM_append, bind_eq_ok]
  rfl

theorem thread_sub {ss : List Stmt} (h : thread t locals ss live = .ok after)
    (hl : live.Sub locals) : after.Sub locals := by
  induction ss generalizing live with
  | nil =>
    cases h
    exact hl
  | cons s ss ih =>
    obtain ⟨mid, hs, hss⟩ := thread_cons_eq_ok.1 h
    exact ih hss (check_sub hs hl)

theorem thread_congr {ss : List Stmt} (h : thread t locals ss live = .ok after)
    (hl : live.Equiv live') :
    ∃ after', thread t locals ss live' = .ok after' ∧ after.Equiv after' := by
  induction ss generalizing live live' with
  | nil =>
    cases h
    exact ⟨live', rfl, hl⟩
  | cons s ss ih =>
    obtain ⟨mid, hs, hss⟩ := thread_cons_eq_ok.1 h
    obtain ⟨mid', hs', hm⟩ := check_congr hs hl
    obtain ⟨after', hss', ha⟩ := ih hss hm
    exact ⟨after', thread_cons_eq_ok.2 ⟨mid', hs', hss'⟩, ha⟩

theorem thread_locals_congr {locals' : Table PlaceType} (h : locals.Equiv locals')
    (ss : List Stmt) : thread t locals ss live = thread t locals' ss live := by
  rw [thread, thread, show (fun live s => check t locals live s) = fun live s => check t locals' live s
    from funext fun live => funext fun s => check_locals_congr h s]

end Stmt

namespace Terminator

variable {t : Target} {live live' : Live} {next : List String}

def exprs : Terminator → List Expr
  | branch condition _ _ => [.value condition]
  | call _ arguments result _ => arguments.map .value ++ [.place result]
  | _ => []

/-- The blocks that a terminator names, whether or not it checks. -/
def targets : Terminator → List String
  | goto target => [target]
  | branch _ thenBlock elseBlock => [thenBlock, elseBlock]
  | call _ _ _ next => [next]
  | _ => []

theorem successors_branch_eq_ok {c : Value} {a b : String} :
    (branch c a b).successors t live = .ok next ↔ c.infer t live = .ok .bool ∧ [a, b] = next := by
  simp only [successors, bind_eq_ok, require_eq_ok, pure_eq_ok, Except.ok.injEq]
  constructor
  · rintro ⟨ty, hc, _, rfl, rfl⟩
    exact ⟨hc, rfl⟩
  · rintro ⟨hc, rfl⟩
    exact ⟨_, hc, (), rfl, rfl⟩

theorem successors_call_eq_ok {callee b : String} {vs : List Value} {p : Place} :
    (call callee vs p b).successors t live = .ok next ↔ (∀ v ∈ vs, ∃ ty, v.infer t live = .ok ty) ∧
      (∃ place, p.infer t live = .ok place) ∧ [b] = next := by
  rw [successors, seq_eq_ok, forM_eq_ok]
  simp only [discard_eq_ok]
  simp [bind_eq_ok]

/-- The blocks that may come next are those that the terminator names. -/
theorem successors_eq_targets {term : Terminator} (h : term.successors t live = .ok next) :
    next = term.targets := by
  cases term with
  | goto | ret => exact (Except.ok.inj h).symm
  | branch => exact (successors_branch_eq_ok.1 h).2.symm
  | call => exact (successors_call_eq_ok.1 h).2.2.symm
  | unknown => cases h

/-- A terminator that checks types all its expressions. -/
theorem exists_infer_of_successors {term : Terminator} (h : term.successors t live = .ok next) :
    ∀ e ∈ term.exprs, ∃ ty, e.infer t live = .ok ty := by
  cases term with
  | goto | ret | unknown => exact fun _ he => nomatch he
  | branch => exact List.forall_mem_singleton.2 ⟨_, (successors_branch_eq_ok.1 h).1⟩
  | call =>
    obtain ⟨hvs, ⟨place, hp⟩, _⟩ := successors_call_eq_ok.1 h
    intro e he
    rcases List.mem_append.1 he with he | he
    · obtain ⟨v, hv, rfl⟩ := List.mem_map.1 he
      exact hvs v hv
    · rw [List.mem_singleton.1 he]
      exact ⟨_, Expr.infer_place_eq_ok.2 ⟨place, hp, rfl⟩⟩

theorem successors_congr (h : live.Equiv live') (term : Terminator) :
    term.successors t live = term.successors t live' := by
  have hv (v : Value) : v.infer t live = v.infer t live' := v.infer_congr fun name _ => h name
  have hp (p : Place) : p.infer t live = p.infer t live' := p.infer_congr fun name _ => h name
  cases term with
  | goto | ret | unknown => rfl
  | branch => rw [successors, successors, hv]
  | call => simp only [successors, hv, hp]

end Terminator

end PlaceIR

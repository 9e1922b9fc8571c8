import PlaceIR.Report

/-! Reports of checks that log only what stops them. Where such a check has an answer, going
on with the answer is all that is left to do. -/

namespace PlaceIR.Report

variable {α β : Type} {r : Report α} {a : α}

/-- Nothing is logged unless the check fails. -/
def Quiet (r : Report α) : Prop := ∀ a, r.result = .ok a → r.log = []

theorem quiet_silent (c : Checked α) : (silent c).Quiet := fun _ _ => rfl

theorem quiet_pure (a : α) : (pure a : Report α).Quiet := fun _ _ => rfl

namespace Quiet

theorem blame (h : r.Quiet) (m : Message) : (r.blame m).Quiet := by
  intro a ha
  rw [result_blame] at ha
  rw [blame_of_ne (by rw [ha]; exact nofun) m]
  exact h a ha

theorem bind {f : α → Report β} (h : r.Quiet) (hf : ∀ a, (f a).Quiet) : (r >>= f).Quiet := by
  intro b hb
  obtain ⟨a, ha, hfa⟩ := result_bind_eq_ok.1 hb
  rw [bind_of_ok ha, h a ha, hf a b hfa]
  rfl

theorem discard (h : r.Quiet) : (discard r).Quiet := h.bind fun _ => quiet_pure ()

/-- After an answer nothing is left of the check but the answer. -/
theorem bind_eq (h : r.Quiet) (hr : r.result = .ok a) (f : α → Report β) : (r >>= f) = f a := by
  rw [bind_of_ok hr, h a hr]
  rfl

theorem forM {f : α → Report Unit} {l : List α} (h : ∀ a ∈ l, (f a).Quiet) : (l.forM f).Quiet := by
  induction l with
  | nil => exact quiet_pure ()
  | cons a l ih =>
    obtain ⟨ha, hl⟩ := List.forall_mem_cons.1 h
    exact ha.bind fun _ => ih hl

/-- The members of a list are checked up to the first that fails, and its report is all
that there is. -/
theorem forM_of_error {f : α → Report Unit} {l : List α} {e : Fault} (h : ∀ a ∈ l, (f a).Quiet)
    (hl : (l.forM f).result = .error e) : ∃ before a after, l = before ++ a :: after ∧
      (∀ b ∈ before, (f b).result = .ok ()) ∧ l.forM f = f a := by
  induction l with
  | nil => cases hl
  | cons a l ih =>
    obtain ⟨ha, hquiet⟩ := List.forall_mem_cons.1 h
    cases hr : (f a).result with
    | ok =>
      have hnext : (a :: l).forM f = l.forM f := ha.bind_eq hr fun _ => l.forM f
      rw [hnext] at hl ⊢
      obtain ⟨before, b, after, rfl, hbefore, hb⟩ := ih hquiet hl
      exact ⟨a :: before, b, after, rfl, List.forall_mem_cons.2 ⟨hr, hbefore⟩, hb⟩
    | error d =>
      have hstop : (a :: l).forM f = ⟨.error d, (f a).log⟩ := bind_of_error hr fun _ => l.forM f
      exact ⟨[], a, l, rfl, nofun, hstop.trans (ext hr.symm rfl)⟩

end Quiet

/-! ### Logged reasons -/

/-- Nothing is logged unless the check fails, and if it fails with an ill-formed node it logs
one message, of which `P` holds. -/
structure Explained (r : Report α) (P : Message → Prop) : Prop where
  quiet : r.Quiet
  blamed : r.result = .error .illFormed → ∃ m, r.log = [m] ∧ P m

variable {P : Message → Prop}

theorem explained_pure (a : α) : (pure a : Report α).Explained P := ⟨quiet_pure a, nofun⟩

/-- A single check, which is blamed on the message `m`. -/
theorem explained_blame {c : Checked α} {m : Message} (h : c = .error .illFormed → P m) :
    ((silent c).blame m).Explained P where
  quiet := (quiet_silent c).blame m
  blamed := by
    intro hc
    rw [result_blame, result_silent] at hc
    rw [blame_of_illFormed hc]
    exact ⟨m, rfl, h hc⟩

namespace Explained

theorem bind {f : α → Report β} (h : r.Explained P)
    (hf : ∀ a, r.result = .ok a → (f a).Explained P) : (r >>= f).Explained P := by
  cases hr : r.result with
  | ok a =>
    rw [h.quiet.bind_eq hr]
    exact hf a hr
  | error e =>
    rw [bind_of_error hr]
    refine ⟨nofun, fun he => ?_⟩
    cases he
    exact h.blamed hr

/-- A single check, which is blamed on the message `m`, and what follows it. -/
theorem blame_bind {c : Checked α} {m : Message} {f : α → Report β}
    (h : c = .error .illFormed → P m) (hf : ∀ a, c = .ok a → (f a).Explained P) :
    ((silent c).blame m >>= f).Explained P := by
  refine (explained_blame h).bind fun a ha => hf a ?_
  rwa [result_blame, result_silent] at ha

/-- A fold of checks, with what holds of the value once some members are done. -/
theorem foldlM {I : List α → β → Prop} {f : β → α → Report β} {l : List α} {b : β} (hb : I [] b)
    (hf : ∀ done a rest, l = done ++ a :: rest → ∀ b, I done b →
      (f b a).Explained P ∧ ∀ b', (f b a).result = .ok b' → I (done ++ [a]) b') :
    (l.foldlM f b).Explained P := by
  have tail (rest done : List α) (b : β) (hl : l = done ++ rest) (hb : I done b) :
      (rest.foldlM f b).Explained P := by
    induction rest generalizing done b with
    | nil => exact explained_pure b
    | cons a rest ih =>
      obtain ⟨ha, hnext⟩ := hf done a rest hl b hb
      rw [List.foldlM_cons]
      exact ha.bind fun b' hb' => ih (done ++ [a]) b' (by rw [hl]; simp) (hnext b' hb')
  exact tail l [] b rfl hb

theorem forM {f : α → Report Unit} {l : List α} (h : ∀ a ∈ l, (f a).Explained P) :
    (l.forM f).Explained P := by
  induction l with
  | nil => exact explained_pure ()
  | cons a l ih =>
    obtain ⟨ha, hl⟩ := List.forall_mem_cons.1 h
    exact ha.bind fun _ _ => ih hl

end Explained

end PlaceIR.Report

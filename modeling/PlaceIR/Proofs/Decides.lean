import PlaceIR.Fault

/-! Checks that come to a decision: they meet no node of unknown kind. The predicate goes
through a chain of checks with a property of the answers that are handed on. -/

namespace PlaceIR

variable {α β : Type} {c : Checked α} {P Q : α → Prop}

/-- The check fails with an ill-formed node only, and its answer has the property `P`. -/
def Decides (c : Checked α) (P : α → Prop) : Prop :=
  match c with
  | .ok a => P a
  | .error e => e = .illFormed

namespace Decides

theorem eq_illFormed {e : Fault} (h : Decides c P) (hc : c = .error e) : e = .illFormed := by
  subst hc
  exact h

theorem imp (h : Decides c P) (hPQ : ∀ a, P a → Q a) : Decides c Q := by
  cases c with
  | ok a => exact hPQ a h
  | error e => exact h

/-- What is handed on is the answer of the check. -/
theorem answer (h : Decides c P) : Decides c fun a => c = .ok a := by
  cases c with
  | ok a => rfl
  | error e => exact h

theorem trivial (h : Decides c P) : Decides c fun _ => True := h.imp fun _ _ => .intro

theorem bind {f : α → Checked β} {R : β → Prop} (h : Decides c P)
    (hf : ∀ a, P a → Decides (f a) R) : Decides (c >>= f) R := by
  cases c with
  | ok a => exact hf a h
  | error e => exact h

theorem discard (h : Decides c P) : Decides (discard c) fun _ => True := by
  cases c with
  | ok a => exact .intro
  | error e => exact h

/-- A fold of checks hands on a property that each of them keeps. -/
theorem foldlM {f : β → α → Checked β} {R : β → Prop} {l : List α} {b : β} (hb : R b)
    (hf : ∀ a ∈ l, ∀ b, R b → Decides (f b a) R) : Decides (l.foldlM f b) R := by
  induction l generalizing b with
  | nil => exact hb
  | cons a l ih =>
    rw [List.forall_mem_cons] at hf
    exact (hf.1 b hb).bind fun b' hb' => ih hb' hf.2

theorem forM {f : α → Checked Unit} {l : List α} (hf : ∀ a ∈ l, Decides (f a) fun _ => True) :
    Decides (l.forM f) fun _ => True := by
  induction l with
  | nil => exact .intro
  | cons a l ih =>
    rw [List.forall_mem_cons] at hf
    exact hf.1.bind fun _ _ => ih hf.2

/-- Two checks that come to a decision agree if one passes exactly when the other does. -/
theorem eq_of_iff {c d : Checked Unit} {P Q : Unit → Prop} (hc : Decides c P) (hd : Decides d Q)
    (h : c = .ok () ↔ d = .ok ()) : c = d := by
  cases hcase : c with
  | ok => exact (h.1 hcase).symm
  | error e =>
    cases hdcase : d with
    | ok => rw [hcase, hdcase] at h; cases h.2 rfl
    | error e' => rw [hc.eq_illFormed hcase, hd.eq_illFormed hdcase]

end Decides

theorem decides_require (p : Prop) [Decidable p] : Decides (require p) fun _ => p := by
  unfold require
  split
  · assumption
  · rfl

theorem decides_orIllFormed (o : Option α) : Decides (orIllFormed o) fun a => o = some a := by
  cases o <;> rfl

end PlaceIR

import Mathlib.Data.List.Forall2
import PlaceIR.Proofs.Report
import PlaceIR.Table

/-! Two runs side by side. Checks come out alike if they end with the same fault, or with
answers in a given relation; reports also if they log the same. Chains of such checks come
out alike step by step, so that what differs between the runs is only looked at where it is
used. Tables side by side list the same names, with values in a given relation. -/

namespace PlaceIR

variable {α β γ δ : Type} {R : α → β → Prop} {S : γ → δ → Prop}

/-! ### Checks -/

/-- Both checks have the same fault, or both have an answer and `R` relates the two. -/
inductive Alike (R : α → β → Prop) : Checked α → Checked β → Prop
  | ok {a : α} {b : β} : R a b → Alike R (.ok a) (.ok b)
  | error (fault : Fault) : Alike R (.error fault) (.error fault)

namespace Alike

variable {c : Checked α} {d : Checked β}

/-- Where one check has an answer, the other has a related one. -/
theorem exists_ok {a : α} (h : Alike R c d) (hc : c = .ok a) : ∃ b, d = .ok b ∧ R a b := by
  subst hc
  cases h with
  | ok h => exact ⟨_, rfl, h⟩

theorem imp {R' : α → β → Prop} (h : Alike R c d) (hR : ∀ a b, R a b → R' a b) :
    Alike R' c d := by
  cases h with
  | ok h => exact .ok (hR _ _ h)
  | error fault => exact .error fault

/-- Checks that go on alike from related answers come out alike. -/
theorem bind {f : α → Checked γ} {g : β → Checked δ} (h : Alike R c d)
    (hfg : ∀ a b, c = .ok a → d = .ok b → R a b → Alike S (f a) (g b)) :
    Alike S (c >>= f) (d >>= g) := by
  cases h with
  | ok h => exact hfg _ _ rfl rfl h
  | error fault => exact .error fault

/-- Checks that go on with the same from related answers come out the same. -/
theorem bind_eq {f : α → Checked γ} {g : β → Checked γ} (h : Alike R c d)
    (hfg : ∀ a b, R a b → f a = g b) : (c >>= f) = (d >>= g) := by
  cases h with
  | ok h => exact hfg _ _ h
  | error fault => rfl

/-- From the answer of one and the same check. -/
theorem bind_same {c : Checked α} {f : α → Checked γ} {g : α → Checked δ}
    (hfg : ∀ a, c = .ok a → Alike S (f a) (g a)) : Alike S (c >>= f) (c >>= g) := by
  cases c with
  | ok a => exact hfg a rfl
  | error fault => exact .error fault

end Alike

theorem require_congr {p q : Prop} [Decidable p] [Decidable q] (h : p ↔ q) :
    require p = require q := by
  simp only [require, h]

theorem alike_orIllFormed {o : Option α} {p : Option β} (h : Option.Rel R o p) :
    Alike R (orIllFormed o) (orIllFormed p) := by
  cases h with
  | some h => exact .ok h
  | none => exact .error _

/-! ### Reports -/

namespace Report

/-- Both reports log the same, and their outcomes are alike. -/
structure Alike (R : α → β → Prop) (r : Report α) (s : Report β) : Prop where
  result : PlaceIR.Alike R r.result s.result
  log : r.log = s.log

theorem alike_pure {a : α} {b : β} (h : R a b) : Alike R (pure a) (pure b) := ⟨.ok h, rfl⟩

theorem alike_silent {c : Checked α} {d : Checked β} (h : PlaceIR.Alike R c d) :
    Alike R (silent c) (silent d) := ⟨h, rfl⟩

namespace Alike

variable {r : Report α} {s : Report β}

theorem imp {R' : α → β → Prop} (h : Alike R r s) (hR : ∀ a b, R a b → R' a b) :
    Alike R' r s := ⟨h.result.imp hR, h.log⟩

theorem blame (h : Alike R r s) (m : Message) : Alike R (r.blame m) (s.blame m) := by
  obtain ⟨c, log⟩ := r
  obtain ⟨d, log'⟩ := s
  obtain ⟨hresult, rfl⟩ := h
  cases hresult with
  | ok h => exact ⟨.ok h, rfl⟩
  | error fault => cases fault <;> exact ⟨.error _, rfl⟩

theorem bind {f : α → Report γ} {g : β → Report δ} (h : Alike R r s)
    (hfg : ∀ a b, r.result = .ok a → s.result = .ok b → R a b → Alike S (f a) (g b)) :
    Alike S (r >>= f) (s >>= g) := by
  obtain ⟨c, log⟩ := r
  obtain ⟨d, log'⟩ := s
  obtain ⟨hresult, rfl⟩ := h
  cases hresult with
  | ok h =>
    have hnext := hfg _ _ rfl rfl h
    exact ⟨hnext.result, congrArg (log ++ ·) hnext.log⟩
  | error fault => exact ⟨.error fault, rfl⟩

/-- From the answer of one and the same report. -/
theorem bind_same {r : Report α} {f : α → Report γ} {g : α → Report δ}
    (hfg : ∀ a, r.result = .ok a → Alike S (f a) (g a)) : Alike S (r >>= f) (r >>= g) := by
  obtain ⟨c, log⟩ := r
  cases c with
  | ok a =>
    have hnext := hfg a rfl
    exact ⟨hnext.result, congrArg (log ++ ·) hnext.log⟩
  | error fault => exact ⟨.error fault, rfl⟩

/-- A check that both runs blame on the same message, and what follows it. -/
theorem blame_bind {c : Checked α} {d : Checked β} {m : Message} {f : α → Report γ}
    {g : β → Report δ} (h : PlaceIR.Alike R c d)
    (hfg : ∀ a b, c = .ok a → d = .ok b → R a b → Alike S (f a) (g b)) :
    Alike S ((silent c).blame m >>= f) ((silent d).blame m >>= g) := by
  refine ((alike_silent h).blame m).bind fun a b ha hb hab => hfg a b ?_ ?_ hab
  · rwa [result_blame, result_silent] at ha
  · rwa [result_blame, result_silent] at hb

/-- A requirement that both runs make alike, and what follows it. -/
theorem require_bind {p q : Prop} [Decidable p] [Decidable q] {m : Message} {f : Unit → Report γ}
    {g : Unit → Report δ} (h : p ↔ q) (hfg : Alike S (f ()) (g ())) :
    Alike S ((silent (require p)).blame m >>= f) ((silent (require q)).blame m >>= g) := by
  rw [require_congr h]
  exact bind_same fun _ _ => hfg

/-- Folds over the same list whose steps come out alike. -/
theorem foldlM {ι : Type} {f : α → ι → Report α} {g : β → ι → Report β} {l : List ι} {a : α}
    {b : β} (hab : R a b) (h : ∀ i ∈ l, ∀ a b, R a b → Alike R (f a i) (g b i)) :
    Alike R (l.foldlM f a) (l.foldlM g b) := by
  induction l generalizing a b with
  | nil => exact alike_pure hab
  | cons i l ih =>
    obtain ⟨hi, hl⟩ := List.forall_mem_cons.1 h
    rw [List.foldlM_cons, List.foldlM_cons]
    exact (hi a b hab).bind fun a' b' _ _ hab' => ih hab' hl

end Alike

end Report

/-! ### Tables -/

namespace Table

/-- Both tables list the same names in the same order, and `R` relates the two values of
each name. -/
def Rel (R : α → β → Prop) (s : Table α) (u : Table β) : Prop :=
  List.Forall₂ (fun e e' => e.1 = e'.1 ∧ R e.2 e'.2) s.entries u.entries

namespace Rel

variable {s : Table α} {u : Table β} {k : String} {v : α} {w : β}

theorem empty : (∅ : Table α).Rel R (∅ : Table β) := .nil

theorem imp {R' : α → β → Prop} (h : s.Rel R u) (hR : ∀ v w, R v w → R' v w) : s.Rel R' u :=
  List.Forall₂.imp (fun _ _ he => ⟨he.1, hR _ _ he.2⟩) h

theorem and {R' : α → β → Prop} (h : s.Rel R u) (h' : s.Rel R' u) :
    s.Rel (fun v w => R v w ∧ R' v w) u :=
  List.Forall₂.mp (fun _ _ he he' => ⟨he.1, he.2, he'.2⟩) h h'

theorem keys_eq (h : s.Rel R u) : s.keys = u.keys := by
  change s.entries.map Prod.fst = u.entries.map Prod.fst
  unfold Rel at h
  generalize s.entries = es, u.entries = es' at h ⊢
  induction h with
  | nil => rfl
  | cons he _ ih => rw [List.map_cons, List.map_cons, he.1, ih]

theorem mem_iff (h : s.Rel R u) : k ∈ s ↔ k ∈ u := by
  rw [mem_iff_mem_keys, mem_iff_mem_keys, h.keys_eq]

theorem get? (h : s.Rel R u) (k : String) : Option.Rel R (s.get? k) (u.get? k) := by
  change Option.Rel R (s.entries.lookup k) (u.entries.lookup k)
  unfold Rel at h
  generalize s.entries = es, u.entries = es' at h ⊢
  induction h with
  | nil => exact .none
  | @cons e e' _ _ he _ ih =>
    rw [lookup_cons k e.1, lookup_cons k e'.1, he.1]
    split
    · exact .some he.2
    · exact ih

theorem insert (h : s.Rel R u) (k : String) (hvw : R v w) : (s.insert k v).Rel R (u.insert k w) := by
  change List.Forall₂ _ (bindIn k v s.entries) (bindIn k w u.entries)
  unfold Rel at h
  generalize s.entries = es, u.entries = es' at h ⊢
  induction h with
  | nil => exact .cons ⟨rfl, hvw⟩ .nil
  | cons he hes ih =>
    simp only [bindIn, he.1]
    split
    · exact .cons ⟨rfl, hvw⟩ hes
    · exact .cons he ih

theorem erase (h : s.Rel R u) (k : String) : (s.erase k).Rel R (u.erase k) := by
  change List.Forall₂ _ (s.entries.filter _) (u.entries.filter _)
  unfold Rel at h
  generalize s.entries = es, u.entries = es' at h ⊢
  induction h with
  | nil => exact .nil
  | cons he hes ih =>
    simp only [List.filter_cons, he.1]
    split
    · exact .cons he ih
    · exact ih

end Rel

end Table

end PlaceIR

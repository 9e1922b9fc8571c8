/-! The two ways in which a check ends without an answer: the node is ill-formed,
or a rule had to look at a node of a kind that it does not know. The first of them
to be met, in the order in which the rules look, is the one reported. -/

namespace PlaceIR

/-- The node families on which a rule branches. -/
inductive Family where
  | type | value | place | unaryOp | binaryOp | statement | terminator
  deriving DecidableEq, Repr

def Family.unknownMessage : Family → String
  | .type => "unknown type node"
  | .value => "unknown value expression"
  | .place => "unknown place expression"
  | .unaryOp => "unknown unary operator"
  | .binaryOp => "unknown binary operator"
  | .statement => "unknown statement"
  | .terminator => "unknown terminator"

inductive Fault where
  | illFormed
  | unknown (family : Family)
  deriving DecidableEq, Repr

/-- The outcome of a check: its answer, or the first fault met. -/
abbrev Checked := Except Fault

instance {α : Type} [DecidableEq α] : DecidableEq (Checked α)
  | .ok a, .ok b => decidable_of_iff (a = b) (by simp)
  | .error d, .error e => decidable_of_iff (d = e) (by simp)
  | .ok _, .error _ => .isFalse nofun
  | .error _, .ok _ => .isFalse nofun

def require (p : Prop) [Decidable p] : Checked Unit :=
  if p then .ok () else .error .illFormed

/-- The value of an option; none is ill-formed. -/
def orIllFormed {α : Type} : Option α → Checked α
  | some a => .ok a
  | none => .error .illFormed

section Lemmas

variable {α β : Type}

@[simp] theorem bind_ok (a : α) (f : α → Checked β) : ((Except.ok a : Checked α) >>= f) = f a := rfl

@[simp] theorem bind_error (e : Fault) (f : α → Checked β) :
    ((Except.error e : Checked α) >>= f) = .error e := rfl

@[simp] theorem pure_eq_ok (a : α) : (pure a : Checked α) = .ok a := rfl

@[simp] theorem throw_eq_error (e : Fault) : (throw e : Checked α) = .error e := rfl

/-- A chain of two checks answers exactly if both do. -/
theorem bind_eq_ok {c : Checked α} {f : α → Checked β} {b : β} :
    (c >>= f) = .ok b ↔ ∃ a, c = .ok a ∧ f a = .ok b := by
  cases c <;> simp

/-- A check without a value of its own, then another. -/
theorem seq_eq_ok {c : Checked Unit} {f : Unit → Checked β} {b : β} :
    (c >>= f) = .ok b ↔ c = .ok () ∧ f () = .ok b := by
  cases c <;> simp

/-- A check whose answer is dropped. -/
theorem discard_eq_ok {c : Checked α} : discard c = .ok () ↔ ∃ a, c = .ok a := by
  cases c with
  | ok a => exact ⟨fun _ => ⟨a, rfl⟩, fun _ => rfl⟩
  | error e => exact ⟨nofun, nofun⟩

theorem discard_eq_error {c : Checked α} {e : Fault} : discard c = .error e ↔ c = .error e := by
  cases c with
  | ok a => exact ⟨nofun, nofun⟩
  | error d => exact ⟨fun h => by cases h; rfl, fun h => by cases h; rfl⟩

/-- A check of every member of a list. -/
theorem forM_eq_ok {l : List α} {f : α → Checked Unit} :
    l.forM f = .ok () ↔ ∀ a ∈ l, f a = .ok () := by
  induction l with
  | nil => exact ⟨fun _ => nofun, fun _ => rfl⟩
  | cons a l ih =>
    rw [List.forall_mem_cons, ← ih]
    exact seq_eq_ok

/-- A chain of two checks fails in its first part, or in its second. -/
theorem bind_eq_error {c : Checked α} {f : α → Checked β} {e : Fault} :
    (c >>= f) = .error e ↔ c = .error e ∨ ∃ a, c = .ok a ∧ f a = .error e := by
  cases c <;> simp

@[simp] theorem require_eq_ok {p : Prop} [Decidable p] {u : Unit} : require p = .ok u ↔ p := by
  unfold require; split <;> simp_all

@[simp] theorem require_eq_error {p : Prop} [Decidable p] {e : Fault} :
    require p = .error e ↔ ¬ p ∧ e = .illFormed := by
  unfold require; split <;> simp_all [eq_comm]

@[simp] theorem orIllFormed_eq_ok {o : Option α} {a : α} : orIllFormed o = .ok a ↔ o = some a := by
  cases o <;> simp [orIllFormed]

@[simp] theorem orIllFormed_eq_error {o : Option α} {e : Fault} :
    orIllFormed o = .error e ↔ o = none ∧ e = .illFormed := by
  cases o <;> simp [orIllFormed, eq_comm]

end Lemmas

end PlaceIR

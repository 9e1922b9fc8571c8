import PlaceIR.Fault

/-! Reports of a check: its outcome together with the messages logged on the way.
Messages come in the order in which they were logged, and stay whatever follows. -/

namespace PlaceIR

/-- Why a function or a program was rejected. -/
inductive Message where
  | illFormedLocal (name : String)
  | undeclaredOnEntry (name : String)
  | boundTwice (name : String)
  | undeclaredBlock (name : String)
  | illFormedStatement (block kind : String)
  | illFormedTerminator (block kind : String)
  | divergent (block source : String)
  | unreachable (blocks : List String)
  | undefinedStart (function : String)
  | illFormedFunction (name : String)
  deriving DecidableEq, Repr

def Message.text : Message → String
  | illFormedLocal name => s!"local {name} has an ill-formed place type"
  | undeclaredOnEntry name => s!"local {name} is live on entry but not declared"
  | boundTwice name => s!"local {name} is bound twice on entry"
  | undeclaredBlock name => s!"jump to undeclared block {name}"
  | illFormedStatement block kind => s!"block {block}: ill-formed statement {kind}"
  | illFormedTerminator block kind => s!"block {block}: ill-formed terminator {kind}"
  | divergent block source => s!"block {block} reached with divergent live locals (from {source})"
  | unreachable blocks => "unreachable blocks: " ++ ", ".intercalate blocks
  | undefinedStart function => s!"start function {function} is not defined"
  | illFormedFunction name => s!"function {name} is ill-formed"

/-- The outcome of a check and what it logged. -/
structure Report (α : Type) where
  result : Checked α
  log : List Message

namespace Report

variable {α β : Type}

@[ext] theorem ext {r s : Report α} (h : r.result = s.result) (h' : r.log = s.log) : r = s := by
  cases r; cases s; cases h; cases h'; rfl

/-- A check that logs nothing. -/
def silent (c : Checked α) : Report α := ⟨c, []⟩

/-- Run `f` on the answer of `r`, if it has one, and log after it. -/
def andThen (r : Report α) (f : α → Report β) : Report β :=
  match r.result with
  | .ok a => ⟨(f a).result, r.log ++ (f a).log⟩
  | .error e => ⟨.error e, r.log⟩

instance : Monad Report where
  pure a := silent (.ok a)
  bind := andThen

/-- Log `m` if the node is ill-formed. -/
def blame (m : Message) (r : Report α) : Report α :=
  match r.result with
  | .error .illFormed => ⟨r.result, r.log ++ [m]⟩
  | _ => r

/-- The same report, with a proof that its answer is the answer. -/
def attach (r : Report α) : Report { a // r.result = .ok a } where
  result := match r.result with
    | .ok a => .ok ⟨a, rfl⟩
    | .error e => .error e
  log := r.log

/-! ### Outcome and log of each form -/

@[simp] theorem result_pure (a : α) : (pure a : Report α).result = .ok a := rfl

@[simp] theorem log_pure (a : α) : (pure a : Report α).log = [] := rfl

@[simp] theorem result_silent (c : Checked α) : (silent c).result = c := rfl

@[simp] theorem log_silent (c : Checked α) : (silent c).log = [] := rfl

theorem bind_of_ok {r : Report α} {a : α} (h : r.result = .ok a) (f : α → Report β) :
    (r >>= f) = ⟨(f a).result, r.log ++ (f a).log⟩ := by
  change andThen r f = _
  simp [andThen, h]

theorem bind_of_error {r : Report α} {e : Fault} (h : r.result = .error e) (f : α → Report β) :
    (r >>= f) = ⟨.error e, r.log⟩ := by
  change andThen r f = _
  simp [andThen, h]

/-- What follows a report matters only where the report has an answer. -/
theorem bind_congr {r : Report α} {f g : α → Report β}
    (h : ∀ a, r.result = .ok a → f a = g a) : (r >>= f) = (r >>= g) := by
  cases hr : r.result with
  | ok a => rw [bind_of_ok hr, bind_of_ok hr, h a hr]
  | error e => rw [bind_of_error hr, bind_of_error hr]

theorem result_bind (r : Report α) (f : α → Report β) :
    (r >>= f).result = (r.result >>= fun a => (f a).result) := by
  cases h : r.result with
  | ok a => rw [bind_of_ok h]; rfl
  | error e => rw [bind_of_error h]; rfl

theorem result_bind_eq_ok {r : Report α} {f : α → Report β} {b : β} :
    (r >>= f).result = .ok b ↔ ∃ a, r.result = .ok a ∧ (f a).result = .ok b := by
  rw [result_bind, bind_eq_ok]

theorem result_forM (l : List α) (f : α → Report Unit) :
    (l.forM f).result = l.forM fun a => (f a).result := by
  induction l with
  | nil => rfl
  | cons a l ih =>
    change (f a >>= fun _ => l.forM f).result = _
    rw [result_bind, ih]
    rfl

theorem result_foldlM (f : β → α → Report β) (l : List α) (b : β) :
    (l.foldlM f b).result = l.foldlM (fun b a => (f b a).result) b := by
  induction l generalizing b with
  | nil => rfl
  | cons a l ih =>
    rw [List.foldlM_cons, List.foldlM_cons]
    change (f b a >>= fun b => l.foldlM f b).result = _
    rw [result_bind]
    exact congrArg _ (funext ih)

theorem result_discard (r : Report α) : (discard r).result = discard r.result := by
  change (r >>= fun _ => pure ()).result = _
  rw [result_bind]
  cases r.result <;> rfl

@[simp] theorem result_blame (m : Message) (r : Report α) : (r.blame m).result = r.result := by
  unfold blame; split <;> rfl

/-- A requirement that is blamed on `m`, and what follows it. -/
theorem result_require_bind_eq_ok {p : Prop} [Decidable p] {m : Message} {f : Unit → Report β}
    {b : β} : ((silent (require p)).blame m >>= f).result = .ok b ↔ p ∧ (f ()).result = .ok b := by
  rw [result_bind, result_blame, result_silent, seq_eq_ok, require_eq_ok]

theorem blame_of_illFormed {r : Report α} (h : r.result = .error .illFormed) (m : Message) :
    r.blame m = ⟨.error .illFormed, r.log ++ [m]⟩ := by
  obtain ⟨c, log⟩ := r
  cases h; rfl

theorem blame_of_ne {r : Report α} (h : r.result ≠ .error .illFormed) (m : Message) :
    r.blame m = r := by
  unfold blame; split
  · contradiction
  · rfl

/-- Going on with an answer and its proof, but without a use for the proof, is going on. -/
theorem attach_bind (r : Report α) (f : α → Report β) : (r.attach >>= fun a => f a.1) = r >>= f := by
  obtain ⟨c, log⟩ := r
  cases c <;> rfl

instance : LawfulMonad Report := LawfulMonad.mk' Report
  (by intro α r
      change andThen r _ = r
      unfold andThen
      split <;> ext <;> simp_all [silent])
  (by intro α β a f
      change andThen (silent (.ok a)) f = f a
      simp [andThen, silent])
  (by intro α β γ r f g
      change andThen (andThen r f) g = andThen r fun a => andThen (f a) g
      unfold andThen
      cases r.result with
      | error e => rfl
      | ok a => cases h : (f a).result <;> simp [h])

end Report

end PlaceIR

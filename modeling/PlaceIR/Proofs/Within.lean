/-! Containment at any depth. Types and expressions are trees, and `parts` lists what
stands directly inside a node; a node lies within itself, within every node that it is a
part of, and so on. -/

namespace PlaceIR

variable {α : Type} {parts : α → List α} {a b c : α}

/-- `a` is `b`, or stands inside it at some depth. -/
inductive Within (parts : α → List α) (a : α) : α → Prop
  | self : Within parts a a
  | inside {p b : α} : p ∈ parts b → Within parts a p → Within parts a b

namespace Within

theorem trans (h : Within parts a b) (h' : Within parts b c) : Within parts a c := by
  induction h' with
  | self => exact h
  | inside hp _ ih => exact .inside hp ih

/-- What passes from each node to its parts passes to all depths. -/
theorem closed {P : α → Prop} (hP : ∀ b, P b → ∀ p ∈ parts b, P p) (h : Within parts a b)
    (hb : P b) : P a := by
  induction h with
  | self => exact hb
  | inside hp _ ih => exact ih (hP _ hb _ hp)

end Within

/-- What holds at all depths holds of the node, and at all depths of its parts. -/
theorem forall_within_iff {P : α → Prop} : (∀ a, Within parts a b → P a) ↔
    P b ∧ ∀ p ∈ parts b, ∀ a, Within parts a p → P a := by
  constructor
  · exact fun h => ⟨h b .self, fun p hp a ha => h a (.inside hp ha)⟩
  · rintro ⟨hb, hparts⟩ a ha
    cases ha with
    | self => exact hb
    | inside hp ha => exact hparts _ hp a ha

end PlaceIR

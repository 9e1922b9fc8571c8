import PlaceIR.Proofs.Alike
import PlaceIR.Proofs.Expr.Parts

/-! Typing under live locals that differ in their alignments only. No rule for values looks
at the alignment of a place: a reference is described by its own. So alignments stay apart
from all types. Whatever relation they are in, the rules keep it, provided that a move by an
offset does; a dereferenced pointer has one alignment under both. -/

namespace PlaceIR

structure PlaceType.Realigned (A : Int → Int → Prop) (p q : PlaceType) : Prop where
  ty : p.ty = q.ty
  align : A p.align q.align

/-- A relation between alignments that moves keep. -/
structure KeptByMoves (t : Target) (A : Int → Int → Prop) : Prop where
  refl : ∀ a, A a a
  move : ∀ a b offset, A a b → A (t.restrictAlign a offset) (t.restrictAlign b offset)

theorem keptByMoves_true (t : Target) : KeptByMoves t fun _ _ => True :=
  ⟨fun _ => .intro, fun _ _ _ _ => .intro⟩

/-- A move keeps a weaker alignment weaker. -/
theorem keptByMoves_le (t : Target) : KeptByMoves t (· ≤ ·) where
  refl := Int.le_refl
  move := by
    intro a b offset h
    simp only [Target.restrictAlign]
    omega

section Realigned

open PlaceType (Realigned)

variable {t : Target} {A : Int → Int → Prop} {live live' : Live}

mutual

/-- A value has the same type, or the same fault. -/
theorem Value.infer_realigned (hA : KeptByMoves t A) (hlive : live.Rel (Realigned A) live') :
    ∀ v : Value, v.infer t live = v.infer t live'
  | .const .. | .unknown => rfl
  | .load source _ => by
    rw [Value.infer, Value.infer]
    exact (source.infer_realigned hA hlive).bind_eq fun p q h => by rw [h.ty]
  | .addrOf target _ => by
    rw [Value.infer, Value.infer]
    exact (target.infer_realigned hA hlive).bind_eq fun _ _ _ => rfl
  | .ref target _ _ => by
    rw [Value.infer, Value.infer]
    exact (target.infer_realigned hA hlive).bind_eq fun p q h => by rw [h.ty]
  | .unOp _ operand => by rw [Value.infer, Value.infer, operand.infer_realigned hA hlive]
  | .binOp _ left right => by
    rw [Value.infer, Value.infer, left.infer_realigned hA hlive, right.infer_realigned hA hlive]
termination_by structural v => v

/-- A place has the same type at related alignments, or the same fault. -/
theorem Place.infer_realigned (hA : KeptByMoves t A) (hlive : live.Rel (Realigned A) live') :
    ∀ p : Place, Alike (Realigned A) (p.infer t live) (p.infer t live')
  | .slot name => alike_orIllFormed (hlive.get? name)
  | .deref operand align => by
    rw [Place.infer, Place.infer, operand.infer_realigned hA hlive]
    exact .bind_same fun ty _ => .ok ⟨rfl, hA.refl align⟩
  | .field root position => by
    rw [Place.infer, Place.infer]
    refine (root.infer_realigned hA hlive).bind fun p q _ _ h => ?_
    rw [h.ty]
    exact .bind_same fun f _ => .ok ⟨rfl, hA.move _ _ f.1 h.align⟩
  | .index root index => by
    rw [Place.infer, Place.infer]
    refine (root.infer_realigned hA hlive).bind fun p q _ _ h => ?_
    rw [h.ty, index.infer_realigned hA hlive]
    refine .bind_same fun elem _ => .bind_same fun i _ => .bind_same fun _ _ => ?_
    exact .bind_same fun stride _ => .ok ⟨rfl, hA.move _ _ stride h.align⟩
  | .unknown => .error _
termination_by structural p => p

end

end Realigned

end PlaceIR

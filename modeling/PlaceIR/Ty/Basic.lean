import PlaceIR.IntType
import PlaceIR.Layout

/-! Types. They own their parts, so that two types are the same exactly if they have
the same shape with the same numbers in it; equality is decidable. Fields are pairs
of an offset and a type, in declaration order. -/

namespace PlaceIR

inductive Mutability where
  | immutable | mutable
  deriving DecidableEq, Repr

inductive Ty where
  | int (ty : IntType)
  | bool
  /-- A pointer that says nothing about what it points to. -/
  | rawPtr (mutability : Mutability)
  /-- A pointer that promises the layout of what it points to. -/
  | ref (pointee : Layout) (mutability : Mutability)
  | box (pointee : Ty)
  /-- Fields side by side at given offsets. -/
  | tuple (fields : List (Int × Ty)) (size align : Int)
  | array (elem : Ty) (count : Int)
  /-- Fields that may overlap. -/
  | union (fields : List (Int × Ty)) (size : Int)
  /-- Variants that share `size` bytes. -/
  | enum (variants : List Ty) (size : Int)
  /-- A node of a kind that no rule knows. -/
  | unknown (kind : String)
  deriving Inhabited, Repr

/-- The type of a place, and the alignment that holds there. It may be weaker than
the type's own (a packed field) or stronger. -/
structure PlaceType where
  ty : Ty
  align : Int
  deriving Inhabited, Repr

namespace Ty

/-! ### Induction -/

/-- Induction on types, with one hypothesis for each field or variant. -/
@[induction_eliminator]
theorem induction {motive : Ty → Prop}
    (int : ∀ i, motive (.int i)) (bool : motive .bool) (rawPtr : ∀ m, motive (.rawPtr m))
    (ref : ∀ l m, motive (.ref l m)) (box : ∀ p, motive p → motive (.box p))
    (tuple : ∀ fs size align, (∀ f ∈ fs, motive f.2) → motive (.tuple fs size align))
    (array : ∀ e n, motive e → motive (.array e n))
    (union : ∀ fs size, (∀ f ∈ fs, motive f.2) → motive (.union fs size))
    (enum : ∀ vs size, (∀ v ∈ vs, motive v) → motive (.enum vs size))
    (unknown : ∀ k, motive (.unknown k)) (ty : Ty) : motive ty :=
  @Ty.rec motive (fun fs => ∀ f ∈ fs, motive f.2) (fun vs => ∀ v ∈ vs, motive v)
    (fun f => motive f.2) int bool rawPtr ref box tuple array union enum unknown
    (fun _ h => nomatch h) (fun _ _ h hs => List.forall_mem_cons.2 ⟨h, hs⟩)
    (fun _ h => nomatch h) (fun _ _ h hs => List.forall_mem_cons.2 ⟨h, hs⟩)
    (fun _ _ h => h) ty

/-! ### Equality -/

mutual

/-- Whether two types have the same shape with the same numbers in it. -/
def same : Ty → Ty → Bool
  | .int i, .int j => i == j
  | .bool, .bool => true
  | .rawPtr m, .rawPtr n => m == n
  | .ref k m, .ref l n => k == l && m == n
  | .box p, .box q => p.same q
  | .tuple fs s a, .tuple gs r b => sameFields fs gs && s == r && a == b
  | .array e n, .array f m => e.same f && n == m
  | .union fs s, .union gs r => sameFields fs gs && s == r
  | .enum vs s, .enum ws r => sameVariants vs ws && s == r
  | .unknown k, .unknown l => k == l
  | _, _ => false
termination_by structural a => a

def sameFields : List (Int × Ty) → List (Int × Ty) → Bool
  | [], [] => true
  | (o, a) :: fs, (p, b) :: gs => o == p && a.same b && sameFields fs gs
  | _, _ => false
termination_by structural fs => fs

def sameVariants : List Ty → List Ty → Bool
  | [], [] => true
  | a :: vs, b :: ws => a.same b && sameVariants vs ws
  | _, _ => false
termination_by structural vs => vs

end

theorem sameFields_iff {fs : List (Int × Ty)} (h : ∀ f ∈ fs, ∀ b, f.2.same b = true ↔ f.2 = b)
    (gs : List (Int × Ty)) : sameFields fs gs = true ↔ fs = gs := by
  induction fs generalizing gs with
  | nil => cases gs <;> simp [sameFields]
  | cons f fs ih =>
    rw [List.forall_mem_cons] at h
    cases gs with
    | nil => simp [sameFields]
    | cons g gs => simp [sameFields, h.1, ih h.2, Prod.ext_iff]

theorem sameVariants_iff {vs : List Ty} (h : ∀ v ∈ vs, ∀ b, v.same b = true ↔ v = b)
    (ws : List Ty) : sameVariants vs ws = true ↔ vs = ws := by
  induction vs generalizing ws with
  | nil => cases ws <;> simp [sameVariants]
  | cons v vs ih =>
    rw [List.forall_mem_cons] at h
    cases ws with
    | nil => simp [sameVariants]
    | cons w ws => simp [sameVariants, h.1, ih h.2]

theorem same_iff {a b : Ty} : a.same b = true ↔ a = b := by
  induction a generalizing b with
  | int | bool | rawPtr | ref | unknown => cases b <;> simp [same]
  | box p ih => cases b <;> simp [same, ih]
  | array e n ih => cases b <;> simp [same, ih]
  | tuple fs s a ih =>
    cases b <;> simp [same, sameFields_iff fun f hf b => ih f hf, and_assoc]
  | union fs s ih => cases b <;> simp [same, sameFields_iff fun f hf b => ih f hf]
  | enum vs s ih => cases b <;> simp [same, sameVariants_iff fun v hv b => ih v hv]

instance : DecidableEq Ty := fun _ _ => decidable_of_iff _ same_iff

end Ty

deriving instance DecidableEq for PlaceType

end PlaceIR

import PlaceIR.Ty.Layout

/-! Well-formed types. A type that passes `check` has a fixed layout in the target's
range, and so has every part of it. A compound type is judged from its parts in two
steps: each part is measured, which checks it and takes its size, and the measures
are then scanned against the declared sizes and offsets. -/

namespace PlaceIR

/-! ### Offset order -/

/-- Put a field before the first one whose offset is not smaller. -/
def insertByOffset {α : Type} (f : Int × α) : List (Int × α) → List (Int × α)
  | [] => [f]
  | g :: gs => if f.1 ≤ g.1 then f :: g :: gs else g :: insertByOffset f gs

/-- Fields in the order of their offsets; those at one offset stay in declaration order. -/
def byOffset {α : Type} : List (Int × α) → List (Int × α)
  | [] => []
  | f :: fs => insertByOffset f (byOffset fs)

namespace Ty

/-! ### Scans over measured parts -/

/-- Fields in offset order must not start before `last`, where the fields before them
end. Gives the end of the last one. -/
def scanTuple (t : Target) : Int → List (Int × Checked Int) → Checked Int
  | last, [] => .ok last
  | last, (offset, measure) :: fs => do
    let size ← measure
    require (last ≤ offset)
    let next ← orIllFormed (t.add? offset size)
    scanTuple t next fs

/-- Each field of a union must end within its `bound` bytes. -/
def scanUnion (t : Target) (bound : Int) : List (Int × Checked Int) → Checked Unit
  | [] => .ok ()
  | (offset, measure) :: fs => do
    let size ← measure
    require (t.IsSize offset)
    let next ← orIllFormed (t.add? offset size)
    require (next ≤ bound)
    scanUnion t bound fs

/-- Each variant of an enum must fit into its `bound` bytes. -/
def scanEnum (bound : Int) : List (Checked Int) → Checked Unit
  | [] => .ok ()
  | measure :: vs => do
    let size ← measure
    require (size ≤ bound)
    scanEnum bound vs

/-! ### The check -/

mutual

/-- Pass exactly the well-formed types. The first broken rule decides. -/
def check (t : Target) : Ty → Checked Unit
  | .int i => require (i.WellFormed t)
  | .bool | .rawPtr _ => .ok ()
  | .ref pointee _ => require (pointee.WellFormed t)
  | .box pointee => pointee.check t
  | .tuple fs size align => do
    require (t.IsSize size)
    require (t.IsAlign align)
    let last ← scanTuple t 0 (byOffset (measureFields t fs))
    require (last ≤ size)
  | .array elem count => do
    elem.check t
    let _ ← orIllFormed (t.mul? (← elem.size t) count)
  | .union fs size => do
    require (t.IsSize size)
    scanUnion t size (measureFields t fs)
  | .enum vs size => do
    require (t.IsSize size)
    scanEnum size (measureVariants t vs)
  | .unknown _ => .error (.unknown .type)
termination_by structural ty => ty

def measureFields (t : Target) : List (Int × Ty) → List (Int × Checked Int)
  | [] => []
  | (offset, ty) :: fs => (offset, do ty.check t; ty.size t) :: measureFields t fs
termination_by structural fs => fs

def measureVariants (t : Target) : List Ty → List (Checked Int)
  | [] => []
  | ty :: vs => (do ty.check t; ty.size t) :: measureVariants t vs
termination_by structural vs => vs

end

/-- The size of a well-formed type. -/
def measure (t : Target) (ty : Ty) : Checked Int := do ty.check t; ty.size t

theorem measureFields_eq (t : Target) (fs : List (Int × Ty)) :
    measureFields t fs = fs.map fun f => (f.1, f.2.measure t) := by
  induction fs with
  | nil => rfl
  | cons f fs ih => simp [measureFields, measure, ih]

theorem measureVariants_eq (t : Target) (vs : List Ty) :
    measureVariants t vs = vs.map (measure t) := by
  induction vs with
  | nil => rfl
  | cons v vs ih => simp [measureVariants, measure, ih]

end Ty

def PlaceType.check (t : Target) (p : PlaceType) : Checked Unit := do
  let size ← p.ty.measure t
  require (Layout.WellFormed ⟨size, p.align⟩ t)

theorem insertByOffset_perm {α : Type} (f : Int × α) (gs : List (Int × α)) :
    (insertByOffset f gs).Perm (f :: gs) := by
  induction gs with
  | nil => exact .refl _
  | cons g gs ih =>
    unfold insertByOffset
    split
    · exact .refl _
    · exact (ih.cons g).trans (.swap ..)

theorem byOffset_perm {α : Type} (fs : List (Int × α)) : (byOffset fs).Perm fs := by
  induction fs with
  | nil => exact .refl _
  | cons f fs ih => exact (insertByOffset_perm f _).trans (ih.cons f)

end PlaceIR

import PlaceIR.Build
import PlaceIR.Proofs.Align
import PlaceIR.Proofs.Expr.Parts
import PlaceIR.Proofs.Table
import PlaceIR.Proofs.Ty.Projection

/-! The alignment of a place as a promise. A place is a local or a dereferenced pointer
with field and index steps after it. Each step moves the address by an offset or by a
multiple of a size, and leaves an alignment that divides that offset or size; so the
alignment computed for the place divides its address, whatever the indices are. -/

namespace PlaceIR

namespace Place

/-- A field or index step of a place expression. An index step names the expression of the
index, and the value `i` that it has when the place is reached. -/
inductive Step where
  | field (position : Int)
  | index (e : Value) (i : Int)

def Step.projection : Step → Projection
  | field position => .field position
  | index _ i => .index i

def along : Place → List Step → Place
  | p, [] => p
  | p, .field position :: steps => (Place.field p position).along steps
  | p, .index e _ :: steps => (Place.index p e).along steps

/-- A place that steps can start from: a local, or a dereferenced pointer that is taken to
be aligned to a power of two. -/
def IsBase : Place → Prop
  | slot _ => True
  | deref _ align => isPowerOfTwo align = true
  | _ => False

variable {t : Target} {live : Live} {place : PlaceType}

/-- Under live locals aligned to powers of two a base is aligned to a power of two. -/
theorem IsBase.align {base : Place} {root : PlaceType} (hb : base.IsBase)
    (hlive : ∀ name place, live.get? name = some place → isPowerOfTwo place.align = true)
    (h : base.infer t live = .ok root) : isPowerOfTwo root.align = true := by
  cases base with
  | slot name => exact hlive name root (infer_slot_eq_ok.1 h)
  | deref operand align =>
    obtain ⟨_, _, rfl⟩ := infer_deref_eq_ok.1 h
    exact hb
  | field | index | unknown => exact hb.elim

/-- What a place type says of the places that steps lead to: they have a power of two for
an alignment, which divides the alignment of the place and the way to them. -/
def Keeps (t : Target) (root place : PlaceType) (path : List Projection) : Prop :=
  isPowerOfTwo place.align = true ∧ place.align ∣ root.align ∧
    ∃ x, root.ty.offset t path = .ok x ∧ place.align ∣ x

theorem Keeps.nil {root : PlaceType} (h : isPowerOfTwo root.align = true) : Keeps t root root [] :=
  ⟨h, Int.dvd_refl _, 0, rfl, Int.dvd_zero _⟩

theorem Keeps.field {root : PlaceType} {position : Int} {f : Int × Ty} {path : List Projection}
    (hroot : isPowerOfTwo root.align = true) (hf : root.ty.field? position = some f)
    (h : Keeps t ⟨f.2, t.restrictAlign root.align f.1⟩ place path) :
    Keeps t root place (.field position :: path) := by
  obtain ⟨hpow, hdvd, y, hy, hyd⟩ := h
  have hoffset : place.align ∣ f.1 := Int.dvd_trans hdvd (Target.restrictAlign_dvd_offset hroot)
  refine ⟨hpow, Int.dvd_trans hdvd (Target.restrictAlign_dvd_align hroot), f.1 + y, ?_, ?_⟩
  · exact (Ty.offset_field hf).2 ⟨y, hy, rfl⟩
  · exact Int.dvd_add hoffset hyd

theorem Keeps.index {root : PlaceType} {elem : Ty} {n i : Int} {path : List Projection}
    (hroot : isPowerOfTwo root.align = true) (he : root.ty.elem? = some elem)
    (hn : elem.size t = .ok n) (h : Keeps t ⟨elem, t.restrictAlign root.align n⟩ place path) :
    Keeps t root place (.index i :: path) := by
  obtain ⟨hpow, hdvd, y, hy, hyd⟩ := h
  obtain ⟨ty, align⟩ := root
  have hstride : place.align ∣ n := Int.dvd_trans hdvd (Target.restrictAlign_dvd_offset hroot)
  refine ⟨hpow, Int.dvd_trans hdvd (Target.restrictAlign_dvd_align hroot), i * n + y, ?_, ?_⟩
  · cases ty with
    | array e count =>
      obtain rfl : e = elem := Option.some.inj he
      exact Ty.offset_index.2 ⟨n, hn, y, hy, rfl⟩
    | int | bool | rawPtr | ref | box | tuple | union | enum | unknown => cases he
  · exact Int.dvd_add (Int.dvd_mul_of_dvd_right hstride) hyd

/-- The typing rules keep the promise of a place's alignment along any steps after it. -/
theorem keeps_along {p : Place} {steps : List Step} (h : (p.along steps).infer t live = .ok place)
    (hp : ∀ root, p.infer t live = .ok root → isPowerOfTwo root.align = true) :
    ∃ root, p.infer t live = .ok root ∧ Keeps t root place (steps.map Step.projection) := by
  -- the first step is the innermost expression, so the place before it varies
  induction steps generalizing p with
  | nil => exact ⟨place, h, .nil (hp place h)⟩
  | cons step steps ih =>
    cases step with
    | field position =>
      have hstep : ∀ mid, (Place.field p position).infer t live = .ok mid →
          isPowerOfTwo mid.align = true := by
        intro mid hm
        obtain ⟨root, hr, f, _, rfl⟩ := infer_field_eq_ok.1 hm
        exact Target.isPowerOfTwo_restrictAlign (hp root hr)
      obtain ⟨mid, hm, hk⟩ := ih h hstep
      obtain ⟨root, hr, f, hf, rfl⟩ := infer_field_eq_ok.1 hm
      exact ⟨root, hr, hk.field (hp root hr) hf⟩
    | index e i =>
      have hstep : ∀ mid, (Place.index p e).infer t live = .ok mid →
          isPowerOfTwo mid.align = true := by
        intro mid hm
        obtain ⟨root, hr, _, _, _, _, _, n, _, rfl⟩ := infer_index_eq_ok.1 hm
        exact Target.isPowerOfTwo_restrictAlign (hp root hr)
      obtain ⟨mid, hm, hk⟩ := ih h hstep
      obtain ⟨root, hr, elem, he, _, _, _, n, hn, rfl⟩ := infer_index_eq_ok.1 hm
      exact ⟨root, hr, hk.index (hp root hr) he hn⟩

/-- The alignment computed for a place is a power of two, no larger than that of the base
that its steps start from; and wherever the base lies at its own alignment, the place lies
at the computed one, whatever values its indices have. -/
theorem align_dvd_address {t : Target} {live : Live}
    (hlive : ∀ name place, live.get? name = some place → isPowerOfTwo place.align = true)
    {base : Place} (hbase : base.IsBase) (steps : List Step) {place : PlaceType}
    (h : (base.along steps).infer t live = .ok place) :
    ∃ root, base.infer t live = .ok root ∧ isPowerOfTwo place.align = true ∧
      place.align ≤ root.align ∧ ∃ x, root.ty.offset t (steps.map Step.projection) = .ok x ∧
        ∀ start, root.align ∣ start → place.align ∣ start + x := by
  obtain ⟨root, hr, hpow, hdvd, x, hx, hxd⟩ := keeps_along h fun root => hbase.align hlive
  have hroot := isPowerOfTwo_pos (hbase.align hlive hr)
  refine ⟨root, hr, hpow, Int.le_of_dvd hroot hdvd, x, hx, ?_⟩
  intro start hstart
  exact Int.dvd_add (Int.dvd_trans hdvd hstart) hxd

/-! ### A column of packed rows -/

/-- Rows of twelve bytes, each with three numbers from its byte 6 on. -/
def rows : Ty :=
  .array (.tuple [(0, .u32), (6, .array (.int ⟨.unsigned, 2⟩) 3)] 12 4) 5

def rowsLive : Live := .ofList [("rows", ⟨rows, 4⟩), ("i", ⟨.u64, 8⟩)]

def rowsBase : Place := .deref (.ofSlot "rows") 16

/-- A number of the row before the first, which no check of an index rules out. -/
def rowsSteps : List Step :=
  [.index (.const (.int 4) .u8) (-1), .field 1, .index (.ofSlot "i") 2]

/-- Of 16 bytes the rows leave 4, and their second field 2. -/
theorem rows_align_dvd_address :
    (∀ name place, rowsLive.get? name = some place → isPowerOfTwo place.align = true) ∧
    rowsBase.IsBase ∧
    (rowsBase.along rowsSteps).infer .default rowsLive = .ok ⟨.int ⟨.unsigned, 2⟩, 2⟩ ∧
    ∃ root, rowsBase.infer .default rowsLive = .ok root ∧ isPowerOfTwo 2 = true ∧
      2 ≤ root.align ∧ ∃ x, root.ty.offset .default (rowsSteps.map Step.projection) = .ok x ∧
        ∀ start, root.align ∣ start → 2 ∣ start + x := by
  have hlive : ∀ name place, rowsLive.get? name = some place → isPowerOfTwo place.align = true :=
    Table.forall_get?_iff.2 (by decide)
  have hbase : rowsBase.IsBase := rfl
  have h : (rowsBase.along rowsSteps).infer .default rowsLive =
      .ok ⟨.int ⟨.unsigned, 2⟩, 2⟩ := by decide
  exact ⟨hlive, hbase, h, align_dvd_address hlive hbase rowsSteps h⟩

end Place

end PlaceIR

import PlaceIR.Build
import PlaceIR.Proofs.Align
import PlaceIR.Proofs.Expr.Validated
import PlaceIR.Proofs.Table

/-! Regularity of the typing rules: from live locals with well-formed types and supported
alignments they come to such types and alignments again. Of the expression itself they need
that the integer types and alignments it names are in range. A reference names only an
alignment. The size in its layout is computed, so it is in range if the types before it are
well-formed. -/

namespace PlaceIR

theorem Target.IsAlign.restrictAlign {t : Target} {align : Int} (h : t.IsAlign align)
    (offset : Int) : t.IsAlign (t.restrictAlign align offset) :=
  ⟨isPowerOfTwo_restrictAlign h.1, Int.le_trans (t.restrictAlign_le align offset) h.2⟩

namespace Expr

variable {t : Target} {live : Live}

/-- What an expression itself names is in range: the result type of an integer operator, the
alignment of a dereferenced pointer, and the alignment of a reference, which also divides
the size of the place referred to. -/
def InRange (t : Target) (live : Live) : Expr → Prop
  | .value (.unOp (.int _ result) _) => result.WellFormed t
  | .value (.binOp (.int _ result) _ _) => result.WellFormed t
  | .value (.ref target align _) => t.IsAlign align ∧ ∀ place n, target.infer t live = .ok place →
      place.ty.size t = .ok n → align ∣ n
  | .place (.deref _ align) => t.IsAlign align
  | _ => True

/-- Between well-formed types what is in range is well-formed too. -/
theorem InRange.wellAnnotated {e : Expr} (h : e.InRange t live)
    (hparts : ∀ p ∈ e.parts, ∀ ty, p.infer t live = .ok ty → ty.check t = .ok ()) :
    e.WellAnnotated t live := by
  cases e with
  | place p => trivial
  | value v =>
    cases v with
    | const | load | addrOf | unknown => trivial
    | ref target align m =>
      intro place n ht hn
      have hc : place.ty.check t = .ok () :=
        hparts _ (.head _) place.ty (infer_place_eq_ok.2 ⟨place, ht, rfl⟩)
      have hsize : t.IsSize n := Ty.isSize_of_measure (Ty.measure_eq_ok.2 ⟨hc, hn⟩)
      exact ⟨hsize, h.1, Int.emod_eq_zero_of_dvd (h.2 place n ht hn)⟩
    | unOp op | binOp op =>
      cases op with
      | int => exact h
      | _ => trivial

section Live

variable (hlive : ∀ name place, live.get? name = some place →
  place.ty.check t = .ok () ∧ t.IsAlign place.align)
include hlive

theorem wellAnnotated_of_inRange (e : Expr) (h : ∀ s, Within parts s e → s.InRange t live) :
    ∀ s, Within parts s e → s.WellAnnotated t live := by
  induction e using Expr.induction with
  | step e ih =>
  obtain ⟨he, hparts⟩ := forall_within_iff.1 h
  have hwell : ∀ p ∈ e.parts, ∀ s, Within parts s p → s.WellAnnotated t live :=
    fun p hp => ih p hp (hparts p hp)
  have htyped : ∀ p ∈ e.parts, ∀ ty, p.infer t live = .ok ty → ty.check t = .ok () :=
    fun p hp => check_of_wellAnnotated (fun name place hplace => (hlive name place hplace).1) p
      (hwell p hp)
  exact forall_within_iff.2 ⟨he.wellAnnotated htyped, hwell⟩

/-- The type of an expression is well-formed if all that it names is in range. -/
theorem check_of_inRange {e : Expr} (h : ∀ s, Within parts s e → s.InRange t live) {ty : Ty}
    (hty : e.infer t live = .ok ty) : ty.check t = .ok () :=
  check_of_wellAnnotated (fun name place hplace => (hlive name place hplace).1) e
    (wellAnnotated_of_inRange hlive e h) ty hty

/-- The alignment of a place comes from a local or from a dereferenced pointer. Field and
index steps after that weaken it, and leave a power of two. -/
theorem isAlign_of_inRange : ∀ p : Place, (∀ s, Within parts s (.place p) → s.InRange t live) →
    ∀ place, p.infer t live = .ok place → t.IsAlign place.align
  | .slot name, _ => fun place hp => (hlive name place (Place.infer_slot_eq_ok.1 hp)).2
  | .deref operand align, h => by
    intro place hp
    obtain ⟨ty, _, rfl⟩ := Place.infer_deref_eq_ok.1 hp
    exact h _ .self
  | .field root position, h => by
    intro place hp
    obtain ⟨r, hr, f, _, rfl⟩ := Place.infer_field_eq_ok.1 hp
    have hroot := isAlign_of_inRange root (fun s hs => h s (.inside (.head _) hs)) r hr
    exact hroot.restrictAlign f.1
  | .index root index, h => by
    intro place hp
    obtain ⟨r, hr, _, _, _, _, _, n, _, rfl⟩ := Place.infer_index_eq_ok.1 hp
    have hroot := isAlign_of_inRange root (fun s hs => h s (.inside (.head _) hs)) r hr
    exact hroot.restrictAlign n
  | .unknown, _ => nofun
termination_by structural p => p

end Live

/-- Under live locals with well-formed types and supported alignments, and where all that the
expression names is in range at every depth: the type of a value is well-formed, and the
place type of a place has a well-formed type and a supported alignment. -/
theorem infer_regular {t : Target} {live : Live}
    (hlive : ∀ name place, live.get? name = some place →
      place.ty.check t = .ok () ∧ t.IsAlign place.align) :
    (∀ v : Value, (∀ s, Within parts s (.value v) → s.InRange t live) →
      ∀ ty, v.infer t live = .ok ty → ty.check t = .ok ()) ∧
    ∀ p : Place, (∀ s, Within parts s (.place p) → s.InRange t live) →
      ∀ place, p.infer t live = .ok place → place.ty.check t = .ok () ∧ t.IsAlign place.align := by
  constructor
  · intro v hv ty hty
    exact check_of_inRange hlive hv (infer_value v ▸ hty)
  · intro p hp place hplace
    have hcheck : place.ty.check t = .ok () :=
      check_of_inRange hlive hp (infer_place_eq_ok.2 ⟨place, hplace, rfl⟩)
    exact ⟨hcheck, isAlign_of_inRange hlive p hp place hplace⟩

/-! ### A reference into a grid -/

/-- Two numbers, the first of them in a byte, in cells of eight bytes. -/
def grid : Ty := .array (.tuple [(4, .u32), (0, .u8)] 8 4) 6

def gridLive : Live := .ofList [("grid", ⟨grid, 8⟩), ("row", ⟨.u64, 8⟩)]

/-- The index of a cell, cut down to a byte. -/
def gridIndex : Value := .unOp (.int .cast ⟨.unsigned, 1⟩) (.ofSlot "row")

/-- The larger number of a cell, in a grid taken to be aligned to 16 bytes. -/
def gridPlace : Place := .field (.index (.deref (.ofSlot "grid") 16) gridIndex) 0

theorem gridPlace_inRange : ∀ s, Within parts s (.place gridPlace) → s.InRange .default gridLive := by
  have hresult : IntType.WellFormed ⟨.unsigned, 1⟩ .default := by decide
  have halign : Target.default.IsAlign 16 := by decide
  have hslot (name : String) : ∀ s, Within parts s (.value (.ofSlot name)) →
      s.InRange .default gridLive :=
    forall_within_iff.2 ⟨trivial, List.forall_mem_singleton.2 (forall_within_iff.2 ⟨trivial, nofun⟩)⟩
  have hindex : ∀ s, Within parts s (.value gridIndex) → s.InRange .default gridLive :=
    forall_within_iff.2 ⟨hresult, List.forall_mem_singleton.2 (hslot "row")⟩
  have hderef : ∀ s, Within parts s (.place (.deref (.ofSlot "grid") 16)) →
      s.InRange .default gridLive :=
    forall_within_iff.2 ⟨halign, List.forall_mem_singleton.2 (hslot "grid")⟩
  refine forall_within_iff.2 ⟨trivial, List.forall_mem_singleton.2 ?_⟩
  exact forall_within_iff.2
    ⟨trivial, List.forall_mem_cons.2 ⟨hderef, List.forall_mem_singleton.2 hindex⟩⟩

/-- A cell leaves 4 of the 16 bytes, and a reference to its number may promise 2 of them. -/
theorem grid_regular :
    (∀ name place, gridLive.get? name = some place →
      place.ty.check .default = .ok () ∧ Target.default.IsAlign place.align) ∧
    gridPlace.infer .default gridLive = .ok ⟨.u32, 4⟩ ∧
    (Ty.check .default .u32 = .ok () ∧ Target.default.IsAlign 4) ∧
    (∀ s, Within parts s (.value (.ref gridPlace 2 .mutable)) → s.InRange .default gridLive) ∧
    Value.infer .default gridLive (.ref gridPlace 2 .mutable) = .ok (.ref ⟨4, 2⟩ .mutable) ∧
    Ty.check .default (.ref ⟨4, 2⟩ .mutable) = .ok () := by
  have hlive : ∀ name place, gridLive.get? name = some place →
      place.ty.check .default = .ok () ∧ Target.default.IsAlign place.align :=
    Table.forall_get?_iff.2 (by decide)
  have hplace : gridPlace.infer .default gridLive = .ok ⟨.u32, 4⟩ := by decide
  have hvalue : Value.infer .default gridLive (.ref gridPlace 2 .mutable) =
      .ok (.ref ⟨4, 2⟩ .mutable) := by decide
  have hrange : ∀ s, Within parts s (.value (.ref gridPlace 2 .mutable)) →
      s.InRange .default gridLive := by
    refine forall_within_iff.2 ⟨⟨by decide, fun place n hp hn => ?_⟩,
      List.forall_mem_singleton.2 gridPlace_inRange⟩
    rw [hplace, Except.ok.injEq] at hp
    subst hp
    cases hn
    decide
  obtain ⟨hregular, hregular'⟩ := infer_regular hlive
  exact ⟨hlive, hplace, hregular' _ gridPlace_inRange _ hplace, hrange, hvalue,
    hregular _ hrange _ hvalue⟩

end Expr

end PlaceIR

import PlaceIR.Proofs.Ty.Layout
import PlaceIR.Proofs.Ty.Tuple

/-! Types without pointers on several targets. A target decides the size of pointers only,
so these types have the same size and the same alignment on all of them. A target with
larger pointers has more sizes and the same alignments; it accepts all of these types that
a smaller target accepts. -/

namespace PlaceIR

variable {t u : Target}

/-! ### Larger targets -/

section Larger

variable (h : t.ptrSize ≤ u.ptrSize)
include h

theorem Target.maxSize_le : t.maxSize ≤ u.maxSize := by
  have hbits : t.wordBits - 1 ≤ u.wordBits - 1 := by
    simp only [wordBits]
    omega
  have hpow : twoPow (t.wordBits - 1) ≤ twoPow (u.wordBits - 1) := by
    rw [twoPow, twoPow, Nat.one_shiftLeft, Nat.one_shiftLeft]
    exact Nat.pow_le_pow_right (by decide) hbits
  rw [maxSize, maxSize]
  omega

theorem Target.IsSize.widen {n : Int} (hn : t.IsSize n) : u.IsSize n :=
  ⟨hn.1, Int.le_trans hn.2 (maxSize_le h)⟩

theorem IntType.WellFormed.widen {i : IntType} (hi : i.WellFormed t) : i.WellFormed u :=
  ⟨hi.1.widen h, hi.2⟩

/-- The range of alignments is the same. -/
theorem Layout.WellFormed.widen {l : Layout} (hl : l.WellFormed t) : l.WellFormed u :=
  ⟨hl.1.widen h, hl.2⟩

end Larger

namespace Ty

variable {ty : Ty}

/-! ### Types without pointers -/

/-- A pointer type, whatever it promises. -/
def Points : Ty → Prop
  | .rawPtr _ | .ref .. | .box _ => True
  | _ => False

def PointerFree (ty : Ty) : Prop := ∀ p, Within parts p ty → ¬ p.Points

theorem pointerFree_of_parts (h : ¬ ty.Points) (hparts : ∀ p ∈ ty.parts, p.PointerFree) :
    ty.PointerFree :=
  forall_within_iff.2 ⟨h, hparts⟩

theorem pointerFree_int (i : IntType) : (int i).PointerFree := pointerFree_of_parts id nofun

theorem pointerFree_bool : bool.PointerFree := pointerFree_of_parts id nofun

theorem variantAligns_congr {vs : List Ty} (h : ∀ v ∈ vs, v.align t = v.align u) :
    variantAligns t vs = variantAligns u vs := by
  induction vs with
  | nil => rfl
  | cons v vs ih =>
    obtain ⟨hv, hvs⟩ := List.forall_mem_cons.1 h
    rw [variantAligns, variantAligns, hv, ih hvs]

namespace PointerFree

theorem part (h : ty.PointerFree) : ∀ p ∈ ty.parts, p.PointerFree := (forall_within_iff.1 h).2

theorem field (h : ty.PointerFree) {fs : List (Int × Ty)} (hfs : ty.parts = fs.map Prod.snd) :
    ∀ f ∈ fs, f.2.PointerFree :=
  fun f hf => h.part f.2 (hfs ▸ List.mem_map_of_mem hf)

/-! ### Sizes and alignments -/

theorem size_eq (h : ty.PointerFree) (t u : Target) : ty.size t = ty.size u := by
  induction ty with
  | int | bool | tuple | union | enum | unknown => rfl
  | rawPtr | ref | box => exact absurd trivial (h _ .self)
  | array elem count ih =>
    have helem : elem.size t = elem.size u := ih (h.part elem (.head _))
    rw [size, size, helem]

theorem align_eq (h : ty.PointerFree) (t u : Target) : ty.align t = ty.align u := by
  induction ty with
  | int | bool | tuple | unknown => rfl
  | rawPtr | ref | box => exact absurd trivial (h _ .self)
  | array elem count ih =>
    rw [align, align]
    exact ih (h.part elem (.head _))
  | union fs size ih =>
    have hfs : ∀ v ∈ fs.map Prod.snd, v.align t = v.align u :=
      List.forall_mem_map.2 fun f hf => ih f hf (h.field rfl f hf)
    rw [align, align, fieldAligns_eq, fieldAligns_eq, variantAligns_congr hfs]
  | enum vs size ih =>
    have hvs : ∀ v ∈ vs, v.align t = v.align u := fun v hv => ih v hv (h.part v hv)
    rw [align, align, variantAligns_congr hvs]

end PointerFree

/-! ### The check -/

theorem endsBefore_congr {f g : Int × Ty} (hf : f.2.PointerFree) :
    EndsBefore t f g ↔ EndsBefore u f g := by
  rw [EndsBefore, EndsBefore, hf.size_eq t u]

/-- A part that is still well-formed is measured as before. -/
theorem measure_widen {n : Int} (hty : ty.PointerFree)
    (hcheck : ty.check t = .ok () → ty.check u = .ok ()) (hn : ty.measure t = .ok n) :
    ty.measure u = .ok n := by
  obtain ⟨hc, hsize⟩ := measure_eq_ok.1 hn
  exact measure_eq_ok.2 ⟨hcheck hc, hty.size_eq t u ▸ hsize⟩

theorem check_widen (h : t.ptrSize ≤ u.ptrSize) (hty : ty.PointerFree)
    (hcheck : ty.check t = .ok ()) : ty.check u = .ok () := by
  induction ty with
  | int i =>
    rw [check, require_eq_ok] at hcheck ⊢
    exact hcheck.widen h
  | bool => rfl
  | rawPtr | ref | box => exact absurd trivial (hty _ .self)
  | tuple fs size align ih =>
    have hfs : ∀ f ∈ fs, f.2.PointerFree := hty.field rfl
    obtain ⟨hsize, halign, hin, hpair⟩ := check_tuple_iff_pairwise.1 hcheck
    refine check_tuple_iff_pairwise.2 ⟨hsize.widen h, halign, fun f hf => ?_, ?_⟩
    · obtain ⟨hc, n, hn, hlies⟩ := hin f hf
      exact ⟨ih f hf (hfs f hf) hc, n, (hfs f hf).size_eq t u ▸ hn, hlies⟩
    · refine hpair.imp_of_mem fun {f g} hf hg hends => ?_
      rwa [endsBefore_congr (hfs f hf), endsBefore_congr (hfs g hg)] at hends
  | array elem count ih =>
    have helem : elem.PointerFree := hty.part elem (.head _)
    obtain ⟨hc, n, hn, hsize⟩ := check_array_eq_ok.1 hcheck
    exact check_array_eq_ok.2 ⟨ih helem hc, n, helem.size_eq t u ▸ hn, hsize.widen h⟩
  | union fs size ih =>
    have hfs : ∀ f ∈ fs, f.2.PointerFree := hty.field rfl
    obtain ⟨hsize, hin⟩ := check_union_eq_ok.1 hcheck
    refine check_union_eq_ok.2 ⟨hsize.widen h, fun f hf => ?_⟩
    obtain ⟨n, hn, hoffset, hend, hle⟩ := hin f hf
    exact ⟨n, measure_widen (hfs f hf) (ih f hf (hfs f hf)) hn, hoffset.widen h, hend.widen h, hle⟩
  | enum vs size ih =>
    obtain ⟨hsize, hin⟩ := check_enum_eq_ok.1 hcheck
    refine check_enum_eq_ok.2 ⟨hsize.widen h, fun v hv => ?_⟩
    obtain ⟨n, hn, hle⟩ := hin v hv
    exact ⟨n, measure_widen (hty.part v hv) (ih v hv (hty.part v hv)) hn, hle⟩
  | unknown => cases hcheck

end Ty

theorem PlaceType.check_widen (h : t.ptrSize ≤ u.ptrSize) {place : PlaceType}
    (hty : place.ty.PointerFree) (hcheck : place.check t = .ok ()) : place.check u = .ok () := by
  obtain ⟨n, hn, hlayout⟩ := bind_eq_ok.1 hcheck
  rw [require_eq_ok] at hlayout
  refine bind_eq_ok.2 ⟨n, Ty.measure_widen hty (Ty.check_widen h hty) hn, ?_⟩
  rw [require_eq_ok]
  exact hlayout.widen h

end PlaceIR

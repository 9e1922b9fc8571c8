import PlaceIR.Proofs.Expr.Origin
import PlaceIR.Proofs.Ty.Widening

/-! Expressions without pointers on a larger target. Where no address is taken and no live
local holds a pointer, no computed type has one, so the sizes that the typing rules take are
the same. All that is left to the target are the types of constants. -/

namespace PlaceIR

variable {t u : Target} {live : Live}

/-- A constant fits types of two forms. -/
theorem Const.fits_eq_true {c : Const} {ty : Ty} : c.fits t ty = true ↔
    (∃ n i, c = .int n ∧ ty = .int i ∧ i.WellFormed t ∧ i.Fits n) ∨
      ∃ b, c = .bool b ∧ ty = .bool := by
  cases c <;> cases ty <;> simp [fits]

def Table.PointerFree (locals : Table PlaceType) : Prop :=
  ∀ name place, locals.get? name = some place → place.ty.PointerFree

theorem Table.PointerFree.of_sub {locals : Table PlaceType} (h : locals.PointerFree)
    (hlive : live.Sub locals) : live.PointerFree :=
  fun name place hplace => h name place (hlive name place hplace)

namespace Expr

def TakesAddress : Expr → Prop
  | .value (.addrOf ..) | .value (.ref ..) => True
  | _ => False

def AddressFree (e : Expr) : Prop := ∀ p, Within parts p e → ¬ p.TakesAddress

theorem addressFree_of_parts {e : Expr} (he : ¬ e.TakesAddress)
    (hparts : ∀ p ∈ e.parts, p.AddressFree) : e.AddressFree :=
  forall_within_iff.2 ⟨he, hparts⟩

theorem addressFree_slot (name : String) : (Expr.place (.slot name)).AddressFree :=
  addressFree_of_parts id nofun

theorem AddressFree.part {e : Expr} (h : e.AddressFree) : ∀ p ∈ e.parts, p.AddressFree :=
  (forall_within_iff.1 h).2

/-! ### Computed types -/

theorem pointerFree_of_brings (hlive : live.PointerFree) {e : Expr} {ty : Ty}
    (he : ¬ e.TakesAddress) (h : e.Brings t live ty) : ty.PointerFree := by
  cases e with
  | value v =>
    cases v with
    | const =>
      obtain ⟨hfits, rfl⟩ := h
      rcases Const.fits_eq_true.1 hfits with ⟨_, i, _, rfl, _⟩ | ⟨_, _, rfl⟩
      · exact Ty.pointerFree_int i
      · exact Ty.pointerFree_bool
    | unOp op | binOp op =>
      cases op with
      | int _ result =>
        cases h
        exact Ty.pointerFree_int result
      | _ => exact h.elim
    | addrOf | ref => exact absurd trivial he
    | load | unknown => exact h.elim
  | place p =>
    cases p with
    | slot name =>
      obtain ⟨place, hplace, rfl⟩ := h
      exact hlive name place hplace
    | deref | field | index | unknown => exact h.elim

theorem pointerFree_of_infer (hlive : live.PointerFree) {e : Expr} {ty : Ty} (he : e.AddressFree)
    (h : e.infer t live = .ok ty) : ty.PointerFree :=
  of_infer (fun _ hty => hty.part) (fun s hs _ => pointerFree_of_brings hlive (he s hs)) h

end Expr

/-! ### The typing rules -/

theorem Const.fits_widen (h : t.ptrSize ≤ u.ptrSize) {c : Const} {ty : Ty}
    (hfits : c.fits t ty = true) : c.fits u ty = true := by
  rcases Const.fits_eq_true.1 hfits with ⟨n, i, hc, hty, hi, hn⟩ | hbool
  · exact Const.fits_eq_true.2 (.inl ⟨n, i, hc, hty, hi.widen h, hn⟩)
  · exact Const.fits_eq_true.2 (.inr hbool)

mutual

/-- A value has the type on a larger target that it has on a smaller one. -/
theorem Value.infer_widen (h : t.ptrSize ≤ u.ptrSize) (hlive : live.PointerFree) :
    ∀ v : Value, (Expr.value v).AddressFree → ∀ ty, v.infer t live = .ok ty →
      v.infer u live = .ok ty
  | .const .., _, _, hty => by
    obtain ⟨hfits, rfl⟩ := Value.infer_const_eq_ok.1 hty
    exact Value.infer_const_eq_ok.2 ⟨Const.fits_widen h hfits, rfl⟩
  | .load source _, hv, _, hty => by
    obtain ⟨place, hs, rfl⟩ := Value.infer_load_eq_ok.1 hty
    have hsource := source.infer_widen h hlive (hv.part _ (.head _)) place hs
    exact Value.infer_load_eq_ok.2 ⟨place, hsource, rfl⟩
  | .addrOf .., hv, _, _ => absurd trivial (hv _ .self)
  | .ref .., hv, _, _ => absurd trivial (hv _ .self)
  | .unOp _ operand, hv, _, hty => by
    obtain ⟨a, ha, hr⟩ := Value.infer_unOp_eq_ok.1 hty
    exact Value.infer_unOp_eq_ok.2 ⟨a, operand.infer_widen h hlive (hv.part _ (.head _)) a ha, hr⟩
  | .binOp _ left right, hv, _, hty => by
    obtain ⟨a, ha, b, hb, hr⟩ := Value.infer_binOp_eq_ok.1 hty
    have hleft := left.infer_widen h hlive (hv.part _ (.head _)) a ha
    have hright := right.infer_widen h hlive (hv.part _ (.tail _ (.head _))) b hb
    exact Value.infer_binOp_eq_ok.2 ⟨a, hleft, b, hright, hr⟩
  | .unknown, _, _, hty => nomatch hty
termination_by structural v => v

/-- A place has the place type on a larger target that it has on a smaller one. -/
theorem Place.infer_widen (h : t.ptrSize ≤ u.ptrSize) (hlive : live.PointerFree) :
    ∀ p : Place, (Expr.place p).AddressFree → ∀ place, p.infer t live = .ok place →
      p.infer u live = .ok place
  | .slot _, _, _, hplace => Place.infer_slot_eq_ok.2 (Place.infer_slot_eq_ok.1 hplace)
  | .deref operand _, hp, _, hplace => by
    obtain ⟨ty, hty, rfl⟩ := Place.infer_deref_eq_ok.1 hplace
    have hoperand := operand.infer_widen h hlive (hp.part _ (.head _)) ty hty
    exact Place.infer_deref_eq_ok.2 ⟨ty, hoperand, rfl⟩
  | .field root _, hp, _, hplace => by
    obtain ⟨r, hr, f, hf, rfl⟩ := Place.infer_field_eq_ok.1 hplace
    have hroot := root.infer_widen h hlive (hp.part _ (.head _)) r hr
    exact Place.infer_field_eq_ok.2 ⟨r, hroot, f, hf, rfl⟩
  | .index root index, hp, _, hplace => by
    obtain ⟨r, hr, elem, helem, i, hi, hint, n, hn, rfl⟩ := Place.infer_index_eq_ok.1 hplace
    -- the stride is the one size that is taken here, and it is that of a type without pointers
    have hroot : (Expr.place root).AddressFree := hp.part _ (.head _)
    have hfree : r.ty.PointerFree :=
      Expr.pointerFree_of_infer hlive hroot (Expr.infer_place_eq_ok.2 ⟨r, hr, rfl⟩)
    have hsize : elem.size u = .ok n :=
      ((hfree.part elem (Ty.mem_parts_of_elem? helem)).size_eq u t).trans hn
    have hindex := index.infer_widen h hlive (hp.part _ (.tail _ (.head _))) i hi
    exact Place.infer_index_eq_ok.2
      ⟨r, root.infer_widen h hlive hroot r hr, elem, helem, i, hindex, hint, n, hsize, rfl⟩
  | .unknown, _, _, hplace => nomatch hplace
termination_by structural p => p

end

end PlaceIR

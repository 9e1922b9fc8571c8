import PlaceIR.Proofs.Decides
import PlaceIR.Proofs.Ty.Parts

/-! Types of known kinds. A well-formed type has no node of unknown kind in it, and on a type
without such a node the check comes to a decision. -/

namespace PlaceIR

namespace Ty

variable {t : Target} {ty : Ty}

theorem known_of_parts (hne : ∀ kind, ty ≠ .unknown kind) (hp : ∀ p ∈ ty.parts, p.Known) :
    ty.Known := by
  intro kind hw
  cases hw with
  | self => exact hne kind rfl
  | inside hm hw => exact hp _ hm kind hw

theorem known_int (i : IntType) : (int i).Known := known_of_parts (fun _ => Ty.noConfusion) nofun

theorem known_bool : bool.Known := known_of_parts (fun _ => Ty.noConfusion) nofun

theorem known_rawPtr (m : Mutability) : (rawPtr m).Known :=
  known_of_parts (fun _ => Ty.noConfusion) nofun

theorem known_ref (l : Layout) (m : Mutability) : (ref l m).Known :=
  known_of_parts (fun _ => Ty.noConfusion) nofun

theorem known_of_fits {c : Const} (h : c.fits t ty = true) : ty.Known := by
  cases c with
  | int n =>
    cases ty with
    | int i => exact known_int i
    | bool | rawPtr | ref | box | tuple | array | union | enum | unknown => cases h
  | bool b =>
    cases ty with
    | bool => exact known_bool
    | int | rawPtr | ref | box | tuple | array | union | enum | unknown => cases h
  | other => cases ty <;> cases h

/-- A well-formed type is known. -/
theorem known_of_check (h : ty.check t = .ok ()) : ty.Known := by
  intro kind hw
  have hc : (unknown kind).check t = .ok () :=
    hw.closed (P := fun ty => ty.check t = .ok ()) (fun _ hty _ hp => check_part hty hp) h
  cases hc

theorem decides_size (h : ty.Known) : Decides (ty.size t) fun _ => True := by
  induction ty with
  | array e n ih => exact (ih (h.part (.head _))).bind fun _ _ => .intro
  | unknown kind => exact absurd rfl (h.ne_unknown kind)
  | int | bool | rawPtr | ref | box | tuple | union | enum => exact .intro

/-! ### The scans -/

theorem decides_scanTuple {last : Int} {fs : List (Int × Checked Int)}
    (h : ∀ f ∈ fs, Decides f.2 fun _ => True) : Decides (scanTuple t last fs) fun _ => True := by
  induction fs generalizing last with
  | nil => exact .intro
  | cons f fs ih =>
    rw [List.forall_mem_cons] at h
    refine h.1.bind fun n _ => (decides_require _).bind fun _ _ => ?_
    exact (decides_orIllFormed _).bind fun _ _ => ih h.2

theorem decides_scanUnion {bound : Int} {fs : List (Int × Checked Int)}
    (h : ∀ f ∈ fs, Decides f.2 fun _ => True) : Decides (scanUnion t bound fs) fun _ => True := by
  induction fs with
  | nil => exact .intro
  | cons f fs ih =>
    rw [List.forall_mem_cons] at h
    refine h.1.bind fun n _ => (decides_require _).bind fun _ _ => ?_
    exact (decides_orIllFormed _).bind fun _ _ => (decides_require _).bind fun _ _ => ih h.2

theorem decides_scanEnum {bound : Int} {vs : List (Checked Int)}
    (h : ∀ m ∈ vs, Decides m fun _ => True) : Decides (scanEnum bound vs) fun _ => True := by
  induction vs with
  | nil => exact .intro
  | cons m vs ih =>
    rw [List.forall_mem_cons] at h
    exact h.1.bind fun n _ => (decides_require _).bind fun _ _ => ih h.2

theorem decides_measure (h : ty.Known) (hc : Decides (ty.check t) fun _ => True) :
    Decides (ty.measure t) fun _ => True :=
  hc.bind fun _ _ => decides_size h

theorem decides_check (h : ty.Known) : Decides (ty.check t) fun _ => True := by
  induction ty with
  | int | ref => exact (decides_require _).trivial
  | bool | rawPtr => exact .intro
  | box p ih => exact ih (h.part (.head _))
  | tuple fs s a ih =>
    refine (decides_require _).bind fun _ _ => (decides_require _).bind fun _ _ => ?_
    refine (decides_scanTuple ?_).bind fun _ _ => (decides_require _).trivial
    intro g hg
    rw [measureFields_eq] at hg
    obtain ⟨f, hf, rfl⟩ := List.mem_map.1 ((byOffset_perm _).mem_iff.1 hg)
    have hk := h.part (List.mem_map_of_mem hf)
    exact decides_measure hk (ih f hf hk)
  | array e n ih =>
    have hk := h.part (.head _)
    refine (ih hk).bind fun _ _ => (decides_size hk).bind fun _ _ => ?_
    exact (decides_orIllFormed _).bind fun _ _ => .intro
  | union fs s ih =>
    refine (decides_require _).bind fun _ _ => decides_scanUnion ?_
    rw [measureFields_eq, List.forall_mem_map]
    intro f hf
    have hk := h.part (List.mem_map_of_mem hf)
    exact decides_measure hk (ih f hf hk)
  | enum vs s ih =>
    refine (decides_require _).bind fun _ _ => decides_scanEnum ?_
    rw [measureVariants_eq, List.forall_mem_map]
    intro v hv
    have hk := h.part hv
    exact decides_measure hk (ih v hv hk)
  | unknown kind => exact absurd rfl (h.ne_unknown kind)

end Ty

theorem PlaceType.decides_check {t : Target} {p : PlaceType} (h : p.ty.Known) :
    Decides (p.check t) fun _ => True :=
  (Ty.decides_measure h (Ty.decides_check h)).bind fun _ _ => (decides_require _).trivial

end PlaceIR

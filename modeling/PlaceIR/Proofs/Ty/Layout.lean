import PlaceIR.Build
import PlaceIR.Proofs.Align
import PlaceIR.Proofs.Ty.Known

/-! The layout of a well-formed type. Its size is one that the target can address, and its
alignment is a power of two. A tuple asks for no more than the largest alignment; an integer
may ask for more, but not for more than its size. A union or an enum asks for the largest
alignment among its parts, and since all of them are powers of two it is a multiple of each. -/

namespace PlaceIR

def Target.IsTyAlign (t : Target) (a : Int) : Prop :=
  isPowerOfTwo a = true ∧ a ≤ max t.maxAlign t.maxSize

theorem Target.IsTyAlign.of_isSize {t : Target} {a : Int} (ha : isPowerOfTwo a = true)
    (h : t.IsSize a) : t.IsTyAlign a := by
  refine ⟨ha, ?_⟩
  have := h.2
  omega

theorem Target.IsTyAlign.of_isAlign {t : Target} {a : Int} (h : t.IsAlign a) : t.IsTyAlign a := by
  refine ⟨h.1, ?_⟩
  have := h.2
  omega

namespace Ty

variable {t : Target} {ty : Ty} {a : Int} {as : List Int} {vs : List Ty} {fs : List (Int × Ty)}

/-! ### The strictest alignment -/

theorem strictest_cons (h : as ≠ []) : strictest (a :: as) = max a (strictest as) := by
  cases as with
  | nil => exact absurd rfl h
  | cons b as => rfl

theorem strictest_mem (h : as ≠ []) : strictest as ∈ as := by
  induction as with
  | nil => exact absurd rfl h
  | cons a as ih =>
    by_cases has : as = []
    · simp [has, strictest]
    · rw [strictest_cons has]
      rcases Int.le_total a (strictest as) with hle | hle
      · simp [Int.max_eq_right hle, ih has]
      · simp [Int.max_eq_left hle]

theorem le_strictest (h : a ∈ as) : a ≤ strictest as := by
  induction as with
  | nil => cases h
  | cons b as ih =>
    by_cases has : as = []
    · simp_all [strictest]
    · rw [strictest_cons has]
      rcases List.mem_cons.1 h with rfl | h
      · omega
      · have := ih h
        omega

/-! ### The alignments of the parts -/

theorem variantAligns_eq_ok : variantAligns t vs = .ok as ↔ vs.map (align t) = as.map .ok := by
  induction vs generalizing as with
  | nil => cases as <;> simp [variantAligns]
  | cons v vs ih =>
    cases as with
    | nil => simp [variantAligns, bind_eq_ok]
    | cons a as => simp [variantAligns, bind_eq_ok, ih]

theorem fieldAligns_eq : fieldAligns t fs = variantAligns t (fs.map Prod.snd) := by
  induction fs with
  | nil => rfl
  | cons f fs ih => rw [fieldAligns, ih, List.map_cons, variantAligns]

theorem align_union_eq_ok {s : Int} : (union fs s).align t = .ok a ↔
    ∃ as : List Int, (fs.map Prod.snd).map (align t) = as.map .ok ∧ strictest as = a := by
  simp [align, fieldAligns_eq, bind_eq_ok, variantAligns_eq_ok]

theorem align_enum_eq_ok {s : Int} : (enum vs s).align t = .ok a ↔
    ∃ as : List Int, vs.map (align t) = as.map .ok ∧ strictest as = a := by
  simp [align, bind_eq_ok, variantAligns_eq_ok]

/-- Types that have alignments have them as a list. -/
theorem exists_aligns (h : ∀ v ∈ vs, ∃ a, v.align t = .ok a) :
    ∃ as : List Int, vs.map (align t) = as.map .ok := by
  induction vs with
  | nil => exact ⟨[], rfl⟩
  | cons v vs ih =>
    obtain ⟨⟨a, ha⟩, hvs⟩ := List.forall_mem_cons.1 h
    obtain ⟨as, has⟩ := ih hvs
    exact ⟨a :: as, by simp [ha, has]⟩

theorem exists_mem_aligns {v : Ty} (h : vs.map (align t) = as.map .ok) (hv : v ∈ vs) :
    ∃ a ∈ as, v.align t = .ok a := by
  have hm : v.align t ∈ as.map .ok := h ▸ List.mem_map_of_mem hv
  obtain ⟨a, ha, he⟩ := List.mem_map.1 hm
  exact ⟨a, ha, he.symm⟩

theorem exists_mem_of_aligns (h : vs.map (align t) = as.map .ok) (ha : a ∈ as) :
    ∃ v ∈ vs, v.align t = .ok a := by
  have hm : .ok a ∈ vs.map (align t) := h ▸ List.mem_map_of_mem ha
  exact List.mem_map.1 hm

/-- What holds of the alignments of all parts, and of 1, holds of the strictest of them. -/
theorem strictest_induction {P : Int → Prop} (h : vs.map (align t) = as.map .ok) (h1 : P 1)
    (hvs : ∀ v ∈ vs, ∃ a, v.align t = .ok a ∧ P a) : P (strictest as) := by
  by_cases has : as = []
  · rw [has]
    exact h1
  · obtain ⟨v, hv, hva⟩ := exists_mem_of_aligns h (strictest_mem has)
    obtain ⟨a, ha, hP⟩ := hvs v hv
    rw [hva, Except.ok.injEq] at ha
    exact ha ▸ hP

/-! ### Well-formed types -/

theorem exists_strictest (h : ∀ v ∈ vs, ∃ a, v.align t = .ok a ∧ t.IsTyAlign a) :
    ∃ as : List Int, vs.map (align t) = as.map .ok ∧ t.IsTyAlign (strictest as) := by
  have hone : t.IsTyAlign 1 := .of_isSize rfl ⟨by omega, t.one_le_maxSize⟩
  obtain ⟨as, has⟩ := exists_aligns fun v hv => (h v hv).imp fun _ ha => ha.1
  exact ⟨as, has, strictest_induction has hone h⟩

/-- The alignment of a well-formed type exists. -/
theorem exists_align_of_check (h : ty.check t = .ok ()) :
    ∃ a, ty.align t = .ok a ∧ t.IsTyAlign a := by
  induction ty with
  | int i =>
    rw [check, require_eq_ok] at h
    exact ⟨i.size, rfl, .of_isSize h.2 h.1⟩
  | bool => exact ⟨1, rfl, .of_isSize rfl ⟨by omega, t.one_le_maxSize⟩⟩
  | rawPtr | ref | box =>
    exact ⟨t.ptrSize, rfl, .of_isSize ((isPowerOfTwo_ofNat _).2 t.pow) t.isSize_ptrSize⟩
  | tuple fs s a => exact ⟨a, rfl, .of_isAlign (check_tuple_eq_ok.1 h).2.1⟩
  | array e n ih => exact ih (check_array_eq_ok.1 h).1
  | union fs s ih =>
    have hfs : ∀ v ∈ fs.map Prod.snd, ∃ a, v.align t = .ok a ∧ t.IsTyAlign a :=
      List.forall_mem_map.2 fun f hf => ih f hf (check_part h (List.mem_map_of_mem hf))
    obtain ⟨as, has, ha⟩ := exists_strictest hfs
    exact ⟨_, align_union_eq_ok.2 ⟨as, has, rfl⟩, ha⟩
  | enum vs s ih =>
    obtain ⟨as, has, ha⟩ := exists_strictest fun v hv => ih v hv (check_part h hv)
    exact ⟨_, align_enum_eq_ok.2 ⟨as, has, rfl⟩, ha⟩
  | unknown => cases h

/-- A type that asks for the alignment of its parts: an array, a union or an enum. -/
def AlignedByParts : Ty → Prop
  | .array .. | .union .. | .enum .. => True
  | _ => False

theorem dvd_strictest (h : vs.map (align t) = as.map .ok)
    (hvs : ∀ v ∈ vs, ∃ a, v.align t = .ok a ∧ t.IsTyAlign a) {v : Ty} (hv : v ∈ vs) :
    ∃ a, v.align t = .ok a ∧ a ∣ strictest as := by
  have hpow : isPowerOfTwo (strictest as) = true :=
    strictest_induction (P := fun a => isPowerOfTwo a = true) h rfl fun v hv =>
      (hvs v hv).imp fun _ ha => ⟨ha.1, ha.2.1⟩
  obtain ⟨a, ha, hva⟩ := exists_mem_aligns h hv
  obtain ⟨b, hb, hbp, _⟩ := hvs v hv
  rw [hva, Except.ok.injEq] at hb
  exact ⟨a, hva, dvd_of_isPowerOfTwo_of_le (hb ▸ hbp) hpow (le_strictest ha)⟩

theorem align_dvd_of_part {p : Ty} (h : ty.check t = .ok ()) (hty : ty.AlignedByParts)
    (ha : ty.align t = .ok a) (hp : p ∈ ty.parts) : ∃ b, p.align t = .ok b ∧ b ∣ a := by
  have haligns : ∀ q ∈ ty.parts, ∃ b, q.align t = .ok b ∧ t.IsTyAlign b :=
    fun q hq => exists_align_of_check (check_part h hq)
  cases ty with
  | array e n => exact ⟨a, List.mem_singleton.1 hp ▸ ha, Int.dvd_refl a⟩
  | union fs s =>
    obtain ⟨as, has, rfl⟩ := align_union_eq_ok.1 ha
    exact dvd_strictest has haligns hp
  | enum vs s =>
    obtain ⟨as, has, rfl⟩ := align_enum_eq_ok.1 ha
    exact dvd_strictest has haligns hp
  | int | bool | rawPtr | ref | box | tuple | unknown => exact hty.elim

/-- All that stands in a well-formed type, at any depth, is well-formed and of a known kind.
The type has a size and an alignment: the size is one that the target can address, the
alignment a power of two, and no larger than the largest alignment or the largest size. The
alignment of an array, a union or an enum is a multiple of those of its parts. -/
theorem layout_in_range {t : Target} {ty : Ty} (h : ty.check t = .ok ()) :
    (∀ p, Within parts p ty → p.check t = .ok () ∧ ∀ kind, p ≠ .unknown kind) ∧
    ∃ n a, ty.size t = .ok n ∧ ty.align t = .ok a ∧ 0 ≤ n ∧ n ≤ t.maxSize ∧
      (∃ k, a = twoPow k) ∧ 0 < a ∧ a ≤ max t.maxAlign t.maxSize ∧
      (ty.AlignedByParts → ∀ p ∈ ty.parts, ∃ b, p.align t = .ok b ∧ b ∣ a) := by
  constructor
  · intro p hp
    have hcheck : p.check t = .ok () :=
      hp.closed (P := fun ty => ty.check t = .ok ()) (fun _ hty _ hq => check_part hty hq) h
    exact ⟨hcheck, (known_of_check hcheck).ne_unknown⟩
  · obtain ⟨n, hn, hsize⟩ := exists_size_of_check h
    obtain ⟨a, ha, hpow, hle⟩ := exists_align_of_check h
    refine ⟨n, a, hn, ha, hsize.1, hsize.2, isPowerOfTwo_iff_exists_twoPow.1 hpow,
      isPowerOfTwo_pos hpow, hle, fun hty p hp => ?_⟩
    exact align_dvd_of_part h hty ha hp

/-! ### A number larger than the largest alignment -/

def boxOrPair : Ty := .enum [.box .bool, .tuple [(1, .u8), (0, .u8)] 2 2] 8

/-- A number of 2³⁰ bytes over a box or a pair of bytes, twice. -/
def pages : Ty := .array (.union [(0, .int ⟨.signed, 0x40000000⟩), (4, boxOrPair)] 0x40000000) 2

/-- The number is aligned to its size, the box and the pair to a pointer. -/
theorem pages_layout : pages.check .default = .ok () ∧
    Target.default.maxAlign < 0x40000000 ∧ pages.align .default = .ok 0x40000000 ∧
    (∃ k, (0x40000000 : Int) = twoPow k) ∧
    0x40000000 ≤ max Target.default.maxAlign Target.default.maxSize ∧
    ∃ b, (Ty.tuple [(1, .u8), (0, .u8)] 2 2).align .default = .ok b ∧ b ∣ 8 := by
  have hpages : pages.check .default = .ok () := by decide
  have hwithin : Within parts boxOrPair pages := .inside (.head _) (.inside (.tail _ (.head _)) .self)
  obtain ⟨hparts, n, a, _, ha, _, _, hpow, _, hle, _⟩ := layout_in_range hpages
  obtain ⟨_, _, a', _, ha', _, _, _, _, _, hdvd⟩ := layout_in_range (hparts _ hwithin).1
  cases ha
  cases ha'
  exact ⟨hpages, by decide, rfl, hpow, hle, hdvd trivial _ (.tail _ (.head _))⟩

end Ty

end PlaceIR

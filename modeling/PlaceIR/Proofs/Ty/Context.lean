import PlaceIR.Build
import PlaceIR.Proofs.Ty.Parts

/-! Types with a part left out. The check of a compound type asks of each part only whether
it is well-formed and how large it is, so well-formed parts of one size may replace each
other at any depth. The alignments that the parts ask for play no role. -/

namespace PlaceIR.Ty

/-- A type with one part left out, at some depth. -/
inductive Context where
  | hole
  | box (pointee : Context)
  | tuple (before : List (Int × Ty)) (offset : Int) (field : Context) (after : List (Int × Ty))
      (size align : Int)
  | array (elem : Context) (count : Int)
  | union (before : List (Int × Ty)) (offset : Int) (field : Context) (after : List (Int × Ty))
      (size : Int)
  | enum (before : List Ty) (variant : Context) (after : List Ty) (size : Int)

def Context.fill (ty : Ty) : Context → Ty
  | hole => ty
  | box c => .box (c.fill ty)
  | tuple before offset c after size align =>
    .tuple (before ++ (offset, c.fill ty) :: after) size align
  | array c count => .array (c.fill ty) count
  | union before offset c after size => .union (before ++ (offset, c.fill ty) :: after) size
  | enum before c after size => .enum (before ++ c.fill ty :: after) size

variable {t : Target} {a b ty : Ty}

/-- Whatever stands inside a type, at whatever depth, is the part that some context leaves
out. -/
theorem within_iff_exists_fill : Within parts a ty ↔ ∃ c : Context, c.fill a = ty := by
  constructor
  · intro h
    induction h with
    | self => exact ⟨.hole, rfl⟩
    | @inside p ty hp _ ih =>
      obtain ⟨c, rfl⟩ := ih
      cases ty with
      | int | bool | rawPtr | ref | unknown => exact absurd hp List.not_mem_nil
      | box => exact ⟨.box c, congrArg box (List.mem_singleton.1 hp)⟩
      | array _ count => exact ⟨.array c count, congrArg (array · count) (List.mem_singleton.1 hp)⟩
      | tuple _ size align =>
        obtain ⟨⟨offset, _⟩, hf, rfl⟩ := List.mem_map.1 hp
        obtain ⟨before, after, rfl⟩ := List.append_of_mem hf
        exact ⟨.tuple before offset c after size align, rfl⟩
      | union _ size =>
        obtain ⟨⟨offset, _⟩, hf, rfl⟩ := List.mem_map.1 hp
        obtain ⟨before, after, rfl⟩ := List.append_of_mem hf
        exact ⟨.union before offset c after size, rfl⟩
      | enum _ size =>
        obtain ⟨before, after, rfl⟩ := List.append_of_mem hp
        exact ⟨.enum before c after size, rfl⟩
  · rintro ⟨c, rfl⟩
    induction c with
    | hole => exact .self
    | box c ih => exact .inside (List.mem_singleton_self _) ih
    | array c _ ih => exact .inside (List.mem_singleton_self _) ih
    | tuple before offset c after _ _ ih =>
      exact .inside (List.mem_map_of_mem (List.mem_append_right before (.head after))) ih
    | union before offset c after _ ih =>
      exact .inside (List.mem_map_of_mem (List.mem_append_right before (.head after))) ih
    | enum before c after _ ih => exact .inside (List.mem_append_right before (.head after)) ih

/-! ### Parts that may replace each other -/

structure Interchangeable (t : Target) (a b : Ty) : Prop where
  check : a.check t = b.check t
  size : a.size t = b.size t

namespace Interchangeable

theorem measure (h : Interchangeable t a b) : a.measure t = b.measure t := by
  rw [Ty.measure, Ty.measure, h.check, h.size]

theorem place (h : Interchangeable t a b) (align : Int) :
    PlaceType.check t ⟨a, align⟩ = PlaceType.check t ⟨b, align⟩ := by
  rw [PlaceType.check, PlaceType.check, h.measure]

theorem box (h : Interchangeable t a b) : Interchangeable t (.box a) (.box b) := ⟨h.check, rfl⟩

theorem array (h : Interchangeable t a b) (count : Int) :
    Interchangeable t (.array a count) (.array b count) where
  check := by rw [Ty.check, Ty.check, h.check, h.size]
  size := by rw [Ty.size, Ty.size, h.size]

/-- Fields are measured alike, at the same offsets and in the same order. -/
theorem measureFields (h : Interchangeable t a b) (before : List (Int × Ty)) (offset : Int)
    (after : List (Int × Ty)) : Ty.measureFields t (before ++ (offset, a) :: after) =
      Ty.measureFields t (before ++ (offset, b) :: after) := by
  simp only [measureFields_eq, List.map_append, List.map_cons, h.measure]

theorem tuple (h : Interchangeable t a b) (before : List (Int × Ty)) (offset : Int)
    (after : List (Int × Ty)) (size align : Int) :
    Interchangeable t (.tuple (before ++ (offset, a) :: after) size align)
      (.tuple (before ++ (offset, b) :: after) size align) where
  check := by rw [Ty.check, Ty.check, h.measureFields]
  size := rfl

theorem union (h : Interchangeable t a b) (before : List (Int × Ty)) (offset : Int)
    (after : List (Int × Ty)) (size : Int) :
    Interchangeable t (.union (before ++ (offset, a) :: after) size)
      (.union (before ++ (offset, b) :: after) size) where
  check := by rw [Ty.check, Ty.check, h.measureFields]
  size := rfl

theorem enum (h : Interchangeable t a b) (before after : List Ty) (size : Int) :
    Interchangeable t (.enum (before ++ a :: after) size) (.enum (before ++ b :: after) size) where
  check := by
    rw [Ty.check, Ty.check]
    simp only [measureVariants_eq, List.map_append, List.map_cons, h.measure]
  size := rfl

/-- Types that may replace each other may do so in every context. -/
theorem fill (h : Interchangeable t a b) (c : Context) :
    Interchangeable t (c.fill a) (c.fill b) := by
  induction c with
  | hole => exact h
  | box c ih => exact ih.box
  | tuple before offset c after size align ih => exact ih.tuple before offset after size align
  | array c count ih => exact ih.array count
  | union before offset c after size ih => exact ih.union before offset after size
  | enum before c after size ih => exact ih.enum before after size

end Interchangeable

/-- What stands around a part does not take its size away. -/
theorem exists_size_fill (h : ∃ n, ty.size t = .ok n) (c : Context) :
    ∃ n, (c.fill ty).size t = .ok n := by
  induction c with
  | hole => exact h
  | box => exact ⟨t.ptrSize, rfl⟩
  | tuple _ _ _ _ size => exact ⟨size, rfl⟩
  | array c count ih =>
    obtain ⟨n, hn⟩ := ih
    exact ⟨n * count, by rw [Context.fill, size, hn]; rfl⟩
  | union _ _ _ _ size => exact ⟨size, rfl⟩
  | enum _ _ _ size => exact ⟨size, rfl⟩

/-- Well-formed types of one size may replace each other. In every context they pass, are
rejected, or are at fault alike, have the same size, and make place types that are accepted
at the same alignments. -/
theorem check_compositional (ha : a.check t = .ok ()) (hb : b.check t = .ok ())
    (hsize : a.size t = b.size t) (c : Context) :
    (c.fill a).check t = (c.fill b).check t ∧
    (∃ n, (c.fill a).size t = .ok n ∧ (c.fill b).size t = .ok n) ∧
    ∀ align, PlaceType.check t ⟨c.fill a, align⟩ = PlaceType.check t ⟨c.fill b, align⟩ := by
  have hfill := Interchangeable.fill ⟨ha.trans hb.symm, hsize⟩ c
  obtain ⟨n, hn, _⟩ := exists_size_of_check ha
  obtain ⟨m, hm⟩ := exists_size_fill ⟨n, hn⟩ c
  exact ⟨hfill.check, ⟨m, hm, hfill.size ▸ hm⟩, hfill.place⟩

/-! ### Bytes for a number -/

/-- Four bytes that need no alignment. -/
def looseBytes : Ty := .tuple [(1, .array .u8 3), (0, .bool)] 4 1

/-- A variant that holds pairs of a part of four bytes and a flag. -/
def pairsContext : Context :=
  .enum [.u64] (.array (.tuple [(4, .bool)] 0 .hole [] 8 4) 3) [.bool] 24

/-- The bytes may take the place of a number, although a union of them with a flag is less
strictly aligned. -/
theorem looseBytes_for_u32 :
    (pairsContext.fill .u32).check .default = .ok () ∧
    (pairsContext.fill looseBytes).check .default = .ok () ∧
    (∃ n, (pairsContext.fill .u32).size .default = .ok n ∧
      (pairsContext.fill looseBytes).size .default = .ok n) ∧
    PlaceType.check .default ⟨pairsContext.fill looseBytes, 8⟩ = .ok () ∧
    (union [(0, .u32), (0, .bool)] 4).align .default = .ok 4 ∧
    (union [(0, looseBytes), (0, .bool)] 4).align .default = .ok 1 := by
  obtain ⟨hcheck, hsize, hplace⟩ :=
    check_compositional (t := .default) (a := .u32) (b := looseBytes) rfl rfl rfl pairsContext
  exact ⟨rfl, hcheck ▸ rfl, hsize, hplace 8 ▸ rfl, rfl, rfl⟩

end PlaceIR.Ty

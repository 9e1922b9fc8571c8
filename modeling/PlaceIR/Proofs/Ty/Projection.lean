import PlaceIR.Proofs.Ty.Tuple

/-! Projections into a type, and the bytes that they lead to. A path of field and index
steps into a well-formed type stays inside the bytes of the type; two paths that part at
a tuple or at an array share no byte. Fields of a union may overlap, so nothing is said
of paths that part there. -/

namespace PlaceIR

/-- One step into a type: to a field of a tuple or union, by its position in the
declaration, or to an element of an array. -/
inductive Projection where
  | field (position : Int)
  | index (i : Int)
  deriving DecidableEq, Repr

namespace Ty

variable {t : Target} {ty root mid sub : Ty} {path : List Projection}

/-! ### Paths -/

inductive Reaches : Ty → List Projection → Ty → Prop
  | here {ty : Ty} : Reaches ty [] ty
  | field {ty sub : Ty} {path : List Projection} {position : Int} {f : Int × Ty} :
      ty.field? position = some f → Reaches f.2 path sub →
      Reaches ty (.field position :: path) sub
  | index {elem sub : Ty} {path : List Projection} {count i : Int} :
      0 ≤ i → i < count → Reaches elem path sub →
      Reaches (.array elem count) (.index i :: path) sub

/-- The number of bytes from the start of a type to where a path leads: the offsets of
the fields, and for each index so many times the size of the element. -/
def offset (t : Target) : Ty → List Projection → Checked Int
  | _, [] => .ok 0
  | ty, .field position :: path => do
    let (start, sub) ← orIllFormed (ty.field? position)
    return start + (← sub.offset t path)
  | ty, .index i :: path => do
    let elem ← orIllFormed ty.elem?
    let stride ← elem.size t
    return i * stride + (← elem.offset t path)
termination_by structural _ path => path

/-- A byte of the type is one of those that a path leads to. -/
def Covers (t : Target) (root : Ty) (path : List Projection) (byte : Int) : Prop :=
  ∃ sub start n, Reaches root path sub ∧ root.offset t path = .ok start ∧
    sub.size t = .ok n ∧ start ≤ byte ∧ byte < start + n

/-- The bytes that a single step leads to, from `start` to before `stop`. -/
inductive Piece (t : Target) : Ty → Projection → Int → Int → Prop
  | field {ty : Ty} {position n : Int} {f : Int × Ty} :
      ty.field? position = some f → f.2.size t = .ok n →
      Piece t ty (.field position) f.1 (f.1 + n)
  | index {elem : Ty} {count i n : Int} : 0 ≤ i → i < count → elem.size t = .ok n →
      Piece t (.array elem count) (.index i) (i * n) (i * n + n)

theorem offset_field {position : Int} {f : Int × Ty} (hf : ty.field? position = some f)
    {x : Int} : ty.offset t (.field position :: path) = .ok x ↔
      ∃ y, f.2.offset t path = .ok y ∧ f.1 + y = x := by
  simp [offset, hf, orIllFormed, bind_eq_ok]

theorem offset_index {elem : Ty} {count i x : Int} :
    (array elem count).offset t (.index i :: path) = .ok x ↔
      ∃ n, elem.size t = .ok n ∧ ∃ y, elem.offset t path = .ok y ∧ i * n + y = x := by
  simp [offset, elem?, orIllFormed, bind_eq_ok]

/-- A path into a well-formed type leads to a well-formed type. -/
theorem Reaches.check (hr : Reaches root path sub) (h : root.check t = .ok ()) :
    sub.check t = .ok () := by
  induction hr with
  | here => exact h
  | field hf _ ih => exact ih (check_part h (mem_parts_of_field? hf))
  | index _ _ _ ih => exact ih (check_part h (List.mem_singleton.2 rfl))

theorem Reaches.of_append {rest : List Projection} (hr : Reaches root path mid)
    (h : Reaches root (path ++ rest) sub) : Reaches mid rest sub := by
  induction hr with
  | here => exact h
  | field hf _ ih =>
    cases h with
    | field hg h =>
      rw [hf, Option.some.injEq] at hg
      exact ih (hg ▸ h)
  | index _ _ _ ih =>
    cases h with
    | index _ _ h => exact ih h

theorem Reaches.offset_append {rest : List Projection} {x : Int} (hr : Reaches root path mid)
    (h : root.offset t (path ++ rest) = .ok x) :
    ∃ y z, root.offset t path = .ok y ∧ mid.offset t rest = .ok z ∧ y + z = x := by
  induction hr generalizing x with
  | here => exact ⟨0, x, rfl, h, by omega⟩
  | field hf _ ih =>
    obtain ⟨w, hw, rfl⟩ := (offset_field hf).1 h
    obtain ⟨y, z, hy, hz, rfl⟩ := ih hw
    exact ⟨_, z, (offset_field hf).2 ⟨y, hy, rfl⟩, hz, by omega⟩
  | index _ _ _ ih =>
    obtain ⟨n, hn, w, hw, rfl⟩ := offset_index.1 h
    obtain ⟨y, z, hy, hz, rfl⟩ := ih hw
    exact ⟨_, z, offset_index.2 ⟨n, hn, y, hy, rfl⟩, hz, by omega⟩

/-! ### Single steps -/

theorem field?_mem {position : Int} {f : Int × Ty} {fs : List (Int × Ty)}
    (hfs : ty.fields? = some fs) (h : ty.field? position = some f) :
    0 ≤ position ∧ fs[position.toNat]? = some f := by
  unfold field? at h
  split at h
  · rw [hfs, Option.bind_some] at h
    exact ⟨by assumption, h⟩
  · cases h

theorem mul_add_le_of_lt {i j n : Int} (hn : 0 ≤ n) (h : i < j) : i * n + n ≤ j * n := by
  have hmul : (i + 1) * n ≤ j * n := Int.mul_le_mul_of_nonneg_right h hn
  rwa [Int.add_mul, Int.one_mul] at hmul

/-- A step into a well-formed type leads to bytes of the type. -/
theorem Piece.inside {a : Projection} {start stop size : Int} (hp : Piece t ty a start stop)
    (h : ty.check t = .ok ()) (hsize : ty.size t = .ok size) : 0 ≤ start ∧ stop ≤ size := by
  cases hp with
  | @field _ position n f hf hn =>
    cases ty with
    | tuple fs s a =>
      obtain ⟨_, hm⟩ := field?_mem rfl hf
      obtain ⟨_, m, hsizef, ho, hle⟩ :=
        (check_tuple_iff_fits.1 h).1.inside f (List.mem_of_getElem? hm)
      rw [hsizef, Except.ok.injEq] at hn
      cases hsize
      exact ⟨ho, hn ▸ hle⟩
    | union fs s =>
      obtain ⟨_, hm⟩ := field?_mem rfl hf
      obtain ⟨m, hmeasure, ho, _, hle⟩ := (check_union_eq_ok.1 h).2 f (List.mem_of_getElem? hm)
      rw [(measure_eq_ok.1 hmeasure).2, Except.ok.injEq] at hn
      cases hsize
      exact ⟨ho.1, hn ▸ hle⟩
    | _ => simp [field?, fields?] at hf
  | @index elem count i n h0 hi hn =>
    obtain ⟨he, _⟩ := check_array_eq_ok.1 h
    obtain ⟨m, hm, hs⟩ := exists_size_of_check he
    rw [hn, Except.ok.injEq] at hm
    have hn0 : 0 ≤ n := hm ▸ hs.1
    simp only [Ty.size, hn, bind_ok, pure_eq_ok, Except.ok.injEq] at hsize
    rw [← hsize, Int.mul_comm n]
    exact ⟨Int.mul_nonneg h0 hn0, mul_add_le_of_lt hn0 hi⟩

/-- A type in which different steps lead to different bytes: a tuple or an array. -/
def Separates : Ty → Prop
  | .tuple .. => True
  | .array .. => True
  | _ => False

/-- Different steps into a well-formed tuple or array lead to bytes on either side of
each other. -/
theorem Piece.apart {a b : Projection} {start stop start' stop' : Int}
    (hp : Piece t ty a start stop) (hq : Piece t ty b start' stop') (h : ty.check t = .ok ())
    (hs : ty.Separates) (hab : a ≠ b) : stop ≤ start' ∨ stop' ≤ start := by
  cases hp with
  | @field _ i n f hf hn =>
    cases hq with
    | @field _ j m g hg hm =>
      cases ty with
      | tuple fs s a =>
        obtain ⟨hi, hfi⟩ := field?_mem rfl hf
        obtain ⟨hj, hgj⟩ := field?_mem rfl hg
        obtain ⟨hi', rfl⟩ := List.getElem?_eq_some_iff.1 hfi
        obtain ⟨hj', rfl⟩ := List.getElem?_eq_some_iff.1 hgj
        have hpw := List.pairwise_iff_getElem.1 (check_tuple_iff_fits.1 h).1.apart
        have hne : i ≠ j := fun e => hab (by rw [e])
        rcases Nat.lt_or_gt_of_ne (show i.toNat ≠ j.toNat by omega) with hlt | hlt
        · exact (hpw _ _ hi' hj' hlt).imp (fun h => h.le hn) fun h => h.le hm
        · exact (hpw _ _ hj' hi' hlt).symm.imp (fun h => h.le hn) fun h => h.le hm
      | array => simp [field?, fields?] at hf
      | _ => exact hs.elim
    | index => simp [field?, fields?] at hf
  | @index elem count i n _ _ hn =>
    cases hq with
    | field hg => simp [field?, fields?] at hg
    | @index _ _ j m _ _ hm =>
      obtain ⟨k, hk, hk0⟩ := exists_size_of_check (check_array_eq_ok.1 h).1
      rw [hk, Except.ok.injEq] at hn hm
      subst hn hm
      have hne : i ≠ j := fun e => hab (by rw [e])
      rcases Int.lt_or_gt_of_ne hne with hlt | hlt
      · exact .inl (mul_add_le_of_lt hk0.1 hlt)
      · exact .inr (mul_add_le_of_lt hk0.1 hlt)

/-! ### Whole paths -/

/-- Where a path into a well-formed type leads to lies inside the type. -/
theorem Reaches.inside (hr : Reaches root path sub) (h : root.check t = .ok ()) :
    ∃ start n size, root.offset t path = .ok start ∧ sub.size t = .ok n ∧
      root.size t = .ok size ∧ 0 ≤ start ∧ 0 ≤ n ∧ start + n ≤ size := by
  induction hr with
  | here =>
    obtain ⟨n, hn, hs⟩ := exists_size_of_check h
    exact ⟨0, n, n, rfl, hn, hn, by omega, hs.1, by omega⟩
  | @field ty sub path position f hf _ ih =>
    obtain ⟨y, n, m, hy, hn, hm, h0, hn0, hle⟩ := ih (check_part h (mem_parts_of_field? hf))
    obtain ⟨size, hsize, _⟩ := exists_size_of_check h
    have hin := (Piece.field hf hm).inside h hsize
    exact ⟨_, n, size, (offset_field hf).2 ⟨y, hy, rfl⟩, hn, hsize, by omega, hn0, by omega⟩
  | @index elem sub path count i h0i hic _ ih =>
    obtain ⟨y, n, m, hy, hn, hm, h0, hn0, hle⟩ := ih (check_array_eq_ok.1 h).1
    obtain ⟨size, hsize, _⟩ := exists_size_of_check h
    have hin := (Piece.index h0i hic hm).inside h hsize
    exact ⟨_, n, size, offset_index.2 ⟨m, hm, y, hy, rfl⟩, hn, hsize, by omega, hn0, by omega⟩

/-- A path leads to bytes of the piece that its first step leads to. -/
theorem Covers.first {a : Projection} {byte : Int} (hc : Covers t ty (a :: path) byte)
    (h : ty.check t = .ok ()) : ∃ start stop, Piece t ty a start stop ∧ start ≤ byte ∧ byte < stop := by
  obtain ⟨sub, x, n, hr, hx, hn, hlo, hhi⟩ := hc
  cases hr with
  | @field _ _ _ _ f hf hr =>
    obtain ⟨y, k, m, hy, hk, hm, h0, _, hle⟩ := hr.inside (check_part h (mem_parts_of_field? hf))
    obtain ⟨z, hz, rfl⟩ := (offset_field hf).1 hx
    rw [hy, Except.ok.injEq] at hz
    rw [hn, Except.ok.injEq] at hk
    exact ⟨_, _, .field hf hm, by omega, by omega⟩
  | @index elem _ _ count i h0i hic hr =>
    obtain ⟨y, k, m, hy, hk, hm, h0, _, hle⟩ := hr.inside (check_array_eq_ok.1 h).1
    obtain ⟨w, hw, z, hz, rfl⟩ := offset_index.1 hx
    rw [hm, Except.ok.injEq] at hw
    rw [hy, Except.ok.injEq] at hz
    rw [hn, Except.ok.injEq] at hk
    subst hw
    exact ⟨_, _, .index h0i hic hm, by omega, by omega⟩

theorem Covers.of_append {rest : List Projection} {byte : Int} (hr : Reaches root path mid)
    (hc : Covers t root (path ++ rest) byte) :
    ∃ start, root.offset t path = .ok start ∧ Covers t mid rest (byte - start) := by
  obtain ⟨sub, x, n, hsub, hx, hn, hlo, hhi⟩ := hc
  obtain ⟨y, z, hy, hz, rfl⟩ := hr.offset_append hx
  exact ⟨y, hy, sub, z, n, hr.of_append hsub, hz, hn, by omega, by omega⟩

/-- Each path into a well-formed type leads to bytes of the type, and two paths that part
at a tuple or at an array have no byte in common. -/
theorem projections_inside_and_apart {t : Target} {root : Ty} (h : root.check t = .ok ()) :
    (∀ path sub, Reaches root path sub → ∃ start n size, root.offset t path = .ok start ∧
      sub.size t = .ok n ∧ root.size t = .ok size ∧ 0 ≤ start ∧ 0 ≤ n ∧ start + n ≤ size) ∧
    ∀ shared mid, Reaches root shared mid → mid.Separates → ∀ a b p q, a ≠ b →
      ∀ byte, ¬ (Covers t root (shared ++ a :: p) byte ∧ Covers t root (shared ++ b :: q) byte) := by
  refine ⟨fun path sub hr => hr.inside h, ?_⟩
  rintro shared mid hr hs a b p q hab byte ⟨hp, hq⟩
  obtain ⟨x, hx, hp⟩ := Covers.of_append hr hp
  obtain ⟨y, hy, hq⟩ := Covers.of_append hr hq
  rw [hx, Except.ok.injEq] at hy
  subst hy
  have hmid := hr.check h
  obtain ⟨start, stop, hpiece, hlo, hhi⟩ := hp.first hmid
  obtain ⟨start', stop', hpiece', hlo', hhi'⟩ := hq.first hmid
  have := hpiece.apart hpiece' hmid hs hab
  omega

/-- Two records, each with its fields out of order, a gap before the second one and an
empty array at the end. -/
def records : Ty :=
  .array (.tuple [(4, .int ⟨.unsigned, 4⟩), (0, .int ⟨.signed, 2⟩), (8, .array .bool 0)] 8 4) 2

theorem records_inside_and_apart : records.check .default = .ok () ∧
    (∃ start n size, records.offset .default [.index 1, .field 2] = .ok start ∧
      (array bool 0).size .default = .ok n ∧ records.size .default = .ok size ∧
      0 ≤ start ∧ 0 ≤ n ∧ start + n ≤ size) ∧
    ∀ byte, ¬ (Covers .default records [.index 1, .field 0] byte ∧
      Covers .default records [.index 1, .field 1] byte) := by
  have h : records.check .default = .ok () := by decide
  have hlast : Reaches records [.index 1, .field 2] (.array .bool 0) :=
    .index (by decide) (by decide) (.field rfl .here)
  have hone : Reaches records [.index 1] _ := .index (by decide) (by decide) .here
  exact ⟨h, (projections_inside_and_apart h).1 _ _ hlast,
    (projections_inside_and_apart h).2 [.index 1] _ hone trivial (.field 0) (.field 1) [] [] (by decide)⟩

end Ty

end PlaceIR

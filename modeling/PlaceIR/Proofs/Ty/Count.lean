import PlaceIR.Build
import PlaceIR.Proofs.Ty.Parts

/-! Array counts. The check bounds no count by itself: it asks that count times element size
is a size. Where elements take up bytes, that rules out negative counts. Where they do not,
the product is 0 whatever the count is, so that any count passes; and by the declared sizes
these are the only arrays of which that is so. -/

namespace PlaceIR.Ty

variable {t : Target} {ty elem : Ty} {count : Int}

/-! ### Types without bytes -/

/-- A type that takes up no bytes: a compound type of declared size 0, or an array that has
no elements or only such as take up none. -/
inductive Empty : Ty → Prop
  | tuple (fields : List (Int × Ty)) (align : Int) : Empty (.tuple fields 0 align)
  | union (fields : List (Int × Ty)) : Empty (.union fields 0)
  | enum (variants : List Ty) : Empty (.enum variants 0)
  | noElems (elem : Ty) : Empty (.array elem 0)
  | elems {elem : Ty} (count : Int) : Empty elem → Empty (.array elem count)

theorem empty_array_iff : Empty (.array elem count) ↔ count = 0 ∨ Empty elem := by
  constructor
  · rintro (_ | _)
    · exact .inl rfl
    · exact .inr ‹_›
  · rintro (rfl | h)
    · exact .noElems elem
    · exact .elems count h

/-- The well-formed types of size 0 are those that show it. -/
theorem size_eq_zero_iff (h : ty.check t = .ok ()) : ty.size t = .ok 0 ↔ ty.Empty := by
  induction ty with
  | int i =>
    rw [check, require_eq_ok] at h
    have hpos := isPowerOfTwo_pos h.2
    rw [size, Except.ok.injEq]
    constructor
    · intro h0
      omega
    · rintro ⟨⟩
  | bool => constructor <;> rintro ⟨⟩
  | rawPtr | ref | box =>
    have hpos := t.ptrSize_pos
    rw [size, Except.ok.injEq]
    constructor
    · intro h0
      omega
    · rintro ⟨⟩
  | tuple fs s a =>
    constructor
    · rintro ⟨⟩
      exact .tuple fs a
    · rintro ⟨⟩
      rfl
  | array e n ih =>
    obtain ⟨he, m, hm, _⟩ := check_array_eq_ok.1 h
    have hsize : (array e n).size t = .ok (m * n) := by
      rw [size, hm]
      rfl
    rw [empty_array_iff, ← ih he, hsize, hm, Except.ok.injEq, Except.ok.injEq, Int.mul_eq_zero,
      or_comm]
  | union fs s =>
    constructor
    · rintro ⟨⟩
      exact .union fs
    · rintro ⟨⟩
      rfl
  | enum vs s =>
    constructor
    · rintro ⟨⟩
      exact .enum vs
    · rintro ⟨⟩
      rfl
  | unknown => cases h

/-! ### Counts -/

/-- An array of a negative count is well-formed exactly if its elements are well-formed and
take up no bytes. -/
theorem check_array_of_neg (hcount : count < 0) :
    (array elem count).check t = .ok () ↔ elem.check t = .ok () ∧ elem.Empty := by
  rw [check_array_eq_ok]
  refine and_congr_right fun he => ?_
  obtain ⟨n, hn, hsize⟩ := exists_size_of_check he
  rw [← size_eq_zero_iff he, hn]
  simp only [Except.ok.injEq, exists_eq_left']
  constructor
  -- with a size above 0 the product would be negative
  · rintro ⟨hprod, _⟩
    rcases Int.lt_or_eq_of_le hsize.1 with hpos | h0
    · have hneg : n * count < 0 := Int.mul_neg_of_pos_of_neg hpos hcount
      omega
    · exact h0.symm
  · rintro rfl
    rwa [Int.zero_mul]

/-- The arrays in a well-formed type have no negative counts, unless one has elements without
bytes. -/
theorem count_nonneg_or_empty (h : ty.check t = .ok ()) (hw : Within parts (.array elem count) ty) :
    0 ≤ count ∨ elem.Empty := by
  have harray : (array elem count).check t = .ok () :=
    hw.closed (P := fun ty => ty.check t = .ok ()) (fun _ hty _ hp => check_part hty hp) h
  rcases Int.lt_or_le count 0 with hneg | hcount
  · exact .inr ((check_array_of_neg hneg).1 harray).2
  · exact .inl hcount

/-- No array in a well-formed type has a negative count if and only if this is so of the
arrays of elements without bytes. Each array by itself has a count from 0 on, or its elements
take up no bytes. For these the check does not say it: with a negative count an array is
well-formed exactly if its elements are well-formed and take up no bytes. -/
theorem counts_nonneg_iff {t : Target} {ty : Ty} (h : ty.check t = .ok ()) :
    ((∀ elem count, Within parts (.array elem count) ty → 0 ≤ count) ↔
      ∀ elem count, Within parts (.array elem count) ty → elem.Empty → 0 ≤ count) ∧
    (∀ elem count, Within parts (.array elem count) ty → 0 ≤ count ∨ elem.Empty) ∧
    ∀ (elem : Ty) (count : Int), count < 0 →
      ((array elem count).check t = .ok () ↔ elem.check t = .ok () ∧ elem.Empty) := by
  refine ⟨⟨fun hall elem count hw _ => hall elem count hw, fun hempty elem count hw => ?_⟩,
    fun elem count => count_nonneg_or_empty h, fun elem count => check_array_of_neg⟩
  rcases count_nonneg_or_empty h hw with hcount | he
  · exact hcount
  · exact hempty elem count hw he

/-! ### A row of numbers and a row of marks -/

/-- Three numbers, and after them seven marks that take up no bytes. -/
def rowAndMarks : Ty := .tuple [(0, .array .u32 3), (12, .array (.array .bool 0) 7)] 12 4

/-- Behind a box both rows keep their counts, and only for the marks a negative count would
do as well. -/
theorem rowAndMarks_counts_nonneg : (box rowAndMarks).check .default = .ok () ∧
    (∀ elem count, Within parts (.array elem count) (.box rowAndMarks) → 0 ≤ count) ∧
    (array (array .bool 0) (-7)).check .default = .ok () ∧
    (array .u32 (-3)).check .default ≠ .ok () := by
  have hcheck : (box rowAndMarks).check .default = .ok () := by decide
  obtain ⟨hcounts, _, hneg⟩ := counts_nonneg_iff hcheck
  have leaf (ty : Ty) (hty : ∀ elem count, ty ≠ .array elem count) (hp : ty.parts = []) :
      ∀ a, Within parts a ty → ∀ elem count, a = .array elem count → 0 ≤ count :=
    forall_within_iff.2 ⟨fun elem count h => absurd h (hty elem count), by simp [hp]⟩
  have row (ty : Ty) (n : Int) (hn : 0 ≤ n)
      (hty : ∀ a, Within parts a ty → ∀ elem count, a = .array elem count → 0 ≤ count) :
      ∀ a, Within parts a (.array ty n) → ∀ elem count, a = .array elem count → 0 ≤ count :=
    forall_within_iff.2 ⟨fun _ _ h => by cases h; exact hn, List.forall_mem_singleton.2 hty⟩
  have hnumbers := row .u32 3 (by decide) (leaf .u32 nofun rfl)
  have hmarks := row (.array .bool 0) 7 (by decide) (row .bool 0 (by decide) (leaf .bool nofun rfl))
  have hall : ∀ a, Within parts a (.box rowAndMarks) → ∀ elem count, a = .array elem count →
      0 ≤ count :=
    forall_within_iff.2 ⟨nofun, List.forall_mem_singleton.2 (forall_within_iff.2 ⟨nofun,
      List.forall_mem_cons.2 ⟨hnumbers, List.forall_mem_singleton.2 hmarks⟩⟩)⟩
  refine ⟨hcheck, hcounts.2 fun elem count hw _ => hall _ hw elem count rfl, ?_, fun h => ?_⟩
  · exact (hneg _ (-7) (by decide)).2 ⟨by decide, .noElems .bool⟩
  · cases ((hneg _ (-3) (by decide)).1 h).2

/-- A row of a negative number of marks is well-formed. -/
theorem negative_count_accepted :
    (array (tuple [] 0 1) (-1)).check .default = .ok () ∧
    ¬ ∀ elem count, Within parts (.array elem count) (.array (.tuple [] 0 1) (-1)) → 0 ≤ count :=
  ⟨by decide, fun h => absurd (h _ _ .self) (by decide)⟩

end PlaceIR.Ty

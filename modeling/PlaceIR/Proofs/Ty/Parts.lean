import PlaceIR.Expr.Typing
import PlaceIR.Proofs.Within

/-! The parts of a type, and what a passed check says of them. The check of a compound
type is opened once, form by form; from there a well-formed type has a size in the
target's range, and every part of it, at any depth, is well-formed too. -/

namespace PlaceIR

namespace Target

theorem one_le_maxSize (t : Target) : 1 ≤ t.maxSize := by
  have hp := t.ptrSize_pos
  have h : t.wordBits - 1 = (t.wordBits - 3) + 2 := by simp only [wordBits]; omega
  have hk := twoPow_pos (t.wordBits - 3)
  have he : twoPow (t.wordBits - 1) = 4 * twoPow (t.wordBits - 3) := by
    rw [h, twoPow, twoPow, Nat.one_shiftLeft, Nat.one_shiftLeft, Nat.pow_add, Nat.mul_comm]
  rw [maxSize, he]
  omega

/-- A pointer fits into the range of sizes that it spans. -/
theorem isSize_ptrSize (t : Target) : t.IsSize t.ptrSize := by
  have hp := t.ptrSize_pos
  have h : t.ptrSize < twoPow (t.wordBits - 1) := by
    rw [twoPow, Nat.one_shiftLeft]
    calc t.ptrSize < 2 ^ t.ptrSize := Nat.lt_two_pow_self
      _ ≤ 2 ^ (t.wordBits - 1) := Nat.pow_le_pow_right (by decide) (by simp only [wordBits]; omega)
  refine ⟨by omega, ?_⟩
  rw [maxSize]
  omega

end Target

namespace Ty

variable {t : Target} {ty : Ty}

/-! ### Parts -/

def parts : Ty → List Ty
  | .box p => [p]
  | .tuple fs _ _ => fs.map Prod.snd
  | .array e _ => [e]
  | .union fs _ => fs.map Prod.snd
  | .enum vs _ => vs
  | _ => []

def Known (ty : Ty) : Prop := ∀ kind, ¬ Within parts (.unknown kind) ty

theorem Known.part {p : Ty} (h : ty.Known) (hp : p ∈ ty.parts) : p.Known :=
  fun kind hw => h kind (.inside hp hw)

theorem Known.ne_unknown (h : ty.Known) (kind : String) : ty ≠ .unknown kind := by
  rintro rfl
  exact h kind .self

theorem mem_parts_of_field? {i : Int} {f : Int × Ty} (h : ty.field? i = some f) :
    f.2 ∈ ty.parts := by
  unfold field? at h
  split at h
  · obtain ⟨fs, hfs, hf⟩ := Option.bind_eq_some_iff.1 h
    have hm : f.2 ∈ fs.map Prod.snd := List.mem_map_of_mem (List.mem_of_getElem? hf)
    cases ty <;> simp only [fields?, Option.some.injEq, reduceCtorEq] at hfs <;> exact hfs ▸ hm
  · cases h

theorem mem_parts_of_elem? {e : Ty} (h : ty.elem? = some e) : e ∈ ty.parts := by
  cases ty <;> simp_all [elem?, parts]

/-! ### The scans, field by field -/

theorem measure_eq_ok {n : Int} :
    ty.measure t = .ok n ↔ ty.check t = .ok () ∧ ty.size t = .ok n := by
  rw [measure, seq_eq_ok]

theorem scanTuple_cons_eq_ok {last stop offset : Int} {m : Checked Int}
    {fs : List (Int × Checked Int)} : scanTuple t last ((offset, m) :: fs) = .ok stop ↔
      ∃ n, m = .ok n ∧ last ≤ offset ∧ t.IsSize (offset + n) ∧
        scanTuple t (offset + n) fs = .ok stop := by
  simp [scanTuple, bind_eq_ok, Target.add?_eq_some, and_assoc]

theorem scanUnion_eq_ok {bound : Int} {fs : List (Int × Checked Int)} :
    scanUnion t bound fs = .ok () ↔ ∀ f ∈ fs, ∃ n, f.2 = .ok n ∧ t.IsSize f.1 ∧
      t.IsSize (f.1 + n) ∧ f.1 + n ≤ bound := by
  induction fs with
  | nil => simp [scanUnion]
  | cons f fs ih =>
    obtain ⟨offset, m⟩ := f
    rw [List.forall_mem_cons, ← ih]
    cases m <;> simp [scanUnion, bind_eq_ok, Target.add?_eq_some, and_assoc]

theorem scanEnum_eq_ok {bound : Int} {vs : List (Checked Int)} :
    scanEnum bound vs = .ok () ↔ ∀ m ∈ vs, ∃ n, m = .ok n ∧ n ≤ bound := by
  induction vs with
  | nil => simp [scanEnum]
  | cons m vs ih =>
    rw [List.forall_mem_cons, ← ih]
    cases m <;> simp [scanEnum, bind_eq_ok]

/-- Every field that a tuple's scan passes was measured. -/
theorem exists_measure_of_scanTuple {last stop : Int} {fs : List (Int × Checked Int)}
    (h : scanTuple t last fs = .ok stop) : ∀ f ∈ fs, ∃ n, f.2 = .ok n := by
  induction fs generalizing last with
  | nil => exact fun _ hf => nomatch hf
  | cons f fs ih =>
    obtain ⟨n, hn, _, _, hfs⟩ := scanTuple_cons_eq_ok.1 h
    exact List.forall_mem_cons.2 ⟨⟨n, hn⟩, ih hfs⟩

/-! ### The check, form by form -/

theorem check_box_eq_ok {p : Ty} : (box p).check t = .ok () ↔ p.check t = .ok () := Iff.rfl

theorem check_tuple_eq_ok {fs : List (Int × Ty)} {s a : Int} :
    (tuple fs s a).check t = .ok () ↔ t.IsSize s ∧ t.IsAlign a ∧ ∃ last,
      scanTuple t 0 (byOffset (fs.map fun f => (f.1, f.2.measure t))) = .ok last ∧ last ≤ s := by
  simp [check, measureFields_eq, bind_eq_ok]

theorem check_array_eq_ok {e : Ty} {count : Int} : (array e count).check t = .ok () ↔
    e.check t = .ok () ∧ ∃ n, e.size t = .ok n ∧ t.IsSize (n * count) := by
  rw [check, seq_eq_ok]
  simp [bind_eq_ok, Target.mul?_eq_some]

theorem check_union_eq_ok {fs : List (Int × Ty)} {s : Int} :
    (union fs s).check t = .ok () ↔ t.IsSize s ∧ ∀ f ∈ fs, ∃ n, f.2.measure t = .ok n ∧
      t.IsSize f.1 ∧ t.IsSize (f.1 + n) ∧ f.1 + n ≤ s := by
  rw [check, seq_eq_ok, measureFields_eq, scanUnion_eq_ok, require_eq_ok, List.forall_mem_map]

theorem check_enum_eq_ok {vs : List Ty} {s : Int} : (enum vs s).check t = .ok () ↔
    t.IsSize s ∧ ∀ v ∈ vs, ∃ n, v.measure t = .ok n ∧ n ≤ s := by
  rw [check, seq_eq_ok, measureVariants_eq, scanEnum_eq_ok, require_eq_ok, List.forall_mem_map]

/-! ### Well-formed types -/

/-- The size of a well-formed type is in range. -/
theorem exists_size_of_check (h : ty.check t = .ok ()) : ∃ n, ty.size t = .ok n ∧ t.IsSize n := by
  cases ty with
  | int i =>
    rw [check, require_eq_ok] at h
    exact ⟨i.size, rfl, h.1⟩
  | bool => exact ⟨1, rfl, by decide, t.one_le_maxSize⟩
  | rawPtr | ref | box => exact ⟨t.ptrSize, rfl, t.isSize_ptrSize⟩
  | tuple fs s a => exact ⟨s, rfl, (check_tuple_eq_ok.1 h).1⟩
  | array e count =>
    obtain ⟨_, n, hn, hs⟩ := check_array_eq_ok.1 h
    exact ⟨n * count, by simp [size, hn], hs⟩
  | union fs s => exact ⟨s, rfl, (check_union_eq_ok.1 h).1⟩
  | enum vs s => exact ⟨s, rfl, (check_enum_eq_ok.1 h).1⟩
  | unknown => cases h

theorem isSize_of_measure {n : Int} (h : ty.measure t = .ok n) : t.IsSize n := by
  obtain ⟨hc, hn⟩ := measure_eq_ok.1 h
  obtain ⟨m, hm, hs⟩ := exists_size_of_check hc
  rw [hn, Except.ok.injEq] at hm
  exact hm ▸ hs

/-- Every part of a well-formed type is well-formed. -/
theorem check_part {p : Ty} (h : ty.check t = .ok ()) (hp : p ∈ ty.parts) :
    p.check t = .ok () := by
  cases ty with
  | int | bool | rawPtr | ref | unknown => exact absurd hp List.not_mem_nil
  | box q => exact (List.mem_singleton.1 hp) ▸ check_box_eq_ok.1 h
  | array e count => exact (List.mem_singleton.1 hp) ▸ (check_array_eq_ok.1 h).1
  | tuple fs s a =>
    obtain ⟨f, hf, rfl⟩ := List.mem_map.1 hp
    obtain ⟨_, _, last, hscan, _⟩ := check_tuple_eq_ok.1 h
    obtain ⟨n, hn⟩ := exists_measure_of_scanTuple hscan (f.1, f.2.measure t)
      ((byOffset_perm _).mem_iff.2 (List.mem_map.2 ⟨f, hf, rfl⟩))
    exact (measure_eq_ok.1 hn).1
  | union fs s =>
    obtain ⟨f, hf, rfl⟩ := List.mem_map.1 hp
    obtain ⟨n, hn, _⟩ := (check_union_eq_ok.1 h).2 f hf
    exact (measure_eq_ok.1 hn).1
  | enum vs s =>
    obtain ⟨n, hn, _⟩ := (check_enum_eq_ok.1 h).2 p hp
    exact (measure_eq_ok.1 hn).1

end Ty

end PlaceIR

import PlaceIR.Build
import PlaceIR.Proofs.Ty.Known

/-! When a tuple is well-formed, in terms of its fields as they are declared. Sorting by
offset keeps fields at one offset in their order of declaration, so the scan compares any
two fields once, the one that comes first with the other. Two fields that both take up
bytes cannot share an offset. A field without bytes may stand at the offset of another one,
but only if it is declared before it. -/

namespace PlaceIR

/-! ### Sorting by offset -/

section Sorting

variable {α : Type} {E : Int × α → Int × α → Prop} {f : Int × α} {fs gs : List (Int × α)}

theorem insertByOffset_pairwise_iff (hs : gs.Pairwise fun g h => g.1 ≤ h.1) :
    (insertByOffset f gs).Pairwise E ↔
      (∀ g ∈ gs, if f.1 ≤ g.1 then E f g else E g f) ∧ gs.Pairwise E := by
  induction gs with
  | nil => simp [insertByOffset]
  | cons g gs ih =>
    obtain ⟨hg, hgs⟩ := List.pairwise_cons.1 hs
    by_cases hle : f.1 ≤ g.1
    · -- the field goes to the front, and no offset further back is smaller
      have hall : ∀ h ∈ g :: gs, f.1 ≤ h.1 :=
        List.forall_mem_cons.2 ⟨hle, fun h hh => Int.le_trans hle (hg h hh)⟩
      rw [insertByOffset, if_pos hle, List.pairwise_cons]
      refine and_congr_left fun _ => forall₂_congr fun h hh => ?_
      rw [if_pos (hall h hh)]
    · have hmem : (∀ h ∈ insertByOffset f gs, E g h) ↔ E g f ∧ ∀ h ∈ gs, E g h := by
        simp only [(insertByOffset_perm f gs).mem_iff, List.forall_mem_cons]
      rw [insertByOffset, if_neg hle, List.pairwise_cons, List.pairwise_cons, hmem, ih hgs,
        List.forall_mem_cons, if_neg hle]
      constructor
      · rintro ⟨⟨hgf, hgall⟩, hfall, hpair⟩
        exact ⟨⟨hgf, hfall⟩, hgall, hpair⟩
      · rintro ⟨⟨hgf, hfall⟩, hgall, hpair⟩
        exact ⟨⟨hgf, hgall⟩, hfall, hpair⟩

theorem byOffset_sorted (fs : List (Int × α)) : (byOffset fs).Pairwise fun f g => f.1 ≤ g.1 := by
  induction fs with
  | nil => exact .nil
  | cons f fs ih =>
    rw [byOffset, insertByOffset_pairwise_iff ih]
    refine ⟨fun g _ => ?_, ih⟩
    split <;> omega

/-- Sorting by offset keeps two fields in their order if their offsets allow it, and swaps
them otherwise. -/
theorem byOffset_pairwise_iff : (byOffset fs).Pairwise E ↔
    fs.Pairwise fun f g => if f.1 ≤ g.1 then E f g else E g f := by
  induction fs with
  | nil => simp [byOffset]
  | cons f fs ih =>
    rw [byOffset, insertByOffset_pairwise_iff (byOffset_sorted fs), List.pairwise_cons, ih]
    simp only [(byOffset_perm fs).mem_iff]

/-- Any two fields, compared in the order of their offsets and then of their positions. -/
theorem pairwise_iff_forall_getElem? :
    (fs.Pairwise fun f g => if f.1 ≤ g.1 then E f g else E g f) ↔
      ∀ (i j : Nat) (f g : Int × α), fs[i]? = some f → fs[j]? = some g →
        f.1 < g.1 ∨ f.1 = g.1 ∧ i < j → E f g := by
  rw [List.pairwise_iff_getElem]
  constructor
  · intro h i j f g hf hg hfirst
    obtain ⟨hi, rfl⟩ := List.getElem?_eq_some_iff.1 hf
    obtain ⟨hj, rfl⟩ := List.getElem?_eq_some_iff.1 hg
    rcases Nat.lt_trichotomy i j with hij | rfl | hji
    · have hle : fs[i].1 ≤ fs[j].1 := by omega
      simpa only [if_pos hle] using h i j hi hj hij
    · omega
    · have hlt : ¬ fs[j].1 ≤ fs[i].1 := by omega
      simpa only [if_neg hlt] using h j i hj hi hji
  · intro h i j hi hj hij
    have hf := List.getElem?_eq_getElem hi
    have hg := List.getElem?_eq_getElem hj
    split
    · exact h i j _ _ hf hg (by omega)
    · exact h j i _ _ hg hf (by omega)

end Sorting

namespace Ty

variable {t : Target} {fs gs : List (Int × Ty)} {s a : Int}

/-! ### The scan -/

/-- A scan comes to its end within `bound` bytes if every field lies between its start and
the bound, and ends before those after it start. -/
theorem exists_scanTuple_iff {last bound : Int} {fs : List (Int × Checked Int)} (h0 : 0 ≤ last)
    (hbound : t.IsSize bound) (hpos : ∀ f ∈ fs, ∀ n, f.2 = .ok n → 0 ≤ n) :
    (∃ stop, scanTuple t last fs = .ok stop ∧ stop ≤ bound) ↔
      last ≤ bound ∧ (∀ f ∈ fs, ∃ n, f.2 = .ok n ∧ last ≤ f.1 ∧ f.1 + n ≤ bound) ∧
        fs.Pairwise fun f g => ∀ n, f.2 = .ok n → f.1 + n ≤ g.1 := by
  induction fs generalizing last with
  | nil => simp [scanTuple]
  | cons f fs ih =>
    obtain ⟨hhead, htail⟩ := List.forall_mem_cons.1 hpos
    rw [List.forall_mem_cons, List.pairwise_cons]
    constructor
    · rintro ⟨stop, hscan, hstop⟩
      obtain ⟨n, hn, hle, hsize, hrest⟩ := scanTuple_cons_eq_ok.1 hscan
      obtain ⟨hend, hin, hpair⟩ := (ih hsize.1 htail).1 ⟨stop, hrest, hstop⟩
      have hn0 : 0 ≤ n := hhead n hn
      refine ⟨by omega, ⟨⟨n, hn, hle, hend⟩, fun g hg => ?_⟩, fun g hg k hk => ?_, hpair⟩
      · obtain ⟨m, hm, hstart, hgend⟩ := hin g hg
        exact ⟨m, hm, by omega, hgend⟩
      · obtain ⟨_, _, hstart, _⟩ := hin g hg
        rw [hn, Except.ok.injEq] at hk
        exact hk ▸ hstart
    · rintro ⟨_, ⟨⟨n, hn, hle, hend⟩, hin⟩, hfirst, hpair⟩
      have hn0 : 0 ≤ n := hhead n hn
      have hsize : t.IsSize (f.1 + n) := ⟨by omega, Int.le_trans hend hbound.2⟩
      have hrest : ∀ g ∈ fs, ∃ m, g.2 = .ok m ∧ f.1 + n ≤ g.1 ∧ g.1 + m ≤ bound := by
        intro g hg
        obtain ⟨m, hm, _, hgend⟩ := hin g hg
        exact ⟨m, hm, hfirst g hg n hn, hgend⟩
      obtain ⟨stop, hscan, hstop⟩ := (ih hsize.1 htail).2 ⟨hend, hrest, hpair⟩
      exact ⟨stop, scanTuple_cons_eq_ok.2 ⟨n, hn, hle, hsize, hscan⟩, hstop⟩

/-! ### The criterion -/

def EndsBefore (t : Target) (f g : Int × Ty) : Prop := ∃ n, f.2.size t = .ok n ∧ f.1 + n ≤ g.1

theorem EndsBefore.le {f g : Int × Ty} {n : Int} (h : EndsBefore t f g)
    (hn : f.2.size t = .ok n) : f.1 + n ≤ g.1 := by
  obtain ⟨m, hm, hle⟩ := h
  rw [hn, Except.ok.injEq] at hm
  exact hm ▸ hle

def LiesWithin (t : Target) (bound : Int) (f : Int × Ty) : Prop :=
  f.2.check t = .ok () ∧ ∃ n, f.2.size t = .ok n ∧ 0 ≤ f.1 ∧ f.1 + n ≤ bound

theorem check_tuple_iff_pairwise : (tuple fs s a).check t = .ok () ↔
    t.IsSize s ∧ t.IsAlign a ∧ (∀ f ∈ fs, LiesWithin t s f) ∧
      fs.Pairwise fun f g => if f.1 ≤ g.1 then EndsBefore t f g else EndsBefore t g f := by
  rw [check_tuple_eq_ok]
  refine and_congr_right fun hs => and_congr_right fun _ => ?_
  have hperm := byOffset_perm (fs.map fun f => (f.1, f.2.measure t))
  have hpos : ∀ g ∈ byOffset (fs.map fun f => (f.1, f.2.measure t)), ∀ n, g.2 = .ok n → 0 ≤ n := by
    intro g hg n hn
    obtain ⟨f, _, rfl⟩ := List.mem_map.1 (hperm.mem_iff.1 hg)
    exact (isSize_of_measure hn).1
  rw [exists_scanTuple_iff (Int.le_refl 0) hs hpos, byOffset_pairwise_iff, List.pairwise_map]
  simp only [hperm.mem_iff, List.forall_mem_map]
  have hwithin (f : Int × Ty) : LiesWithin t s f ↔
      ∃ n, f.2.measure t = .ok n ∧ 0 ≤ f.1 ∧ f.1 + n ≤ s := by
    simp only [LiesWithin, measure_eq_ok]
    constructor
    · rintro ⟨hc, n, hn, hle⟩
      exact ⟨n, ⟨hc, hn⟩, hle⟩
    · rintro ⟨n, ⟨hc, hn⟩, hle⟩
      exact ⟨hc, n, hn, hle⟩
  simp only [← hwithin, and_iff_right hs.1]
  refine and_congr_right fun hin => List.Pairwise.iff_of_mem fun {f g} hf hg => ?_
  -- what lies within the tuple is measured, so that each comparison finds a size
  have hends {f g : Int × Ty} (hf : f ∈ fs) :
      (∀ n, f.2.measure t = .ok n → f.1 + n ≤ g.1) ↔ EndsBefore t f g := by
    obtain ⟨hc, n, hn, _⟩ := hin f hf
    simp [measure_eq_ok, EndsBefore, hc, hn]
  split
  · exact hends hf
  · exact hends hg

/-- A tuple is well-formed if and only if its declared size and alignment are in range, every
field is well-formed and lies inside the tuple, and of any two fields the one that comes
first, by offset and at one offset by position, ends before the other one starts. -/
theorem tuple_check_iff (t : Target) (fs : List (Int × Ty)) (s a : Int) :
    (tuple fs s a).check t = .ok () ↔
      t.IsSize s ∧ t.IsAlign a ∧ (∀ f ∈ fs, f.2.check t = .ok ()) ∧
      (∀ f ∈ fs, ∃ n, f.2.size t = .ok n ∧ 0 ≤ f.1 ∧ f.1 + n ≤ s) ∧
      ∀ (i j : Nat) (f g : Int × Ty), fs[i]? = some f → fs[j]? = some g →
        f.1 < g.1 ∨ f.1 = g.1 ∧ i < j → ∃ n, f.2.size t = .ok n ∧ f.1 + n ≤ g.1 := by
  rw [check_tuple_iff_pairwise, pairwise_iff_forall_getElem?]
  simp only [LiesWithin, EndsBefore, imp_and, forall_and, and_assoc]

/-! ### The order of declaration -/

/-- All that a tuple asks of its fields in whatever order they are declared: they are
well-formed, lie inside, and no two overlap. -/
structure Fits (t : Target) (fs : List (Int × Ty)) (s a : Int) : Prop where
  isSize : t.IsSize s
  isAlign : t.IsAlign a
  inside : ∀ f ∈ fs, LiesWithin t s f
  apart : fs.Pairwise fun f g => EndsBefore t f g ∨ EndsBefore t g f

/-- A field that is declared before another one at its offset takes up no bytes. -/
def EmptyFirst (t : Target) (fs : List (Int × Ty)) : Prop :=
  fs.Pairwise fun f g => f.1 = g.1 → f.2.size t = .ok 0

instance : Decidable (EmptyFirst t fs) := inferInstanceAs (Decidable (List.Pairwise ..))

theorem Fits.perm (h : Fits t fs s a) (hp : fs.Perm gs) : Fits t gs s a where
  isSize := h.isSize
  isAlign := h.isAlign
  inside := fun f hf => h.inside f (hp.mem_iff.2 hf)
  apart := h.apart.perm hp Or.symm

/-- Of two fields apart the one at the smaller offset ends first; at one offset, the one
that takes up no bytes. -/
theorem endsBefore_iff {f g : Int × Ty} (hf : LiesWithin t s f) (hg : LiesWithin t s g) :
    (if f.1 ≤ g.1 then EndsBefore t f g else EndsBefore t g f) ↔
      (EndsBefore t f g ∨ EndsBefore t g f) ∧ (f.1 = g.1 → f.2.size t = .ok 0) := by
  obtain ⟨hfc, n, hn, _, _⟩ := hf
  obtain ⟨hgc, m, hm, _, _⟩ := hg
  have hn0 : 0 ≤ n := (isSize_of_measure (measure_eq_ok.2 ⟨hfc, hn⟩)).1
  have hm0 : 0 ≤ m := (isSize_of_measure (measure_eq_ok.2 ⟨hgc, hm⟩)).1
  simp only [EndsBefore, hn, hm, Except.ok.injEq, exists_eq_left']
  split <;> omega

theorem check_tuple_iff_fits :
    (tuple fs s a).check t = .ok () ↔ Fits t fs s a ∧ EmptyFirst t fs := by
  rw [check_tuple_iff_pairwise]
  have hpair (hin : ∀ f ∈ fs, LiesWithin t s f) :
      (fs.Pairwise fun f g => if f.1 ≤ g.1 then EndsBefore t f g else EndsBefore t g f) ↔
        (fs.Pairwise fun f g => EndsBefore t f g ∨ EndsBefore t g f) ∧ EmptyFirst t fs := by
    rw [EmptyFirst, ← List.pairwise_and_iff]
    exact List.Pairwise.iff_of_mem fun hf hg => endsBefore_iff (hin _ hf) (hin _ hg)
  constructor
  · rintro ⟨hs, ha, hin, h⟩
    obtain ⟨hapart, hempty⟩ := (hpair hin).1 h
    exact ⟨⟨hs, ha, hin, hapart⟩, hempty⟩
  · rintro ⟨⟨hs, ha, hin, hapart⟩, hempty⟩
    exact ⟨hs, ha, hin, (hpair hin).2 ⟨hapart, hempty⟩⟩

/-- The same fields, declared in two orders, get the same answer unless they fit the tuple
and only one of the orders declares a field that takes up bytes before another one at its
offset. -/
theorem check_tuple_perm_iff {t : Target} {fs gs : List (Int × Ty)} {s a : Int}
    (hk : (tuple fs s a).Known) (hp : fs.Perm gs) :
    (tuple fs s a).check t = (tuple gs s a).check t ↔
      (Fits t fs s a → (EmptyFirst t fs ↔ EmptyFirst t gs)) := by
  have hk' : (tuple gs s a).Known :=
    known_of_parts nofun fun p hpart => hk.part ((hp.map Prod.snd).mem_iff.2 hpart)
  have hfits : Fits t gs s a ↔ Fits t fs s a := ⟨fun h => h.perm hp.symm, fun h => h.perm hp⟩
  have hsame : (tuple fs s a).check t = (tuple gs s a).check t ↔
      ((tuple fs s a).check t = .ok () ↔ (tuple gs s a).check t = .ok ()) :=
    ⟨fun h => by rw [h], (decides_check hk).eq_of_iff (decides_check hk')⟩
  rw [hsame, check_tuple_iff_fits, check_tuple_iff_fits, hfits, and_congr_right_iff]

/-! ### A number and a field without bytes -/

/-- A number, a field without bytes and a pair, all at their offsets from 0 on. -/
def header : List (Int × Ty) :=
  [(4, .tuple [(1, .bool), (0, .bool)] 2 1), (0, .array .u32 0), (0, .u32)]

def headerReordered : List (Int × Ty) :=
  [(0, .array .u32 0), (0, .u32), (4, .tuple [(1, .bool), (0, .bool)] 2 1)]

theorem header_known : (tuple header 8 4).Known := by
  have hpair : Ty.Known (.tuple [(1, .bool), (0, .bool)] 2 1) :=
    known_of_parts nofun (List.forall_mem_cons.2 ⟨known_bool, List.forall_mem_singleton.2 known_bool⟩)
  have harray : Ty.Known (.array .u32 0) :=
    known_of_parts nofun (List.forall_mem_singleton.2 (known_int _))
  refine known_of_parts nofun (List.forall_mem_cons.2 ⟨hpair, List.forall_mem_cons.2 ⟨harray, ?_⟩⟩)
  exact List.forall_mem_singleton.2 (known_int _)

theorem header_reordered : (tuple header 8 4).Known ∧ header.Perm headerReordered ∧
    (tuple header 8 4).check .default = .ok () ∧
    (tuple header 8 4).check .default = (tuple headerReordered 8 4).check .default := by
  have hp : header.Perm headerReordered := by decide
  refine ⟨header_known, hp, by decide, ?_⟩
  exact (check_tuple_perm_iff header_known hp).2 fun _ => iff_of_true (by decide) (by decide)

/-- A field without bytes is accepted at the offset of a number if it is declared before the
number, and rejected after it. -/
theorem empty_field_order : (tuple [(0, .u32), (0, .array .bool 0)] 4 4).Known ∧
    [(0, Ty.u32), (0, .array .bool 0)].Perm [(0, .array .bool 0), (0, .u32)] ∧
    (tuple [(0, .u32), (0, .array .bool 0)] 4 4).check .default = .error .illFormed ∧
    (tuple [(0, .array .bool 0), (0, .u32)] 4 4).check .default = .ok () := by
  have harray : Ty.Known (.array .bool 0) :=
    known_of_parts nofun (List.forall_mem_singleton.2 known_bool)
  refine ⟨known_of_parts nofun ?_, .swap .., by decide, by decide⟩
  exact List.forall_mem_cons.2 ⟨known_int _, List.forall_mem_singleton.2 harray⟩

end Ty

end PlaceIR

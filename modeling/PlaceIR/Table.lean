/-! Finite tables keyed by name. A table lists its entries in the order in which
their names first came in, and no name twice. Locals, blocks and functions are
tables, and so are the locals live at a point; two tables that bind the same names
to the same values are `Equiv`, whatever their orders. -/

namespace PlaceIR

structure Table (α : Type) where
  entries : List (String × α)
  nodup : (entries.map Prod.fst).Nodup

namespace Table

variable {α : Type}

instance : EmptyCollection (Table α) := ⟨⟨[], by simp⟩⟩

instance : Inhabited (Table α) := ⟨∅⟩

def keys (s : Table α) : List String := s.entries.map Prod.fst

def get? (s : Table α) (k : String) : Option α := s.entries.lookup k

instance : Membership String (Table α) := ⟨fun s k => k ∈ s.keys⟩

instance (k : String) (s : Table α) : Decidable (k ∈ s) := inferInstanceAs (Decidable (k ∈ s.keys))

@[ext] theorem ext {s u : Table α} (h : s.entries = u.entries) : s = u := by
  cases s; cases u; cases h; rfl

/-! ### Binding and removing a name -/

/-- Bind `k` to `v` among `es`: over its old value, or at the end. -/
def bindIn (k : String) (v : α) : List (String × α) → List (String × α)
  | [] => [(k, v)]
  | e :: es => if e.1 = k then (k, v) :: es else e :: bindIn k v es

theorem map_fst_bindIn (k : String) (v : α) (es : List (String × α)) :
    (bindIn k v es).map Prod.fst =
      if k ∈ es.map Prod.fst then es.map Prod.fst else es.map Prod.fst ++ [k] := by
  induction es with
  | nil => simp [bindIn]
  | cons e es ih =>
    by_cases h : e.1 = k
    · simp [bindIn, h]
    · have h' : ¬ k = e.1 := fun h' => h h'.symm
      simp only [bindIn, if_neg h, List.map_cons, ih, List.mem_cons, h', false_or]
      split <;> simp

theorem lookup_cons (k a : String) (b : α) (es : List (String × α)) :
    ((a, b) :: es).lookup k = if k = a then some b else es.lookup k := by
  rw [List.lookup_cons]
  by_cases h : k = a
  · simp [h]
  · have : (k == a) = false := by simpa using h
    simp [this, h]

theorem lookup_bindIn (k k' : String) (v : α) (es : List (String × α)) :
    (bindIn k v es).lookup k' = if k' = k then some v else es.lookup k' := by
  induction es with
  | nil => simp [bindIn, lookup_cons]
  | cons e es ih =>
    obtain ⟨a, b⟩ := e
    by_cases h : a = k
    · subst h
      simp only [bindIn, if_true, lookup_cons]
      split <;> rfl
    · simp only [bindIn, if_neg h, lookup_cons, ih]
      by_cases ha : k' = a
      · have : ¬ k' = k := by rw [ha]; exact h
        simp [ha, h]
      · simp [ha]

/-- Bind `k` to `v`. A name that is bound already keeps its position, a new one goes last. -/
def insert (s : Table α) (k : String) (v : α) : Table α where
  entries := bindIn k v s.entries
  nodup := by
    rw [map_fst_bindIn]
    split
    · exact s.nodup
    · rename_i h
      refine List.nodup_append.2 ⟨s.nodup, by simp, ?_⟩
      intro a ha b hb hab
      rw [List.mem_singleton] at hb
      exact h (hb ▸ hab ▸ ha)

def erase (s : Table α) (k : String) : Table α where
  entries := s.entries.filter (·.1 != k)
  nodup := List.Nodup.sublist (List.filter_sublist.map _) s.nodup

def modify (s : Table α) (k : String) (f : α → α) : Table α :=
  match s.get? k with
  | some v => s.insert k (f v)
  | none => s

/-- The table with the given entries; of two for one name the later gives the value. -/
def ofList (es : List (String × α)) : Table α := es.foldl (fun s e => s.insert e.1 e.2) ∅

/-! ### What the operations do to the bindings -/

theorem mem_iff_mem_keys {s : Table α} {k : String} : k ∈ s ↔ k ∈ s.keys := Iff.rfl

@[simp] theorem not_mem_empty (k : String) : k ∉ (∅ : Table α) := List.not_mem_nil

@[simp] theorem get?_empty (k : String) : (∅ : Table α).get? k = none := rfl

theorem get?_eq_none_iff {s : Table α} {k : String} : s.get? k = none ↔ k ∉ s := by
  change s.entries.lookup k = none ↔ k ∉ s.entries.map Prod.fst
  induction s.entries with
  | nil => simp
  | cons e es ih =>
    obtain ⟨a, b⟩ := e
    rw [lookup_cons, List.map_cons, List.mem_cons, not_or, ← ih]
    by_cases h : k = a <;> simp [h]

theorem isSome_get?_iff {s : Table α} {k : String} : (s.get? k).isSome ↔ k ∈ s := by
  rw [← Decidable.not_iff_not, ← get?_eq_none_iff, Bool.not_eq_true, Option.isSome_eq_false_iff,
    Option.isNone_iff_eq_none]

theorem mem_iff_exists_get? {s : Table α} {k : String} : k ∈ s ↔ ∃ v, s.get? k = some v := by
  rw [← isSome_get?_iff, Option.isSome_iff_exists]

theorem mem_of_get? {s : Table α} {k : String} {v : α} (h : s.get? k = some v) : k ∈ s :=
  mem_iff_exists_get?.2 ⟨v, h⟩

/-- A name is bound by exactly one entry. -/
theorem get?_eq_some_iff {s : Table α} {k : String} {v : α} :
    s.get? k = some v ↔ (k, v) ∈ s.entries := by
  obtain ⟨es, hes⟩ := s
  change es.lookup k = some v ↔ (k, v) ∈ es
  induction es with
  | nil => simp
  | cons e es ih =>
    obtain ⟨a, b⟩ := e
    rw [List.map_cons, List.nodup_cons] at hes
    rw [lookup_cons, List.mem_cons, Prod.mk.injEq]
    by_cases h : k = a
    · subst h
      have : (k, v) ∉ es := fun hv => hes.1 (List.mem_map.2 ⟨_, hv, rfl⟩)
      simp [this, eq_comm]
    · simp [h, ih hes.2]

theorem get?_insert (s : Table α) (k k' : String) (v : α) :
    (s.insert k v).get? k' = if k' = k then some v else s.get? k' :=
  lookup_bindIn ..

@[simp] theorem get?_insert_self (s : Table α) (k : String) (v : α) :
    (s.insert k v).get? k = some v := by simp [get?_insert]

theorem keys_insert (s : Table α) (k : String) (v : α) :
    (s.insert k v).keys = if k ∈ s then s.keys else s.keys ++ [k] :=
  map_fst_bindIn ..

@[simp] theorem mem_insert {s : Table α} {k k' : String} {v : α} :
    k' ∈ s.insert k v ↔ k' = k ∨ k' ∈ s := by
  rw [mem_iff_mem_keys, keys_insert]
  split
  · rename_i h
    exact ⟨.inr, fun h' => h'.elim (fun e => e ▸ h) id⟩
  · simp [mem_iff_mem_keys, or_comm]

theorem get?_erase (s : Table α) (k k' : String) :
    (s.erase k).get? k' = if k' = k then none else s.get? k' := by
  change (s.entries.filter (·.1 != k)).lookup k' = if k' = k then none else s.entries.lookup k'
  induction s.entries with
  | nil => simp
  | cons e es ih =>
    obtain ⟨a, b⟩ := e
    by_cases h : a = k
    · rw [List.filter_cons_of_neg (by simp [h]), ih, lookup_cons]
      split
      · rfl
      · rename_i hk
        rw [if_neg (h ▸ hk)]
    · rw [List.filter_cons_of_pos (by simp [h]), lookup_cons, lookup_cons, ih]
      by_cases ha : k' = a
      · have : ¬ k' = k := by rw [ha]; exact h
        simp [ha, h]
      · simp [ha]

@[simp] theorem mem_erase {s : Table α} {k k' : String} : k' ∈ s.erase k ↔ k' ≠ k ∧ k' ∈ s := by
  rw [← isSome_get?_iff, ← isSome_get?_iff, get?_erase]
  split <;> simp_all

theorem get?_modify (s : Table α) (k k' : String) (f : α → α) :
    (s.modify k f).get? k' = if k' = k then (s.get? k).map f else s.get? k' := by
  unfold modify
  split <;> rename_i h
  · rw [get?_insert, h]; rfl
  · split <;> simp_all

theorem get?_foldl_insert (es : List (String × α)) (s : Table α) (k : String) :
    (es.foldl (fun s e => s.insert e.1 e.2) s).get? k = (es.reverse.lookup k).or (s.get? k) := by
  induction es generalizing s with
  | nil => simp
  | cons e es ih =>
    rw [List.foldl_cons, ih, List.reverse_cons, List.lookup_append, Option.or_assoc, get?_insert]
    congr 1
    obtain ⟨a, b⟩ := e
    rw [lookup_cons]
    split <;> rfl

/-- The last entry for a name gives its value. -/
theorem get?_ofList (es : List (String × α)) (k : String) :
    (ofList es).get? k = es.reverse.lookup k := by
  rw [ofList, get?_foldl_insert, get?_empty, Option.or_none]

/-! ### Tables as maps -/

/-- Every binding of `s` is one of `u`. -/
def Sub (s u : Table α) : Prop := ∀ k v, s.get? k = some v → u.get? k = some v

/-- The same names are bound to the same values. -/
def Equiv (s u : Table α) : Prop := ∀ k, s.get? k = u.get? k

theorem sub_iff_entries {s u : Table α} : s.Sub u ↔ ∀ e ∈ s.entries, u.get? e.1 = some e.2 :=
  ⟨fun h e he => h e.1 e.2 (get?_eq_some_iff.2 he), fun h k v hk => h (k, v) (get?_eq_some_iff.1 hk)⟩

instance [DecidableEq α] (s u : Table α) : Decidable (s.Sub u) := decidable_of_iff' _ sub_iff_entries

theorem equiv_iff_sub {s u : Table α} : s.Equiv u ↔ s.Sub u ∧ u.Sub s := by
  constructor
  · exact fun h => ⟨fun k v hk => h k ▸ hk, fun k v hk => h k ▸ hk⟩
  · rintro ⟨h, h'⟩ k
    cases hs : s.get? k with
    | some v => exact (h k v hs).symm
    | none =>
      cases hu : u.get? k with
      | some v => exact absurd (h' k v hu) (by simp [hs])
      | none => rfl

instance [DecidableEq α] (s u : Table α) : Decidable (s.Equiv u) := decidable_of_iff' _ equiv_iff_sub

namespace Equiv

theorem refl (s : Table α) : s.Equiv s := fun _ => rfl

theorem symm {s u : Table α} (h : s.Equiv u) : u.Equiv s := fun k => (h k).symm

theorem trans {s u w : Table α} (h : s.Equiv u) (h' : u.Equiv w) : s.Equiv w :=
  fun k => (h k).trans (h' k)

theorem mem_iff {s u : Table α} (h : s.Equiv u) {k : String} : k ∈ s ↔ k ∈ u := by
  rw [← isSome_get?_iff, ← isSome_get?_iff, h k]

end Equiv

/-- The entries in the order of their names, compared character by character. -/
def sorted (s : Table α) : List (String × α) := s.entries.mergeSort fun a b => decide (a.1 ≤ b.1)

theorem sorted_perm (s : Table α) : s.sorted.Perm s.entries := List.mergeSort_perm ..

end Table

end PlaceIR

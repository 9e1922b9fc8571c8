import PlaceIR.Table

/-! Tables as maps under the operations of the checks: binding and removing a name respect
`Sub` and `Equiv`, a reordering of the entries changes no binding, and a table can be cut
down to a list of names. -/

namespace PlaceIR.Table

variable {α : Type} {s u : Table α} {k : String} {v : α}

theorem Sub.refl (s : Table α) : s.Sub s := fun _ _ h => h

theorem Sub.trans {w : Table α} (h : s.Sub u) (h' : u.Sub w) : s.Sub w :=
  fun k v hk => h' k v (h k v hk)

theorem Equiv.insert (h : s.Equiv u) (k : String) (v : α) : (s.insert k v).Equiv (u.insert k v) := by
  intro k'
  rw [get?_insert, get?_insert, h k']

theorem Equiv.erase (h : s.Equiv u) (k : String) : (s.erase k).Equiv (u.erase k) := by
  intro k'
  rw [get?_erase, get?_erase, h k']

/-- A name bound in the smaller table is bound alike in the larger. -/
theorem Sub.get?_eq (h : s.Sub u) (hk : k ∈ s) : s.get? k = u.get? k := by
  obtain ⟨v, hv⟩ := mem_iff_exists_get?.1 hk
  rw [hv, h k v hv]

/-- A table stays below another when it takes over a binding of it. -/
theorem Sub.insert_left (h : s.Sub u) (hk : u.get? k = some v) : (s.insert k v).Sub u := by
  intro k' v' hv
  rw [get?_insert] at hv
  split at hv
  · rename_i he
    cases hv
    exact he ▸ hk
  · exact h k' v' hv

theorem Sub.erase_left (h : s.Sub u) (k : String) : (s.erase k).Sub u := by
  intro k' v' hv
  rw [get?_erase] at hv
  split at hv
  · cases hv
  · exact h k' v' hv

/-- A new name keeps all bindings. -/
theorem sub_insert (hk : s.get? k = none) (v : α) : s.Sub (s.insert k v) := by
  intro k' v' hv
  rw [get?_insert, if_neg, hv]
  rintro rfl
  rw [hk] at hv
  cases hv

/-- Tables below a third bind alike if they bind the same names. -/
theorem Sub.equiv_iff_mem {w : Table α} (hs : s.Sub w) (hu : u.Sub w) :
    s.Equiv u ↔ ∀ k, k ∈ s ↔ k ∈ u := by
  refine ⟨fun h k => h.mem_iff, fun h k => ?_⟩
  cases hk : s.get? k with
  | some v =>
    obtain ⟨v', hv'⟩ := mem_iff_exists_get?.1 ((h k).1 (mem_of_get? hk))
    have hw := hs k v hk
    rw [hu k v' hv', Option.some.injEq] at hw
    rw [hv', hw]
  | none =>
    have hku : k ∉ u := fun hmem => get?_eq_none_iff.1 hk ((h k).2 hmem)
    rw [get?_eq_none_iff.2 hku]

/-- What holds of all bindings holds of all entries. -/
theorem forall_get?_iff {P : String → α → Prop} :
    (∀ k v, s.get? k = some v → P k v) ↔ ∀ e ∈ s.entries, P e.1 e.2 :=
  ⟨fun h e he => h e.1 e.2 (get?_eq_some_iff.2 he),
    fun h k v hk => h (k, v) (get?_eq_some_iff.1 hk)⟩

theorem get?_foldl_erase (names : List String) (s : Table α) (k : String) :
    (names.foldl erase s).get? k = if k ∈ names then none else s.get? k := by
  induction names generalizing s with
  | nil => simp
  | cons a names ih =>
    rw [List.foldl_cons, ih, get?_erase]
    by_cases ha : k = a
    · simp [ha]
    · simp [ha]

/-! ### Reordered tables -/

/-- Tables with the same entries bind alike, in whatever order they list them. -/
theorem equiv_of_perm (h : s.entries.Perm u.entries) : s.Equiv u := by
  intro k
  refine Option.ext fun v => ?_
  rw [get?_eq_some_iff, get?_eq_some_iff, h.mem_iff]

def reverse (s : Table α) : Table α :=
  ⟨s.entries.reverse, ((List.reverse_perm s.entries).map Prod.fst).nodup_iff.2 s.nodup⟩

/-! ### Cutting down -/

/-- Bind `k` in `u` as it is bound in `s`, if it is. -/
def takeOver (s u : Table α) (k : String) : Table α :=
  match s.get? k with
  | some v => u.insert k v
  | none => u

theorem takeOver_of_get? (h : s.get? k = some v) (u : Table α) : s.takeOver u k = u.insert k v := by
  rw [takeOver, h]

theorem get?_takeOver (s u : Table α) (k k' : String) :
    (s.takeOver u k).get? k' = if k' = k then (s.get? k).or (u.get? k) else u.get? k' := by
  unfold takeOver
  split <;> rename_i h
  · rw [get?_insert, h, Option.some_or]
  · rw [h, Option.none_or]
    split
    · rename_i he
      rw [he]
    · rfl

def restrict (s : Table α) (ks : List String) : Table α := ks.foldl s.takeOver ∅

theorem get?_restrict (s : Table α) (ks : List String) (k : String) :
    (s.restrict ks).get? k = if k ∈ ks then s.get? k else none := by
  have fold (u : Table α) : (ks.foldl s.takeOver u).get? k =
      if k ∈ ks then (s.get? k).or (u.get? k) else u.get? k := by
    induction ks generalizing u with
    | nil => rfl
    | cons a ks ih =>
      rw [List.foldl_cons, ih, get?_takeOver]
      by_cases ha : k = a
      · subst ha
        cases hs : s.get? k <;> simp
      · simp only [ha, if_false, List.mem_cons, false_or]
  rw [restrict, fold, get?_empty, Option.or_none]

/-- Tables that bind alike are cut down to the same table. -/
theorem Equiv.restrict_eq (h : s.Equiv u) (ks : List String) : s.restrict ks = u.restrict ks := by
  have htake : s.takeOver = u.takeOver := by
    funext w k
    rw [takeOver, takeOver, h k]
  rw [restrict, restrict, htake]

theorem restrict_sub (s : Table α) (ks : List String) : (s.restrict ks).Sub s := by
  intro k v hk
  rw [get?_restrict] at hk
  split at hk
  · exact hk
  · cases hk

/-! ### Two tables together -/

/-- The bindings of both tables. Where both bind a name, the second gives its value. -/
def together (s u : Table α) : Table α := u.entries.foldl (fun s e => s.insert e.1 e.2) s

theorem get?_together (s u : Table α) (k : String) :
    (s.together u).get? k = (u.get? k).or (s.get? k) := by
  have hreverse : u.reverse.Equiv u := equiv_of_perm (List.reverse_perm u.entries)
  rw [together, get?_foldl_insert, ← hreverse k]
  rfl

@[simp] theorem mem_together : k ∈ s.together u ↔ k ∈ s ∨ k ∈ u := by
  rw [← isSome_get?_iff, get?_together, Option.isSome_or, Bool.or_eq_true, isSome_get?_iff,
    isSome_get?_iff, or_comm]

theorem get?_together_of_not_mem (h : k ∉ u) : (s.together u).get? k = s.get? k := by
  rw [get?_together, get?_eq_none_iff.2 h, Option.none_or]

/-- A table that binds none of the names of `s` takes nothing away from it. -/
theorem sub_together (h : ∀ k ∈ u, k ∉ s) : s.Sub (s.together u) :=
  fun k _ hk => (get?_together_of_not_mem fun hu => h k hu (mem_of_get? hk)).trans hk

theorem together_insert_equiv (h : k ∉ u) (v : α) :
    ((s.together u).insert k v).Equiv ((s.insert k v).together u) := by
  intro k'
  rw [get?_insert, get?_together, get?_together, get?_insert]
  split
  · rename_i hk
    rw [hk, get?_eq_none_iff.2 h, Option.none_or]
  · rfl

theorem together_erase_equiv (h : k ∉ u) :
    ((s.together u).erase k).Equiv ((s.erase k).together u) := by
  intro k'
  rw [get?_erase, get?_together, get?_together, get?_erase]
  split
  · rename_i hk
    rw [hk, get?_eq_none_iff.2 h, Option.none_or]
  · rfl

end PlaceIR.Table

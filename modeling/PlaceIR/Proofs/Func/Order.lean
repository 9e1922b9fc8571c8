import PlaceIR.Func.Check

/-! Checking a function in any order of visits. Before each visit an order rearranges the
pending arrivals at will, and the first of them is visited next; first come, first served
is the order that leaves them as they are. No order visits without end, since a
rearrangement does not change the work. -/

namespace PlaceIR

/-- A rule for what to visit next. It sees the visits so far, latest first, and the whole
state of the search; it may move the pending arrivals around, but not lose or add any. -/
structure Order where
  arrange : List Arrival → Search → List Arrival
  perm : ∀ past s, (arrange past s).Perm s.pending

def Order.firstCome : Order := ⟨fun _ s => s.pending, fun _ _ => .refl _⟩

def Order.lastCome : Order := ⟨fun _ s => s.pending.reverse, fun _ _ => List.reverse_perm _⟩

namespace Func

variable {t : Target} {f : Func} {o : Order} {past rest : List Arrival} {s : Search} {a : Arrival}

theorem work_of_perm {arrivals : List Arrival} (h : arrivals.Perm s.pending) :
    f.work ⟨s.entry, arrivals⟩ = f.work s := by
  simp only [work, h.countP_eq]

def exploreBy (t : Target) (o : Order) (f : Func) (past : List Arrival) (s : Search) :
    Report (Table Live) :=
  match _h : o.arrange past s with
  | [] => pure s.entry
  | a :: rest => do
    let ⟨s', _⟩ ← (f.visit t a ⟨s.entry, rest⟩).attach
    f.exploreBy t o (a :: past) s'
termination_by f.work s
decreasing_by
  have hp := o.perm past s
  rw [_h] at hp
  exact work_of_perm (f := f) hp ▸ work_visit (by assumption)

theorem exploreBy_nil (h : o.arrange past s = []) : f.exploreBy t o past s = pure s.entry := by
  rw [exploreBy]
  split
  · rfl
  · rename_i hc
    rw [h] at hc
    cases hc

theorem exploreBy_cons (h : o.arrange past s = a :: rest) : f.exploreBy t o past s =
    f.visit t a ⟨s.entry, rest⟩ >>= f.exploreBy t o (a :: past) := by
  rw [exploreBy]
  split
  · rename_i hn
    rw [h] at hn
    cases hn
  · rename_i b bs hc
    rw [h, List.cons.injEq] at hc
    obtain ⟨rfl, rfl⟩ := hc
    exact Report.attach_bind ..

/-- Accept the function as `check` does, but visit its blocks in the given order. -/
def checkBy (t : Target) (o : Order) (f : Func) : Report (Table Live) := do
  f.checkLocals t
  let live ← f.initialLive
  let entry ← f.exploreBy t o [] (Search.begin f.start live)
  let unreached := f.blocks.keys.filter (· ∉ entry)
  (Report.silent (require (unreached = []))).blame (.unreachable unreached)
  return entry

/-! ### First come, first served -/

theorem exploreBy_firstCome : f.exploreBy t .firstCome past s = f.explore t s := by
  induction s using visit_induction t f generalizing past with
  | done entry => rw [exploreBy_nil rfl, explore_nil]
  | visit entry a rest ih =>
    have hnext : Order.firstCome.arrange past ⟨entry, a :: rest⟩ = a :: rest := rfl
    rw [exploreBy_cons hnext, explore_cons]
    exact Report.bind_congr fun s' hv => ih s' hv

/-- A function is checked in the order in which its arrivals come. -/
theorem check_eq_checkBy : f.check t = f.checkBy t .firstCome := by
  simp only [check, checkBy, exploreBy_firstCome]

end Func

end PlaceIR

import PlaceIR.Proofs.Block

/-! Walks along the edges of a function, and what it means for all of them to go well. A
walk starts with the arguments and the return local alive, and takes the live locals
through each block that it passes. It may pass a block any number of times, so that a
function with a cycle has walks of every length. -/

namespace PlaceIR.Func

variable {t : Target} {f g : Func} {path path' : List String} {name : String} {live live' : Live}

/-- The locals live on entry to the start block, at their declared place types. -/
def entryLive (f : Func) : Live := f.locals.restrict (f.args ++ [f.ret])

/-- A walk that has passed the blocks of `path` and arrives at the block `name` with the
live locals `live`. -/
inductive Walk (t : Target) (f : Func) : List String → String → Live → Prop
  | start : Walk t f [] f.start f.entryLive
  | step {path : List String} {name next : String} {live after : Live} {block : Block} :
      Walk t f path name live → f.blocks.get? name = some block →
      Stmt.thread t f.locals block.statements live = .ok after → next ∈ block.terminator.targets →
      Walk t f (path ++ [name]) next after

/-- A walk cannot get stuck in the block: it is declared, and its statements and its
terminator check. -/
def Passable (t : Target) (f : Func) (name : String) (live : Live) : Prop :=
  ∃ block, f.blocks.get? name = some block ∧ ∃ after,
    Stmt.thread t f.locals block.statements live = .ok after ∧
    ∃ next, block.terminator.successors t after = .ok next

/-- All walks go well, none arrives at a block with other live locals than another, and
together they arrive at all declared blocks. -/
structure Sound (t : Target) (f : Func) : Prop where
  locals_check : ∀ name place, f.locals.get? name = some place → place.check t = .ok ()
  entry_nodup : (f.args ++ [f.ret]).Nodup
  entry_declared : ∀ name ∈ f.args ++ [f.ret], name ∈ f.locals
  passable : ∀ path name live, Walk t f path name live → f.Passable t name live
  agree : ∀ path path' name live live', Walk t f path name live → Walk t f path' name live' →
    live.Equiv live'
  reached : ∀ name ∈ f.blocks, ∃ path live, Walk t f path name live

/-- No local is alive on a walk but with its declared place type. -/
theorem Walk.sub_locals (h : Walk t f path name live) : live.Sub f.locals := by
  induction h with
  | start => exact Table.restrict_sub f.locals _
  | step _ _ hthread _ ih => exact Stmt.thread_sub hthread ih

/-- Live locals that bind alike pass the same blocks. -/
theorem Passable.congr (h : f.Passable t name live) (hl : live.Equiv live') :
    f.Passable t name live' := by
  obtain ⟨block, hb, after, hthread, next, hnext⟩ := h
  obtain ⟨after', hthread', ha⟩ := Stmt.thread_congr hthread hl
  rw [Terminator.successors_congr ha] at hnext
  exact ⟨block, hb, after', hthread', next, hnext⟩

/-! ### Functions that list their tables in another order -/

/-- The same function, but for the order in which its locals and its blocks are listed. -/
structure Reordered (f g : Func) : Prop where
  locals : f.locals.entries.Perm g.locals.entries
  blocks : f.blocks.entries.Perm g.blocks.entries
  args : f.args = g.args
  ret : f.ret = g.ret
  start : f.start = g.start

namespace Reordered

theorem symm (h : f.Reordered g) : g.Reordered f :=
  ⟨h.locals.symm, h.blocks.symm, h.args.symm, h.ret.symm, h.start.symm⟩

theorem locals_equiv (h : f.Reordered g) : f.locals.Equiv g.locals := Table.equiv_of_perm h.locals

theorem blocks_equiv (h : f.Reordered g) : f.blocks.Equiv g.blocks := Table.equiv_of_perm h.blocks

theorem entryLive_eq (h : f.Reordered g) : f.entryLive = g.entryLive := by
  rw [entryLive, entryLive, h.args, h.ret, h.locals_equiv.restrict_eq]

theorem walk (h : f.Reordered g) (hw : Walk t f path name live) : Walk t g path name live := by
  induction hw with
  | start =>
    rw [h.start, h.entryLive_eq]
    exact .start
  | step _ hb hthread hnext ih =>
    rw [h.blocks_equiv] at hb
    rw [Stmt.thread_locals_congr h.locals_equiv] at hthread
    exact .step ih hb hthread hnext

theorem passable (h : f.Reordered g) (hp : f.Passable t name live) : g.Passable t name live := by
  obtain ⟨block, hb, after, hthread, hnext⟩ := hp
  rw [h.blocks_equiv] at hb
  rw [Stmt.thread_locals_congr h.locals_equiv] at hthread
  exact ⟨block, hb, after, hthread, hnext⟩

theorem sound (h : f.Reordered g) (hf : f.Sound t) : g.Sound t where
  locals_check := fun name place hp => hf.locals_check name place (h.locals_equiv name ▸ hp)
  entry_nodup := h.args ▸ h.ret ▸ hf.entry_nodup
  entry_declared := by
    intro name hn
    rw [← h.args, ← h.ret] at hn
    exact h.locals_equiv.mem_iff.1 (hf.entry_declared name hn)
  passable := fun path name live hw => h.passable (hf.passable path name live (h.symm.walk hw))
  agree := fun path path' name live live' hw hw' =>
    hf.agree path path' name live live' (h.symm.walk hw) (h.symm.walk hw')
  reached := by
    intro name hn
    obtain ⟨path, live, hw⟩ := hf.reached name (h.blocks_equiv.mem_iff.2 hn)
    exact ⟨path, live, h.walk hw⟩

end Reordered

end PlaceIR.Func

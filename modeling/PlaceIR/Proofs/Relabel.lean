import Mathlib.Data.List.Nodup
import Mathlib.Logic.Embedding.Basic
import PlaceIR.Func.Check

/-! Other labels throughout a program. Locals and blocks get other names, one to one, and
what only matters when the program runs is replaced at will. A table under other names has
the old bindings under the new names, and the operations on tables go along with the change;
so do checks and reports along a chain, by what the change does to their answers and to their
messages. -/

namespace PlaceIR

/-- New labels for a program: names for the locals and the blocks of its functions, different
ones for different ones, and anything for the callees, the flags and the operators. -/
structure Relabelling where
  slot : String ↪ String
  block : String ↪ String
  callee : String → String
  destructive : Bool → Bool
  inbounds : Bool → Bool
  unOp : IntUnOp → IntUnOp
  binOp : IntBinOp → IntBinOp

/-! ### Tables -/

namespace Table

variable {α β : Type} {f : String ↪ String} {g : α → β} {s u : Table α} {k : String} {v : α}

/-- The table with `f` applied to its names and `g` to its values. -/
def map (f : String ↪ String) (g : α → β) (s : Table α) : Table β where
  entries := s.entries.map (Prod.map f g)
  nodup := by
    have h := s.nodup.map f.injective
    rwa [List.map_map] at h ⊢

abbrev rename (f : String ↪ String) (s : Table α) : Table α := s.map f id

theorem keys_map : (s.map f g).keys = s.keys.map f := by
  change (s.entries.map (Prod.map f g)).map Prod.fst = (s.entries.map Prod.fst).map f
  rw [List.map_map, List.map_map]
  rfl

@[simp] theorem mem_map : f k ∈ s.map f g ↔ k ∈ s := by
  rw [mem_iff_mem_keys, keys_map, List.mem_map_of_injective f.injective, mem_iff_mem_keys]

theorem get?_map : (s.map f g).get? (f k) = (s.get? k).map g := by
  change (s.entries.map (Prod.map f g)).lookup (f k) = (s.entries.lookup k).map g
  induction s.entries with
  | nil => rfl
  | cons e es ih =>
    obtain ⟨a, b⟩ := e
    rw [List.map_cons, Prod.map_apply, lookup_cons, lookup_cons, ih]
    simp only [f.injective.eq_iff]
    split <;> rfl

theorem get?_rename : (s.rename f).get? (f k) = s.get? k := by
  rw [get?_map, Option.map_id, id]

theorem map_insert : (s.insert k v).map f g = (s.map f g).insert (f k) (g v) := by
  refine Table.ext ?_
  change (bindIn k v s.entries).map (Prod.map f g) = bindIn (f k) (g v) (s.entries.map (Prod.map f g))
  induction s.entries with
  | nil => rfl
  | cons e es ih =>
    simp only [bindIn, List.map_cons, Prod.map_fst, f.injective.eq_iff]
    split
    · rfl
    · rw [List.map_cons, ih]

theorem rename_insert : (s.insert k v).rename f = (s.rename f).insert (f k) v := map_insert

theorem rename_erase : (s.erase k).rename f = (s.rename f).erase (f k) := by
  refine Table.ext ?_
  change (s.entries.filter (·.1 != k)).map (Prod.map f id) =
    (s.entries.map (Prod.map f id)).filter (·.1 != f k)
  rw [List.filter_map]
  congr 2
  funext e
  simp [bne, f.injective.eq_iff]

theorem rename_sub_iff : (s.rename f).Sub (u.rename f) ↔ s.Sub u := by
  rw [sub_iff_entries, sub_iff_entries]
  change (∀ e ∈ s.entries.map (Prod.map f id), _) ↔ _
  rw [List.forall_mem_map]
  simp only [Prod.map_fst, Prod.map_snd, get?_rename, id]

theorem rename_equiv_iff : (s.rename f).Equiv (u.rename f) ↔ s.Equiv u := by
  rw [equiv_iff_sub, equiv_iff_sub, rename_sub_iff, rename_sub_iff]

theorem rename_refl (s : Table α) : s.rename (.refl String) = s := by
  refine Table.ext ?_
  change s.entries.map (Prod.map id id) = s.entries
  rw [Prod.map_id, List.map_id]

end Table

/-! ### Chains of checks -/

section Chain

variable {α β γ δ : Type} {e : α → γ} {g : β → δ}

theorem bind_same_eq_map {c : Checked α} {f : α → Checked β} {f' : α → Checked δ}
    (hf : ∀ a, f' a = (f a).map g) : (c >>= f') = (c >>= f).map g := by
  cases c with
  | ok a => exact hf a
  | error fault => rfl

theorem orIllFormed_get?_map {f : String ↪ String} {s : Table α} {k : String} :
    orIllFormed ((s.map f e).get? (f k)) = (orIllFormed (s.get? k)).map e := by
  rw [Table.get?_map]
  cases s.get? k <;> rfl

namespace Report

variable {m : Message → Message} {msg msg' : Message}

/-- The report with `g` applied to its answer and `m` to its messages. -/
def map (g : α → β) (m : Message → Message) (r : Report α) : Report β :=
  ⟨r.result.map g, r.log.map m⟩

theorem pure_eq_map (a : α) : (pure (e a) : Report γ) = (pure a : Report α).map e m := rfl

theorem map_id (r : Report α) : r.map id id = r := by
  rw [map, Except.map_id, List.map_id]
  rfl

theorem blame_eq_map {r : Report α} {r' : Report γ} (h : r' = r.map e m) (hm : msg' = m msg) :
    r'.blame msg' = (r.blame msg).map e m := by
  subst h hm
  obtain ⟨c, log⟩ := r
  rcases c with (_ | _) | _ <;> simp [blame, map, Except.map]

/-- A report carried over by `e`, and what follows it carried over by `g`. -/
theorem bind_eq_map {r : Report α} {r' : Report γ} {f : α → Report β} {f' : γ → Report δ}
    (hr : r' = r.map e m) (hf : ∀ a, r.result = .ok a → f' (e a) = (f a).map g m) :
    (r' >>= f') = (r >>= f).map g m := by
  subst hr
  obtain ⟨c, log⟩ := r
  cases c with
  | ok a =>
    have hnext := hf a rfl
    change Report.mk (f' (e a)).result (log.map m ++ (f' (e a)).log) =
      ⟨(f a).result.map g, (log ++ (f a).log).map m⟩
    rw [hnext, List.map_append]
    rfl
  | error fault => rfl

/-- A check that is blamed on a message, and what follows it. -/
theorem blame_bind_eq_map {c : Checked α} {c' : Checked γ} {f : α → Report β} {f' : γ → Report δ}
    (hc : c' = c.map e) (hm : msg' = m msg) (hf : ∀ a, c = .ok a → f' (e a) = (f a).map g m) :
    ((silent c').blame msg' >>= f') = ((silent c).blame msg >>= f).map g m := by
  refine bind_eq_map (blame_eq_map (congrArg silent hc) hm) fun a ha => hf a ?_
  rwa [result_blame, result_silent] at ha

/-- A requirement that is blamed on a message, and what follows it. -/
theorem require_bind_eq_map {p q : Prop} [Decidable p] [Decidable q] {f : Unit → Report β}
    {f' : Unit → Report δ} (h : q ↔ p) (hm : msg' = m msg) (hf : f' () = (f ()).map g m) :
    ((silent (require q)).blame msg' >>= f') = ((silent (require p)).blame msg >>= f).map g m := by
  have hrequire : require q = (require p).map id := by
    simp only [require, h]
    split <;> rfl
  exact blame_bind_eq_map hrequire hm fun _ _ => hf

theorem foldlM_eq_map {ι κ : Type} {φ : ι → κ} {f : α → ι → Report α} {f' : γ → κ → Report γ}
    (h : ∀ i a, f' (e a) (φ i) = (f a i).map e m) (l : List ι) (a : α) :
    (l.map φ).foldlM f' (e a) = (l.foldlM f a).map e m := by
  induction l generalizing a with
  | nil => rfl
  | cons i l ih =>
    rw [List.map_cons, List.foldlM_cons, List.foldlM_cons]
    exact bind_eq_map (h i a) fun b _ => ih b

theorem forM_eq_map {ι κ : Type} {φ : ι → κ} {f : ι → Report Unit} {f' : κ → Report Unit}
    (h : ∀ i, f' (φ i) = (f i).map id m) (l : List ι) :
    (l.map φ).forM f' = (l.forM f).map id m := by
  induction l with
  | nil => rfl
  | cons i l ih => exact bind_eq_map (h i) fun _ _ => ih

end Report

end Chain

/-! ### Programs -/

def UnOp.relabel (r : Relabelling) : UnOp → UnOp
  | .int op result => .int (r.unOp op) result
  | .unknown => .unknown

def BinOp.relabel (r : Relabelling) : BinOp → BinOp
  | .int op result => .int (r.binOp op) result
  | .ptrOffset inbounds => .ptrOffset (r.inbounds inbounds)
  | .unknown => .unknown

mutual

def Value.relabel (r : Relabelling) : Value → Value
  | .const c ty => .const c ty
  | .load source destructive => .load (source.relabel r) (r.destructive destructive)
  | .addrOf target m => .addrOf (target.relabel r) m
  | .ref target align m => .ref (target.relabel r) align m
  | .unOp op operand => .unOp (op.relabel r) (operand.relabel r)
  | .binOp op left right => .binOp (op.relabel r) (left.relabel r) (right.relabel r)
  | .unknown => .unknown
termination_by structural v => v

def Place.relabel (r : Relabelling) : Place → Place
  | .slot name => .slot (r.slot name)
  | .deref operand align => .deref (operand.relabel r) align
  | .field root position => .field (root.relabel r) position
  | .index root index => .index (root.relabel r) (index.relabel r)
  | .unknown => .unknown
termination_by structural p => p

end

def Stmt.relabel (r : Relabelling) : Stmt → Stmt
  | .assign destination source => .assign (destination.relabel r) (source.relabel r)
  | .finalize place => .finalize (place.relabel r)
  | .storageLive name => .storageLive (r.slot name)
  | .storageDead name => .storageDead (r.slot name)
  | .unknown => .unknown

def Terminator.relabel (r : Relabelling) : Terminator → Terminator
  | .goto target => .goto (r.block target)
  | .branch condition thenBlock elseBlock =>
    .branch (condition.relabel r) (r.block thenBlock) (r.block elseBlock)
  | .call callee arguments result next =>
    .call (r.callee callee) (arguments.map (·.relabel r)) (result.relabel r) (r.block next)
  | .ret => .ret
  | .unknown => .unknown

def Block.relabel (r : Relabelling) (b : Block) : Block :=
  ⟨b.statements.map (·.relabel r), b.terminator.relabel r⟩

def Func.relabel (r : Relabelling) (f : Func) : Func where
  locals := f.locals.rename r.slot
  args := f.args.map r.slot
  ret := r.slot f.ret
  blocks := f.blocks.map r.block (·.relabel r)
  start := r.block f.start

def Program.relabel (r : Relabelling) (p : Program) : Program where
  functions := p.functions.map (.refl String) (·.relabel r)
  start := p.start

def Message.relabel (r : Relabelling) : Message → Message
  | .illFormedLocal name => .illFormedLocal (r.slot name)
  | .undeclaredOnEntry name => .undeclaredOnEntry (r.slot name)
  | .boundTwice name => .boundTwice (r.slot name)
  | .undeclaredBlock name => .undeclaredBlock (r.block name)
  | .illFormedStatement block kind => .illFormedStatement (r.block block) kind
  | .illFormedTerminator block kind => .illFormedTerminator (r.block block) kind
  | .divergent block source => .divergent (r.block block) (r.block source)
  | .unreachable blocks => .unreachable (blocks.map r.block)
  | .undefinedStart function => .undefinedStart function
  | .illFormedFunction name => .illFormedFunction name

/-- The report of a function's check under other names: the recorded blocks and the locals
live there renamed, and so those that its messages name. -/
def Report.relabel (r : Relabelling) (report : Report (Table Live)) : Report (Table Live) :=
  report.map (Table.map r.block (Table.rename r.slot)) (Message.relabel r)

end PlaceIR

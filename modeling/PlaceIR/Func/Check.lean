import PlaceIR.Func.Search

/-! Acceptance of functions and programs. A function is accepted with the locals live
on entry to each of its blocks; a rejection logs its reason. -/

namespace PlaceIR

namespace Func

def checkLocals (t : Target) (f : Func) : Report Unit :=
  f.locals.entries.forM fun (name, place) =>
    (Report.silent (place.check t)).blame (.illFormedLocal name)

/-- Bind a local that is live on entry to its declared place type. -/
def bindOnEntry (f : Func) (live : Live) (name : String) : Report Live := do
  let place ← (Report.silent (orIllFormed (f.locals.get? name))).blame (.undeclaredOnEntry name)
  (Report.silent (require (name ∉ live))).blame (.boundTwice name)
  return live.insert name place

/-- The locals live on entry: the arguments, then the return local. -/
def initialLive (f : Func) : Report Live := (f.args ++ [f.ret]).foldlM f.bindOnEntry ∅

/-- Accept the function if the walk over its blocks succeeds and arrives at all of them. -/
def check (t : Target) (f : Func) : Report (Table Live) := do
  f.checkLocals t
  let live ← f.initialLive
  let entry ← f.explore t (Search.begin f.start live)
  let unreached := f.blocks.keys.filter (· ∉ entry)
  (Report.silent (require (unreached = []))).blame (.unreachable unreached)
  return entry

end Func

def Program.check (t : Target) (p : Program) : Report Unit := do
  (Report.silent (require (p.start ∈ p.functions))).blame (.undefinedStart p.start)
  p.functions.entries.forM fun (name, f) => (discard (f.check t)).blame (.illFormedFunction name)

end PlaceIR

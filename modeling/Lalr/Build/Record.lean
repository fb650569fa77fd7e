import Lalr.Build.Lookahead

/-!
# Records and reports, look-up by look-up

`create_reduce_actions` looks up each item of each state, and `resolve_conflicts` the record of each
key of a state: an operator is asked for only if there is something to shift, productions are asked
up to the first that is preferred (`prefers_reduce`), and items up to the first that asks to shift
(`prefers_shift`). A report shows the productions of a conflict and the keys it is about, each
looked up.
-/

namespace Lalr.Workspace

open Build

variable (w : Workspace)

/-! ## Drafts -/

/-- What an item of a state offers: its production on each of its lookaheads, if it is complete. -/
def completedAt (a : Automaton) (q : StateId) (item : Item) :
    Stage (Option (ProductionId × TermSet)) := do
  let number ← occurrenceAt a.occurrences ⟨q, item⟩
  let lookaheads ← found (.occurrence number) a.lookaheads[number]?
  match ← w.next item with
  | some _ => return none
  | none => return some (item.production, lookaheads)

/-- The drafts of a state. -/
def drafts (a : Automaton) (q : StateId) (s : State) : Stage (List (TermId × Draft)) := do
  let completed ← collectSome (w.completedAt a q) s.items
  return Automaton.drafts s completed

/-! ## Choices -/

/-- The rule of a production asks to prefer it when it is complete. -/
def prefersReduce (i : ProductionId) : Stage Bool := do
  let p ← w.production i
  let completed ← w.itemAt i p.rhs.length
  w.hasHint completed .preferReduce

/-- An item of the state that shifts the key asks to. -/
def prefersShift (s : State) (key : TermId) : Stage Bool :=
  s.items.anyM fun item => do
    let next ← w.next item
    if next == some key then w.hasHint item .preferShift else return false

/-- The candidates with the first preferred one in front, and the conflict if none is. -/
def order (candidates : List ProductionId) : Stage (List ProductionId × List Conflict) :=
  match candidates with
  | first :: second :: _ => do
    match ← candidates.findM? w.prefersReduce with
    | some p => return (p :: candidates.erase p, [])
    | none => return (candidates, [.reduceReduce first second])
  | _ => return (candidates, [])

/-- Moving or reducing by the production, where both are possible. -/
def shiftOrReduce (s : State) (key : TermId) (production : ProductionId) :
    Stage (ActionKind × List Conflict) := do
  let t ← termAt w.terms key
  if t.isOperator then return (.operator, [])
  else if ← w.prefersShift s key then return (.shift, [])
  else if ← w.prefersReduce production then return (.reduce, [])
  else return (.shift, [.shiftReduce production])

/-- The record of a draft, and the conflicts it leaves. -/
def resolve (s : State) (key : TermId) (draft : Draft) : Stage (Record × List Conflict) := do
  let (reduces, conflicts) ← w.order draft.candidates
  match reduces, draft.target with
  | [], target => return ({ kind := .shift, target, reduces := [] }, [])
  | reduces, none =>
    if key == TermId.eof && reduces == [ProductionId.root] then
      return ({ kind := .accept, target := none, reduces }, [])
    else return ({ kind := .reduce, target := none, reduces }, conflicts)
  | production :: rest, some target => do
    let (kind, more) ← w.shiftOrReduce s key production
    return ({ kind, target := some target, reduces := production :: rest }, conflicts ++ more)

/-- The records of a state with the conflicts they leave, key by key. -/
def resolveState (a : Automaton) (q : StateId) (s : State) :
    Stage (List (TermId × Record × List Conflict)) := do
  let drafts ← w.drafts a q s
  (drafts.map Prod.fst).mapM fun key => do
    let draft ← found (.action q key) (drafts.lookup key)
    let resolved ← w.resolve s key draft
    return (key, resolved)

/-- The records of all states with the conflicts they leave. -/
def resolveAll (a : Automaton) : Stage (List (List (TermId × Record × List Conflict))) :=
  a.states.zipIdx.mapM fun (s, q) => w.resolveState a q s

/-! ## Reports -/

/-- A conflict of a state in words. -/
def describe (q : StateId) : Conflict → Stage String
  | .reduceReduce first second => do
    let first ← w.displayProduction first
    let second ← w.displayProduction second
    return "Reduce-reduce conflict in state " ++ q.label ++ " for productions: " ++ first ++
      "; " ++ second
  | .shiftReduce production => do
    let production ← w.displayProduction production
    return "Shift-reduce conflict in state " ++ q.label ++ ", reduce production: " ++ production

/-- **The reports of conflicts.** -/
def reports (conflicts : List (StateId × TermId × Conflict)) : Stage Log := do
  let described ← conflicts.mapM fun (q, key, conflict) => do
    let text ← w.describe q conflict
    return ((q, text), key)
  (groupByKey described).mapM fun ((q, text), keys) => do
    let keys ← keys.mapM (keyAt w.terms)
    return .conflict q text keys

end Lalr.Workspace

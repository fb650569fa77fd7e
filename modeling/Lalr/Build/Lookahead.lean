import Lalr.Automaton.Lookahead
import Lalr.Build.States

/-!
# Lookaheads, look-up by look-up

While states are made, the closure of a state gives the start items it adds the terminals that may
begin what follows (`tail_firsts`) and an edge from the item that added them; a move links an item
to the next one. Here all this is gathered afterwards, state by state, so the items of a state
(`ParserState.items`, `lr_items`) are the occurrences by their number.

`propagate_lookaheads` looks up the set of each item that it takes from the queue and the set of
each of its targets. An item without edges has no targets, which is no miss.
-/

namespace Lalr

namespace Build

/-- The number of an occurrence. -/
def occurrenceAt (occurrences : List Occurrence) (o : Occurrence) : Stage Nat :=
  let number := occurrences.idxOf o
  if number < occurrences.length then .ok number else .error (.miss (.occurrence number))

/-- The tail of an item. -/
def tailAt (tails : List (List Tail)) (item : Item) : Stage Tail :=
  found (.item item) (tails[item.production]?.bind (·[item.position]?))

/-- The first items of the two first states, which the end of input follows. -/
def ended (states : List State) : Stage (List Occurrence) :=
  [StateId.initial, StateId.final].mapM fun q => do
    let s ← stateAt states q
    let item ← found (.member q 0) s.items[0]?
    return ⟨q, item⟩

end Build

namespace Workspace

open Build

variable (w : Workspace)

/-! ## What the visits hand out -/

/-- What an item offers to the start items of the symbol behind its dot. -/
def offer (tails : List (List Tail)) (item : Item) : Stage (Option (TermId × TermSet)) := do
  let next ← w.next item
  let tail ← tailAt tails item
  return next.map fun x => (x, tail.firsts)

/-- The lookaheads an item of a state starts with. -/
def seed (ended : List Occurrence) (offers : List (TermId × TermSet)) (o : Occurrence) :
    Stage TermSet := do
  let set := if o ∈ ended then TermSet.singleton TermId.eof else ∅
  if o.item.position == 0 then
    let p ← w.productionOf o.item
    return set ∪ TermSet.unions ((offers.filter fun offer => p.lhs == offer.1).map Prod.snd)
  else return set

/-- The lookaheads the items of a state start with. -/
def seedsOf (tails : List (List Tail)) (ended : List Occurrence) (q : StateId) (s : State) :
    Stage (List TermSet) := do
  let offers ← collectSome (w.offer tails) s.items
  s.items.mapM fun item => w.seed ended offers ⟨q, item⟩

/-- The occurrences that take over the lookaheads of an item of a state. -/
def targets (tails : List (List Tail)) (occurrences : List Occurrence) (q : StateId) (s : State)
    (item : Item) : Stage (List Nat) := do
  match ← w.next item with
  | none => return []
  | some x => do
    let tail ← tailAt tails item
    let starts ← if tail.nullable then w.expand item else pure []
    let target ← found (.action q x) (s.moves.lookup x)
    let shifted ← w.itemAt item.production (item.position + 1)
    let targets := starts.map (Occurrence.mk q) ++ [Occurrence.mk target shifted]
    targets.mapM (occurrenceAt occurrences)

end Workspace

/-! ## Propagation -/

namespace Spreading

open Build

/-- Adds terms to the set of one node, which waits again if its set has grown. -/
def absorbM (terms : TermSet) (s : Spreading) (node : Nat) : Stage Spreading := do
  let old ← found (.occurrence node) s.sets[node]?
  let new := old ∪ terms
  return if new = old then s
    else { sets := s.sets.setIfInBounds node new, pending := s.pending.push node }

/-- A node passes its set on to its targets. -/
def visitM (graph : Graph) (s : Spreading) (node : Nat) : Stage Spreading := do
  let terms ← found (.occurrence node) s.sets[node]?
  (graph.targets node).foldlM (absorbM terms) s

/-- Visits waiting nodes until none is left. -/
def runM (graph : Graph) : Nat → Spreading → Stage Spreading
  | 0, s => return s
  | fuel + 1, s =>
    match s.pending.pop with
    | none => return s
    | some (node, pending) => do
      let s ← visitM graph { s with pending } node
      runM graph fuel s

end Spreading

namespace Build

/-- The sets after everything has been passed on along the graph. -/
def spread (graph : Graph) (seeds : Array TermSet) : Stage (Array TermSet) := do
  let nodes := seeds.size
  let terms := (TermSet.unions seeds.toList).size
  let s ← (Spreading.start seeds).runM graph (nodes + nodes * terms)
  return s.sets

end Build

namespace Workspace

open Build

variable (w : Workspace)

/-- **The automaton of the states**, with its lookaheads. -/
def automaton (tails : List (List Tail)) (states : List State) : Stage Automaton := do
  let occurrences := Automaton.listOccurrences states
  let ended ← ended states
  let seeds ← states.zipIdx.mapM fun (s, q) => w.seedsOf tails ended q s
  let graph ← states.zipIdx.mapM fun (s, q) => s.items.mapM (w.targets tails occurrences q s)
  let graph := graph.flatten.toArray
  let lookaheads ← spread graph seeds.flatten.toArray
  return { states, occurrences, graph, lookaheads }

end Workspace

end Lalr

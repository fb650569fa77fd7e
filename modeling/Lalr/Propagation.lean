import Lalr.TermSet
import Lalr.Total
import Lalr.Worklist

/-!
# Propagation of term sets along a graph

Every node of a graph holds a set of terms and passes it on to its targets until nothing grows:
the result is the least assignment above the initial one in which every target holds what its
source holds. Lookaheads are of this form: this is the loop of `propagate_lookaheads`, over the
`targets` of a `PropagationGraph` (which also counts its edges: `edge_count`).

All nodes wait at the start, and a node waits again whenever its set has grown. One visit costs
one unit of fuel. With `n` nodes and `k` terms in the initial sets, `n + n * k` units suffice: a
visit takes one node off the worklist, and each node it puts back has won at least one of its at
most `k` terms. Out of scope is the count of visits, which is made for a trace.
-/

namespace Lalr

/-- The targets of every node, by number. -/
abbrev Graph := Array (List Nat)

/-- The targets of one node. -/
def Graph.targets (graph : Graph) (node : Nat) : List Nat := graph[node]?.getD []

/-- The number of edges. -/
def Graph.edgeCount (graph : Graph) : Nat := total (graph.toList.map List.length)

/-- Sets of terms on the way to a fixed point. -/
structure Spreading where
  sets    : Array TermSet
  pending : Worklist Nat

namespace Spreading

/-- Adds terms to the set of one node, which waits again if its set has grown. -/
def absorb (terms : TermSet) (s : Spreading) (node : Nat) : Spreading :=
  match s.sets[node]? with
  | none => s
  | some old =>
    let new := old ∪ terms
    if new = old then s
    else { sets := s.sets.setIfInBounds node new, pending := s.pending.push node }

/-- A node passes its set, as it stands, on to its targets. -/
def visit (graph : Graph) (s : Spreading) (node : Nat) : Spreading :=
  let terms := s.sets[node]?.getD ∅
  (graph.targets node).foldl (absorb terms) s

/-- Visits waiting nodes until none is left. -/
def run (graph : Graph) : Nat → Spreading → Spreading
  | 0, s => s
  | fuel + 1, s =>
    match s.pending.pop with
    | none => s
    | some (node, pending) => run graph fuel (visit graph { s with pending } node)

/-- All nodes wait. -/
def start (initial : Array TermSet) : Spreading :=
  ⟨initial, Worklist.ofList (List.range initial.size)⟩

end Spreading

/-- **The sets after everything has been passed on** along the graph. -/
def propagate (graph : Graph) (initial : Array TermSet) : Array TermSet :=
  let nodes := initial.size
  let terms := (TermSet.unions initial.toList).size
  ((Spreading.start initial).run graph (nodes + nodes * terms)).sets

end Lalr

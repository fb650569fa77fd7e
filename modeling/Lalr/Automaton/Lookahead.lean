import Lalr.Automaton.Basic
import Lalr.Cfg.Facts
import Lalr.Propagation

/-!
# Lookaheads

Model of the lookaheads and edges that `closure` and `goto` hand out, and of
`propagate_lookaheads`. An **occurrence** (`LrItem`) is an item in a state. It has a set of
lookaheads, the terminals that may follow once the item's production is complete. Lookaheads arise
in two ways and then spread:

* an item whose dot stands before a nonterminal gives the start items of that nonterminal, in the
  same state, the terminals that may begin what follows (`seeds`); the end of input follows the
  augmented root;
* an occurrence passes its lookaheads on to those start items if what follows may be empty, and to
  the item with the dot advanced in the state moved to (`targets`). The graph of this is
  `PropagationGraph`, whose edges are added once each.

The sets are the least ones closed under spreading.

Occurrences are numbered state by state here. The number by which one is shown (`LrItemID`) goes by
the order of `new_item`, which is `labelOrder`.
-/

namespace Lalr

/-- An item in a state. -/
structure Occurrence where
  state : StateId
  item  : Item
  deriving DecidableEq, Repr

/-- The states with the lookaheads of all occurrences. -/
structure Automaton where
  states      : List State
  /-- The occurrences, state by state. -/
  occurrences : List Occurrence
  /-- Which occurrences the lookaheads of each spread to. -/
  graph       : Graph
  /-- The lookaheads of each occurrence. -/
  lookaheads  : Array TermSet

namespace Automaton

/-- All occurrences, state by state. -/
def listOccurrences (states : List State) : List Occurrence :=
  states.zipIdx.flatMap fun (s, q) => s.items.map (Occurrence.mk q)

/-- What the items of a state offer to the start items of the symbol behind their dot. -/
def offers (g : Cfg) (facts : Facts) (s : State) : List (TermId × TermSet) :=
  s.items.filterMap fun item => (g.next item).map fun x => (x, g.tailFirsts facts item)

/-- The lookaheads an item of a state starts with, given what the state offers. The first item of
each of the two first states is the augmented root's, and is followed by the end of input. -/
def seed (g : Cfg) (offers : List (TermId × TermSet)) (q : StateId) (s : State) (item : Item) :
    TermSet :=
  let ended :=
    if (q == StateId.initial || q == StateId.final) && s.items.head? == some item then
      TermSet.singleton TermId.eof
    else ∅
  if item.position == 0 then
    ended ∪ TermSet.unions ((offers.filter fun o => g.lhs? item == some o.1).map Prod.snd)
  else ended

/-- The lookaheads all occurrences start with. -/
def seeds (g : Cfg) (facts : Facts) (states : List State) : Array TermSet :=
  (states.zipIdx.flatMap fun (s, q) =>
    let offers := offers g facts s
    s.items.map (seed g offers q s)).toArray

/-- The occurrences that take over the lookaheads of an item of a state. -/
def targets (g : Cfg) (facts : Facts) (q : StateId) (s : State) (item : Item) :
    List Occurrence :=
  match g.next item with
  | none => []
  | some x =>
    (if g.tailNullable facts item then (g.startItems x).map (Occurrence.mk q) else []) ++
      ((s.moves.lookup x).map fun target => Occurrence.mk target item.advance).toList

/-- The targets of all occurrences, by number. -/
def targetGraph (g : Cfg) (facts : Facts) (states : List State)
    (occurrences : List Occurrence) : Graph :=
  (states.zipIdx.flatMap fun (s, q) =>
    s.items.map fun item => (targets g facts q s item).map occurrences.idxOf).toArray

/-- **The LALR(1) automaton of a grammar.** -/
def ofCfg (g : Cfg) (facts : Facts) : Automaton :=
  let states := g.states
  let occurrences := listOccurrences states
  let graph := targetGraph g facts states occurrences
  { states, occurrences, graph, lookaheads := propagate graph (seeds g facts states) }

/-- The lookaheads of an item in a state. -/
def lookaheadsOf (a : Automaton) (q : StateId) (item : Item) : TermSet :=
  a.lookaheads[a.occurrences.idxOf ⟨q, item⟩]?.getD ∅

/-- The targets of an item in a state. -/
def targetsOf (a : Automaton) (q : StateId) (item : Item) : List Occurrence :=
  (a.graph.targets (a.occurrences.idxOf ⟨q, item⟩)).filterMap (a.occurrences[·]?)

/-! ## Labels of occurrences

Labels number the occurrences in the order in which the automaton comes into being: the kernel of
a state when the state is first moved to, the rest of its items when the state is visited. The
states first moved to from one state have consecutive numbers. -/

/-- The number of states once a state with these moves has been visited, with `known` before. -/
def knownAfter (known : Nat) (s : State) : Nat :=
  s.moves.foldl (fun n move => max n (move.2 + 1)) known

/-- The kernel occurrences of a state. -/
def kernelOccurrences (states : List State) (q : StateId) : List Occurrence :=
  ((states[q]?.map State.kernel).getD []).map (Occurrence.mk q)

/-- The occurrences that come into being when the states are visited, from `q` on. -/
def madeFrom (all : List State) (q known : Nat) : List State → List Occurrence
  | [] => []
  | s :: rest =>
    let after := knownAfter known s
    (s.items.drop s.kernel.length).map (Occurrence.mk q) ++
      ((List.range (after - known)).map (known + ·)).flatMap (kernelOccurrences all) ++
      madeFrom all (q + 1) after rest

/-- All occurrences in the order they come into being. -/
def labelOrder (states : List State) : List Occurrence :=
  kernelOccurrences states StateId.initial ++ kernelOccurrences states StateId.final ++
    madeFrom states 0 2 states

end Automaton

end Lalr

import Lalr.Cfg.Basic

/-!
# The LR(0) automaton

Model of `create_states` without the lookaheads that it hands out on the way, and of its parts:
`closure` (`Cfg.closure`), the kernels that `goto` sorts and compares (`Cfg.moved`), `new_state`
(`State`, after `ParserState`).

A state is identified by its **kernel**, an increasing list of items. Its items are the closure of
the kernel: the kernel first, then the start items of every nonterminal behind a dot, in the order
of discovery. A move over a symbol leads to the state whose kernel has the dot advanced over that
symbol.

States are discovered breadth first from two: the one that parsing starts in, and the one of the
completed augmented root. The latter need not be reached by any move, since a left-recursive root
leads to a larger kernel.

The closure of a kernel adds only start items, one per production; a kernel is a set of items, so
there are at most two to the power of their number.

What is looked up is taken to be there: `Lalr.Build.States` makes the states one after the other and
looks up by look-up. Out of scope are the counts that are made for traces.
-/

namespace Lalr

namespace Cfg

/-- The start items of a nonterminal. -/
def startItems (g : Cfg) (lhs : TermId) : List Item := (g.productionsOf lhs).map Item.start

/-- The start items of the symbol behind the dot; a terminal has none. -/
def expand (g : Cfg) (item : Item) : List Item :=
  match g.next item with
  | some x => g.startItems x
  | none => []

/-- **The closure of a kernel.** -/
def closure (g : Cfg) (kernel : List Item) : List Item :=
  discover g.expand (kernel.length + g.productions.length) kernel

/-- The symbols behind the dots, in order of first appearance. -/
def movable (g : Cfg) (items : List Item) : List TermId :=
  appendNew [] (items.filterMap g.next)

/-- The kernel reached by moving over a symbol. -/
def moved (g : Cfg) (items : List Item) (x : TermId) : List Item :=
  sortDistinct ((items.filter fun item => g.next item == some x).map Item.advance)

/-- The kernels one move away. -/
def movedKernels (g : Cfg) (kernel : List Item) : List (List Item) :=
  let items := g.closure kernel
  (g.movable items).map (g.moved items)

/-- The number of items. -/
def itemCount (g : Cfg) : Nat := total (g.productions.map fun p => p.rhs.length + 1)

/-- **The kernels of all states**, numbered by their place. -/
def kernels (g : Cfg) : List (List Item) :=
  discover g.movedKernels (Nat.pow 2 g.itemCount)
    [[⟨ProductionId.root, 0⟩], [⟨ProductionId.root, 1⟩]]

end Cfg

/-- A state of the automaton. -/
structure State where
  kernel : List Item
  items  : List Item
  /-- The symbols that can be moved over, and where they lead. -/
  moves  : List (TermId × StateId)
  deriving DecidableEq, Repr

namespace Cfg

/-- The state of a kernel, among the kernels of all states. -/
def stateOf (g : Cfg) (kernels : List (List Item)) (kernel : List Item) : State :=
  let items := g.closure kernel
  { kernel, items, moves := (g.movable items).map fun x => (x, kernels.idxOf (g.moved items x)) }

/-- **All states.** -/
def states (g : Cfg) : List State :=
  let kernels := g.kernels
  kernels.map (g.stateOf kernels)

end Cfg

end Lalr

import Lalr.Automaton.Report
import Lalr.Build.Basic

/-!
# States, made one after the other

`create_states` makes two states and then visits every state in turn, those made on the way
included. A visit closes the state and then enters its moves:

* the closure looks up the symbol behind each dot and the first item of each production of it
  (`closure`);
* a move looks up the next item of each item that makes it; it leads to the state with the kernel of
  these items, which is made if it is not there yet, and every one of the items is looked for in
  that state (`goto`). If it does not have one, the build gives up (`MissingItem`).

Lookaheads, which the visits hand out too, are in `Lalr.Build.Lookahead`.
-/

namespace Lalr

/-- A state that has not been visited. -/
def State.new (kernel : List Item) : State := { kernel, items := kernel, moves := [] }

namespace Build

/-- The state with this id. -/
def stateAt (states : List State) (q : StateId) : Stage State := found (.state q) states[q]?

/-- Discovers values along a function that may fail. -/
def discoverFromM {α : Type} [DecidableEq α] (succ : α → Stage (List α)) :
    Nat → Nat → List α → Stage (List α)
  | 0, _, found => return found
  | fuel + 1, cursor, found =>
    match found[cursor]? with
    | none => return found
    | some x => do
      let new ← succ x
      discoverFromM succ fuel (cursor + 1) (appendNew found new)

end Build

namespace Workspace

open Build

variable (w : Workspace)

/-! ## Closure -/

/-- The start items of the symbol behind the dot, if it is a nonterminal. -/
def expand (item : Item) : Stage (List Item) := do
  match ← w.next item with
  | none => return []
  | some x => if ← isTerminalAt w.terms x then return [] else w.startItems x

/-- The closure of a kernel. -/
def closure (kernel : List Item) : Stage (List Item) :=
  discoverFromM w.expand (kernel.length + w.cfg.productions.length) 0 kernel

/-! ## Moves -/

/-- The move that an item makes: the symbol behind its dot, and the next item. -/
def step (item : Item) : Stage (Option (TermId × Item)) := do
  match ← w.next item with
  | none => return none
  | some x => do
    let shifted ← w.itemAt item.production (item.position + 1)
    return some (x, shifted)

/-- The moves of a state: for each symbol the items moved to. -/
def steps (items : List Item) : Stage (List (TermId × List Item)) := do
  let steps ← collectSome w.step items
  return groupByKey steps

/-- The item is looked for in the state moved to. -/
def findShifted (states : List State) (target : StateId) (item : Item) : Stage Unit := do
  let s ← stateAt states target
  if item ∈ s.items then return ()
  else do
    let text ← w.displayItem item
    .error (.issue (.missingItem text target))

/-- Enters a move of the state `q`. A state is made for a new kernel. -/
def enterMove (q : StateId) (states : List State) (move : TermId × List Item) :
    Stage (List State) := do
  let kernel := sortDistinct move.2
  let target := (states.map State.kernel).idxOf kernel
  let states := if target < states.length then states else states ++ [State.new kernel]
  let states ← change (.state q) states q fun s => { s with moves := s.moves ++ [(move.1, target)] }
  move.2.forM (w.findShifted states target)
  return states

/-! ## All states -/

/-- Visits a state: closes it, then enters its moves. -/
def visitState (states : List State) (q : StateId) : Stage (List State) := do
  let s ← stateAt states q
  let items ← w.closure s.items
  let states ← change (.state q) states q fun s => { s with items }
  let moves ← w.steps items
  moves.foldlM (w.enterMove q) states

/-- Visits the states from the one with the number `cursor` on. -/
def visitStates : Nat → StateId → List State → Stage (List State)
  | 0, _, states => return states
  | fuel + 1, cursor, states =>
    if cursor < states.length then do
      let states ← w.visitState states cursor
      visitStates fuel (cursor + 1) states
    else return states

/-- **All states.** -/
def states : Stage (List State) := do
  let start ← w.itemAt ProductionId.root 0
  let accept ← w.itemAt ProductionId.root 1
  w.visitStates (Nat.pow 2 w.cfg.itemCount) 0 [State.new [start], State.new [accept]]

end Workspace

end Lalr

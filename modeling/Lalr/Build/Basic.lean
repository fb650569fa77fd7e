import Lalr.Cfg.Display
import Lalr.Definition.Productions

/-!
# Looking things up

The stages of the build (`run`) refer to terms, productions, items and states by number, and look
them up in tables that the stages before them have filled. A number that is out of range would end
the program in a panic. So here every look-up may miss (`Miss`), and so may every change of an
entry: a stage either has a result, or it stops at the first miss or by giving up (`Stop`, the
latter for `StageError`).

What stages look up most is below. An item is known by its production and its position instead of
its place in `lr0_items`, so it is there if its production is and the position is not behind the
end. Ids are natural numbers: that they fit into 32 bits is out of scope, and so is what is looked
up only for a trace.
-/

namespace Lalr

/-- A look-up that finds nothing. -/
inductive Miss where
  | term (id : TermId)
  | production (id : ProductionId)
  /-- A symbol of a right-hand side. -/
  | symbol (production : ProductionId) (position : Nat)
  | item (item : Item)
  | state (id : StateId)
  /-- The item at a place in the list of a state. -/
  | member (state : StateId) (place : Nat)
  | occurrence (number : Nat)
  /-- What a state does for a key. -/
  | action (state : StateId) (key : TermId)
  deriving DecidableEq, Repr

/-- Why a stage has no result. -/
inductive Stop where
  | miss (miss : Miss)
  /-- The stage gives up, which is logged (`StageError`). -/
  | issue (issue : Issue)
  deriving DecidableEq, Repr

/-- The outcome of a stage, or of a part of it. -/
abbrev Stage := Except Stop

namespace Build

/-- What was looked up, if it was found. -/
def found {α : Type} (miss : Miss) : Option α → Stage α
  | some x => .ok x
  | none => .error (.miss miss)

/-- Changes the entry at a place of a list. -/
def change {α : Type} (miss : Miss) (xs : List α) (i : Nat) (f : α → α) : Stage (List α) :=
  if i < xs.length then .ok (xs.modify i f) else .error (.miss miss)

/-- Changes the set of a node. -/
def changeSet (miss : Miss) (sets : Array TermSet) (i : Nat) (f : TermSet → TermSet) :
    Stage (Array TermSet) :=
  if i < sets.size then .ok (sets.modify i f) else .error (.miss miss)

/-- The values with the property, in order. -/
def keep {α : Type} (test : α → Stage Bool) : List α → Stage (List α)
  | [] => return []
  | x :: rest => do
    let kept ← test x
    let rest ← keep test rest
    return if kept then x :: rest else rest

/-- The values that a function gives, in order. -/
def collectSome {α β : Type} (f : α → Stage (Option β)) (xs : List α) : Stage (List β) := do
  let found ← xs.mapM f
  return found.filterMap id

/-! ## Terms -/

/-- The term with this id. -/
def termAt (terms : List Term) (id : TermId) : Stage Term := found (.term id) terms[id]?

/-- The term with this id is a terminal. -/
def isTerminalAt (terms : List Term) (id : TermId) : Stage Bool := do
  let t ← termAt terms id
  return t.isTerminal

/-- The name of a term in messages. -/
def displayAt (terms : List Term) (id : TermId) : Stage String := do
  let t ← termAt terms id
  return t.display

/-- The key of a term. -/
def keyAt (terms : List Term) (id : TermId) : Stage String := do
  let t ← termAt terms id
  return t.key

end Build

/-- What the stages after collection share. -/
structure Workspace where
  terms        : List Term
  cfg          : Cfg
  /-- For each production, whether its right-hand side mentions a terminal. -/
  hasTerminals : List Bool

namespace Workspace

open Build

variable (w : Workspace)

/-! ## Productions and items -/

/-- The production with this id. -/
def production (i : ProductionId) : Stage Production := found (.production i) w.cfg.productions[i]?

/-- The item of a production at a position. -/
def itemAt (i : ProductionId) (position : Nat) : Stage Item := do
  let p ← w.production i
  if position ≤ p.rhs.length then return ⟨i, position⟩ else .error (.miss (.item ⟨i, position⟩))

/-- The production of an item. -/
def productionOf (item : Item) : Stage Production := do
  let p ← found (.item item) w.cfg.productions[item.production]?
  if item.position ≤ p.rhs.length then return p else .error (.miss (.item item))

/-- The symbol behind the dot of an item. -/
def next (item : Item) : Stage (Option TermId) := do
  let p ← w.productionOf item
  return p.rhs[item.position]?

/-- The rule of an item has the hint at the dot. -/
def hasHint (item : Item) (hint : Hint) : Stage Bool := do
  let p ← w.productionOf item
  return p.hasHint item.position hint

/-- The start items of a nonterminal. -/
def startItems (x : TermId) : Stage (List Item) := do
  let _ ← termAt w.terms x
  (w.cfg.productionsOf x).mapM fun i => w.itemAt i 0

/-! ## As text -/

/-- A production as text. -/
def displayProduction (i : ProductionId) : Stage String := do
  let p ← w.production i
  let lhs ← displayAt w.terms p.lhs
  let rhs ← p.rhs.mapM (displayAt w.terms)
  return lhs ++ " ->" ++ (if rhs.isEmpty then " (empty)" else spaced rhs)

/-- An item as text. -/
def displayItem (item : Item) : Stage String := do
  let p ← w.productionOf item
  let lhs ← displayAt w.terms p.lhs
  let rhs ← p.rhs.mapM (displayAt w.terms)
  return lhs ++ " ->" ++ spaced (rhs.take item.position) ++ " ." ++ spaced (rhs.drop item.position)

end Workspace

end Lalr

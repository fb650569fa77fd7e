import Lalr.Precedence

/-!
# Parse tables

A parse table (`ParseTable`) answers one question: in this state, with this symbol ahead, what is
to be done (`ParseAction`)? It is a record of functions, so that a table may be computed, read from
rows or written by hand, and nothing is assumed of it: the machine of `Lalr.Machine` runs over any
table whatsoever.
-/

namespace Lalr

/-- Why a table refuses a symbol. -/
inductive Refusal where
  | incorrectState
  | incorrectSymbol
  | nonAssociative
  deriving DecidableEq, Repr

/-- The refusal in words. -/
def Refusal.message : Refusal → String
  | .incorrectState => "incorrect state"
  | .incorrectSymbol => "incorrect symbol"
  | .nonAssociative => "non-associative operators cannot be chained"

/-- What a table asks for. -/
inductive Action (State Symbol Rule : Type) where
  /-- Take the symbol and go to the state. -/
  | shift (target : State)
  /-- Replace the topmost `arity` symbols by `lhs`. -/
  | reduce (rule : Rule) (lhs : Symbol) (arity : Nat)
  /-- Either of the two, decided by the precedence of the operators at hand. -/
  | operator (target : State) (rule : Rule) (lhs : Symbol) (arity : Nat)
  /-- The input is complete. -/
  | accept
  /-- There is nothing to do. -/
  | refuse (cause : Refusal)
  deriving DecidableEq, Repr

/-- A parse table. The end of input is asked for as `none`. -/
structure Table (State Symbol Rule : Type) where
  initial    : State
  action     : State → Option Symbol → Action State Symbol Rule
  precedence : Symbol → Option Precedence

namespace Table

variable {Symbol Rule : Type} [DecidableEq Symbol]

/-- The rows of a written-out table: per state its entries, of which the first that fits counts. -/
abbrev Rows (Symbol Rule : Type) := List (List (Option Symbol × Action Nat Symbol Rule))

/-- The entry of a written-out table. What no entry fits is an incorrect symbol, and a state
without a row is an incorrect state. -/
def Rows.action (rows : Rows Symbol Rule) (state : Nat) (ahead : Option Symbol) :
    Action Nat Symbol Rule :=
  match rows[state]? with
  | none => .refuse .incorrectState
  | some row => (row.lookup ahead).getD (.refuse .incorrectSymbol)

/-- A table from its rows and its operators. -/
def ofRows (initial : Nat) (rows : Rows Symbol Rule) (operators : List (Symbol × Precedence)) :
    Table Nat Symbol Rule where
  initial := initial
  action := rows.action
  precedence symbol := operators.lookup symbol

end Table

end Lalr

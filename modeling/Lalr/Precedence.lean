/-!
# Operator precedence

A terminal that is registered as an operator has a priority and an associativity (`Precedence`,
`Assoc`). When a table leaves the choice between shifting and reducing open, it is made by comparing
the incoming operator with the nearest one on the stack (`shiftsOver`, for `resolve_operator`).
-/

namespace Lalr

/-- How operators of one priority group: `a o b o c` is `(a o b) o c`, `a o (b o c)` or refused. -/
inductive Assoc where
  | left
  | right
  | nonassoc
  deriving DecidableEq, Repr

/-- A priority, higher binding tighter, and an associativity. -/
structure Precedence where
  priority : Nat
  assoc    : Assoc
  deriving DecidableEq, Repr

/-- Whether the incoming operator is shifted over the previous one (`some true`), waits for a
reduction (`some false`), or may not follow it at all (`none`). Without a previous operator there
is nothing to reduce first, and what is no operator itself waits. -/
def shiftsOver : (previous incoming : Option Precedence) → Option Bool
  | none, _ => some true
  | some _, none => some false
  | some previous, some incoming =>
    if incoming.priority > previous.priority then some true
    else if incoming.priority < previous.priority then some false
    else
      match incoming.assoc with
      | .right => some true
      | .left => some false
      | .nonassoc => none

end Lalr

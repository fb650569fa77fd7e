/-!
# Ids and their labels

Terms, productions, states, items and item occurrences are numbered from zero in the order they
come into being (`TermID`, `ProductionID`, `StateID`, `LR0ItemID`, `LrItemID`). Three terms exist in
every grammar: the end of input, the empty alternative and the augmented root.

A **label** is the short text by which an id appears in messages: a letter for its kind and the
number, padded to three digits.

Ids are natural numbers here: that they fit into 32 bits is out of scope.
-/

namespace Lalr

/-- The number of a term, terminal or not. -/
abbrev TermId := Nat

/-- The number of a production. -/
abbrev ProductionId := Nat

/-- The number of an automaton state. -/
abbrev StateId := Nat

namespace TermId

/-- The end of input. -/
abbrev eof : TermId := 0

/-- The pseudo-terminal of an explicitly empty alternative. -/
abbrev empty : TermId := 1

/-- The augmented root, which wraps the root of the grammar. -/
abbrev root : TermId := 2

end TermId

/-- The production of the augmented root. -/
abbrev ProductionId.root : ProductionId := 0

/-- The state that parsing starts in. -/
abbrev StateId.initial : StateId := 0

/-- The state of the completed augmented root alone. -/
abbrev StateId.final : StateId := 1

/-! ## Labels -/

/-- A number in decimal, padded with zeros to at least three digits. -/
def padded (n : Nat) : String :=
  let digits := toString n
  String.ofList (List.replicate (3 - digits.length) '0') ++ digits

/-- The reserved terms have labels of their own; every other term counts as a `T`. -/
def TermId.label (id : TermId) : String :=
  if id = TermId.eof then "T#EOF"
  else if id = TermId.empty then "T#Empty"
  else if id = TermId.root then "N#Root"
  else "T#" ++ padded id

/-- The label of a production. -/
def ProductionId.label (id : ProductionId) : String := "P#" ++ padded id

/-- The label of a state. -/
def StateId.label (id : StateId) : String := "S#" ++ padded id

/-- The label of the item with this number among all items of the grammar. -/
def itemLabel (number : Nat) : String := "I#" ++ padded number

/-- The label of the item occurrence with this number among all items of all states. -/
def occurrenceLabel (number : Nat) : String := "L#" ++ padded number

end Lalr

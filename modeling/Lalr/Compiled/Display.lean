import Lalr.Compiled.Basic

/-!
# States as text

Model of `display` of a `ParserState`. A state is shown by a heading with its label, a line for each
item with its lookaheads, and a line for each record.
-/

namespace Lalr

/-- The kind in words. -/
def ActionKind.text : ActionKind → String
  | .shift => "Shift"
  | .reduce => "Reduce"
  | .operator => "Operator"
  | .accept => "Accept"

/-- A record as text: its kind, where it moves, and what it could reduce. -/
def Record.display (r : Record) : String :=
  r.kind.text ++ spaced (r.target.toList.map StateId.label ++ r.reduces.map ProductionId.label)

namespace Compiled

/-- The line of an item in a state. -/
def displayItem (c : Compiled) (q : StateId) (item : Item) : String :=
  "- " ++ c.cfg.displayItem c.display item ++ " [" ++
    " ".intercalate (c.keys (c.automaton.lookaheadsOf q item)) ++ "]\n"

/-- **A state as text.** -/
def displayState (c : Compiled) (q : StateId) (s : State) : String :=
  let records := c.records[q]?.getD []
  "## " ++ q.label ++ "\n" ++ String.join (s.items.map (c.displayItem q)) ++
    String.join (records.map fun (key, r) => "  " ++ c.keyOf key ++ " => " ++ r.display ++ "\n")

end Compiled

end Lalr

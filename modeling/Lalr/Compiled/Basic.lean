import Lalr.Automaton.Report
import Lalr.Cfg.Facts
import Lalr.Definition.Productions
import Lalr.Machine.Trace
import Lalr.Token.Scanner

/-!
# Compiled grammars

Compiling turns a definition into everything a parser needs (`GrammarData`): the grammar that the
root reaches, the automaton with its lookaheads, the action records, the scanner, and a log of what
was found fault with. It fails only for a definition that is not complete: without a root, or with
a nonterminal that the root reaches and that has no rule. Conflicts are decided and logged.

`Definition.compile` is what a build comes to, told without the order of stages and without any
look-up that could miss. The build itself, stage by stage as `run` has them, is `Definition.build`
in `Lalr.Build.Run`; that it comes to this, and never to a miss, is `Definition.build_eq`.

A compiled grammar has its terms with their literals in the spelling of `normalize_keys` and their
matchers made ready (`init_matchers`), finds terms by key (`term_by_key`, `literal`), and is a parse
table (`Compiled.table`, after its `action` and `precedence`).
-/

namespace Lalr

open Text

variable [Xid]

/-- A grammar ready for parsing. -/
structure Compiled where
  ignoreCase : Bool
  root       : TermId
  terms      : List Term
  cfg        : Cfg
  facts      : Facts
  automaton  : Automaton
  records    : Records
  scanner    : Scanner
  log        : Log

/-- A term with its key in the spelling by which literals are looked up. -/
def Term.normalize (ignoreCase : Bool) (t : Term) : Term :=
  if t.isLiteral then { t with key := foldCase ignoreCase t.key } else t

/-- The keywords of a grammar: the keys of its literals that are words. -/
def keywordsOf (terms : List Term) (terminals : List TermId) : List String :=
  ((terminals.filterMap (terms[·]?)).filter fun t => t.isLiteral && isWord t.key.toList).map
    Term.key

/-- The terminals that a scanner can try. -/
def scannables (terms : List Term) (terminals : List TermId) : List Scannable :=
  terminals.filterMap fun id => do
    let t ← terms[id]?
    let matcher ← t.matcher
    pure { id, priority := t.priority, matcher }

/-- The terms with their matchers made ready. -/
def prepareTerms (ignoreCase : Bool) (terms : List Term) (terminals : List TermId) : List Term :=
  let keywords := keywordsOf terms terminals
  terms.map fun t => { t with matcher := t.matcher.map (Matcher.prepare keywords ignoreCase) }

/-- The ids of the terms of a kind, by key. Of terms with the same key, the last is found. -/
def keyTable (isOfKind : Term → Bool) (terms : List Term) : List (String × TermId) :=
  ((terms.filter isOfKind).map fun t => (t.key, t.id)).reverse

/-- The name of a term in messages. -/
def displayIn (terms : List Term) (id : TermId) : String := (terms[id]?.map Term.display).getD ""

/-- The key of a term. -/
def keyIn (terms : List Term) (id : TermId) : String := (terms[id]?.map Term.key).getD ""

/-- The term is registered as an operator. -/
def isOperatorIn (terms : List Term) (id : TermId) : Bool :=
  (terms[id]?.map Term.isOperator).getD false

namespace Definition

/-- Compiles a complete collection. -/
def compileCollection (d : Definition) (root : TermId) (c : Collection) : Compiled :=
  let terms := c.terms.map (Term.normalize d.ignoreCase)
  let g := c.cfg
  let facts := g.facts
  let automaton := Automaton.ofCfg g facts
  let disputes := automaton.allDisputes g (isOperatorIn terms)
  { ignoreCase := d.ignoreCase
    root
    terms := prepareTerms d.ignoreCase terms c.terminals
    cfg := g
    facts
    automaton
    records := Automaton.records disputes
    scanner := Scanner.ofTerminals d.ignoreCase (scannables terms c.terminals)
    log := c.issues ++
      reportConflicts (g.displayProduction (displayIn terms)) (keyIn terms)
        (Automaton.conflicts disputes) }

/-- **Compiles a definition**, or returns the log of what makes it incomplete. The build comes to
this (`build_eq`). -/
def compile (d : Definition) : Except Log Compiled :=
  match d.root with
  | none => .error [.noRoot]
  | some root =>
    let c := d.collect root
    if c.withoutRule.isEmpty then .ok (d.compileCollection root c) else .error c.issues

end Definition

namespace Compiled

/-! ## Terms -/

/-- The matcher of a term. -/
def matcherOf (c : Compiled) (id : TermId) : Option Matcher := c.terms[id]?.bind Term.matcher

/-- The name of a term in messages. -/
def display (c : Compiled) (id : TermId) : String := displayIn c.terms id

/-- The key of a term. -/
def keyOf (c : Compiled) (id : TermId) : String := keyIn c.terms id

/-- The keys of a set of terms, by id. -/
def keys (c : Compiled) (set : TermSet) : List String := set.toList.map c.keyOf

/-- The term with this key: a symbol, or else a literal. -/
def findKey (c : Compiled) (key : String) : Option TermId :=
  ((keyTable (!·.isLiteral) c.terms).lookup key).or
    ((keyTable Term.isLiteral c.terms).lookup key)

/-- The literal with this text, up to case if case is ignored. -/
def findLiteral (c : Compiled) (text : String) : Option TermId :=
  (keyTable Term.isLiteral c.terms).lookup (foldCase c.ignoreCase text)

/-- The keywords that identifiers refuse. -/
def keywords (c : Compiled) : List String := keywordsOf c.terms c.cfg.terminals

/-! ## Parsing -/

/-- The tokens of a text. -/
def tokens (c : Compiled) (input : String) : List (Signal TermId) :=
  c.scanner.tokens c.matcherOf input

/-- What a record asks for. -/
def actionOf (c : Compiled) (record : Record) : Action StateId TermId ProductionId :=
  let reduce := record.reduces.head?.bind fun p => (c.cfg.productions[p]?).map fun production =>
    (p, production)
  match record.kind, record.target, reduce with
  | .accept, _, _ => .accept
  | .shift, some target, _ => .shift target
  | .reduce, _, some (p, production) => .reduce p production.lhs production.rhs.length
  | .operator, some target, some (p, production) =>
    .operator target p production.lhs production.rhs.length
  | _, _, _ => .refuse .incorrectState

/-- What is done in a state with a symbol ahead. -/
def action (c : Compiled) (q : StateId) (ahead : Option TermId) :
    Action StateId TermId ProductionId :=
  match c.records[q]? with
  | none => .refuse .incorrectState
  | some records =>
    match records.lookup (ahead.getD TermId.eof) with
    | none => .refuse .incorrectSymbol
    | some record => c.actionOf record

/-- **The parse table.** -/
def table (c : Compiled) : Table StateId TermId ProductionId where
  initial := StateId.initial
  action := c.action
  precedence id := c.terms[id]?.bind Term.precedence

end Compiled

end Lalr

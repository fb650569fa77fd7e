import Lalr.Expr
import Lalr.Precedence
import Lalr.Token.Matcher

/-!
# Grammar definitions

A definition (`GrammarDef`) is a list of terms, a root and the case rule. Terms are added one by one
and numbered by their place in the list (`push`); the first three are always the end of input, the
empty alternative and the augmented root. Names of symbols and texts of literals are looked up in
two tables kept beside the terms, so a keyword may be spelled like a nonterminal.

Modelled are `literal`, `terminal`, `nonterminal`, `rule` with `verify_expr`, `root`,
`operators`, `priority` and `alias`, with the checks of their arguments (`user_nonterminal`,
`user_terminal`, `verify_ident`) and what they are refused for (`GrammarDefError`). Every operation
either refuses, naming the cause, or returns the definition that results; `Lalr.Definition.Edit` has
the same operations in place. What later stages keep in a term (its productions, whether it is
nullable, its FIRST set) is kept by the grammar and its facts instead.
-/

namespace Lalr

open Text

variable [Xid]

/-- What a term is. -/
inductive TermKind where
  /-- A terminal recognized by a matcher of its own. -/
  | terminal
  /-- A terminal with a fixed text. -/
  | literal
  | nonterminal
  deriving DecidableEq, Repr

/-- A symbol of the grammar. -/
structure Term where
  id         : TermId
  kind       : TermKind
  name       : String
  /-- The text by which the term is looked up. -/
  key        : String
  /-- The name shown in messages, if it is not `name`. -/
  nickname   : Option String := none
  /-- The higher it is, the earlier a scanner tries the terminal. -/
  priority   : Int := 0
  precedence : Option Precedence := none
  matcher    : Option Matcher := none
  rule       : Option Expr := none

namespace Term

/-- A terminal of either kind. -/
def isTerminal (t : Term) : Bool := t.kind != .nonterminal

/-- A terminal with a fixed text. -/
def isLiteral (t : Term) : Bool := t.kind == .literal

/-- A terminal registered with a precedence. -/
def isOperator (t : Term) : Bool := t.precedence.isSome

/-- The name shown in messages. -/
def display (t : Term) : String := t.nickname.getD t.name

/-- A term that is looked up by its name. -/
def named (id : TermId) (kind : TermKind) (name : String) : Term := { id, kind, name, key := name }

/-- The largest match priority a literal gets by itself. -/
def maxPriority : Nat := 2147483647

/-- A literal: longer texts are tried first. -/
def ofText (id : TermId) (text : String) : Term :=
  { id
    kind := .literal
    name := "'" ++ text ++ "'"
    key := text
    priority := (min text.length maxPriority : Nat)
    matcher := some (.literal text false) }

end Term

/-- The ways of repeating an element, plain or with a separator between two elements. -/
inductive Repetition where
  | optional (element : TermId)
  | oneOrMore (element : TermId)
  | zeroOrMore (element : TermId)
  | oneOrMoreSep (element separator : TermId)
  | zeroOrMoreSep (element separator : TermId)
  deriving DecidableEq, Repr

/-- A grammar in the making. -/
structure Definition where
  ignoreCase  : Bool
  terms       : List Term
  /-- The symbols by name. -/
  names       : List (String × TermId)
  /-- The literals by text, folded if case is ignored. -/
  literals    : List (String × TermId)
  root        : Option TermId
  /-- The nonterminals made for repetitions so far. -/
  repetitions : List (Repetition × TermId)

/-- Why a step of a definition is refused. -/
inductive DefinitionError where
  /-- The name of a symbol has to be a word. -/
  | invalidName (name : String)
  | emptyLiteral
  /-- Another symbol has the name. -/
  | duplicate (key : String)
  /-- No such term, or the augmented root where a rule may not mention it. -/
  | unknownTerm (id : TermId)
  | notNonterminal (name : String)
  | notTerminal (name : String)
  deriving DecidableEq, Repr

/-- The refusal in words. -/
def DefinitionError.message : DefinitionError → String
  | .invalidName name => "invalid name: `" ++ name ++ "'"
  | .emptyLiteral => "literal text must not be empty"
  | .duplicate key => "the key `" ++ key ++ "' has already been used"
  | .unknownTerm id => "unknown term: " ++ id.label
  | .notNonterminal name => "`" ++ name ++ "' is not a nonterminal"
  | .notTerminal name => "`" ++ name ++ "' is not a terminal"

namespace Definition

/-- The definition with the reserved terms only. -/
def start (ignoreCase : Bool) : Definition where
  ignoreCase := ignoreCase
  terms := [Term.named TermId.eof .terminal "$eof", Term.named TermId.empty .terminal "$empty",
    Term.named TermId.root .nonterminal "$root"]
  names := [("$eof", TermId.eof), ("$empty", TermId.empty), ("$root", TermId.root)]
  literals := []
  root := none
  repetitions := []

/-! ## Look-up -/

/-- The symbol of this name; literals have none. -/
def findName (d : Definition) (name : String) : Option TermId := d.names.lookup name

/-- The literal of this text, up to case if case is ignored. -/
def findLiteral (d : Definition) (text : String) : Option TermId :=
  d.literals.lookup (foldCase d.ignoreCase text)

/-- The name of a term, empty for an id that is none. -/
def nameOf (d : Definition) (id : TermId) : String := (d.terms[id]?.map Term.name).getD ""

/-- The term with this id. -/
def term (d : Definition) (id : TermId) : Except DefinitionError Term :=
  match d.terms[id]? with
  | some t => .ok t
  | none => .error (.unknownTerm id)

/-- The nonterminal with this id. The augmented root is not at the author's disposal. -/
def userNonterminal (d : Definition) (id : TermId) : Except DefinitionError Term :=
  match d.term id with
  | .error e => .error e
  | .ok t =>
    if t.isTerminal || id == TermId.root then .error (.notNonterminal t.name) else .ok t

/-- The terminal with this id. The two reserved ones are not at the author's disposal. -/
def userTerminal (d : Definition) (id : TermId) : Except DefinitionError Term :=
  match d.term id with
  | .error e => .error e
  | .ok t =>
    if !t.isTerminal || id == TermId.eof || id == TermId.empty then .error (.notTerminal t.name)
    else .ok t

/-- A rule may mention the term: it exists and is not the augmented root. -/
def isUsable (d : Definition) (id : TermId) : Bool := id < d.terms.length && id != TermId.root

/-- Refuses the first of the terms that a rule may not mention. -/
def checkTerms (d : Definition) (ids : List TermId) : Except DefinitionError Unit :=
  match ids.find? fun id => !d.isUsable id with
  | some id => .error (.unknownTerm id)
  | none => .ok ()

/-! ## Changes -/

/-- The definition with one more term. -/
def add (d : Definition) (t : Term) : Definition := { d with terms := d.terms ++ [t] }

/-- The definition with the name of its next term listed. -/
def listName (d : Definition) (name : String) : Definition :=
  { d with names := d.names ++ [(name, d.terms.length)] }

/-- The definition with the text of its next term listed. -/
def listLiteral (d : Definition) (text : String) : Definition :=
  { d with literals := d.literals ++ [(foldCase d.ignoreCase text, d.terms.length)] }

/-- The definition with the term at `id` changed. -/
def modify (d : Definition) (id : TermId) (f : Term → Term) : Definition :=
  { d with terms := d.terms.modify id f }

/-- Adds a symbol, whose name must be new. -/
def addNamed (d : Definition) (t : Term) : Except DefinitionError (Definition × TermId) :=
  if (d.findName t.name).isSome then .error (.duplicate t.name)
  else .ok ((d.listName t.name).add t, d.terms.length)

/-! ## Steps -/

/-- Declares a terminal with a fixed text. The same text is the same terminal. -/
def literal (d : Definition) (text : String) : Except DefinitionError (Definition × TermId) :=
  if text.isEmpty then .error .emptyLiteral
  else
    match d.findLiteral text with
    | some id => .ok (d, id)
    | none => .ok ((d.listLiteral text).add (Term.ofText d.terms.length text), d.terms.length)

/-- Declares a terminal recognized by a matcher. -/
def terminal (d : Definition) (name : String) (matcher : Matcher) :
    Except DefinitionError (Definition × TermId) :=
  if isWord name.toList then
    d.addNamed { Term.named d.terms.length .terminal name with matcher := some matcher }
  else .error (.invalidName name)

/-- Declares a nonterminal. -/
def nonterminal (d : Definition) (name : String) :
    Except DefinitionError (Definition × TermId) :=
  if isWord name.toList then d.addNamed (Term.named d.terms.length .nonterminal name)
  else .error (.invalidName name)

/-- An expression added to a rule, if there is one. -/
def extendRule (e : Expr) : Option Expr → Expr
  | some rule => ⟨rule.alternatives ++ e.alternatives⟩
  | none => e

/-- Adds the alternatives of an expression to the rule of a nonterminal. -/
def rule (d : Definition) (lhs : TermId) (e : Expr) : Except DefinitionError Definition :=
  match d.checkTerms e.terms with
  | .error cause => .error cause
  | .ok () =>
    match d.userNonterminal lhs with
    | .error cause => .error cause
    | .ok _ => .ok (d.modify lhs fun t => { t with rule := some (extendRule e t.rule) })

/-- Makes a nonterminal the root. -/
def setRoot (d : Definition) (id : TermId) : Except DefinitionError Definition :=
  match d.userNonterminal id with
  | .error cause => .error cause
  | .ok _ => .ok { d with root := some id }

/-- Sets the match priority of a terminal. -/
def setPriority (d : Definition) (id : TermId) (priority : Int) :
    Except DefinitionError Definition :=
  match d.userTerminal id with
  | .error cause => .error cause
  | .ok _ => .ok (d.modify id fun t => { t with priority })

/-- Sets the name of a term that messages show. -/
def setNickname (d : Definition) (id : TermId) (nickname : String) :
    Except DefinitionError Definition :=
  match d.term id with
  | .error cause => .error cause
  | .ok _ => .ok (d.modify id fun t => { t with nickname := some nickname })

/-- Registers terminals as operators, one after the other up to the first that is refused. -/
def operators (precedence : Precedence) :
    Definition → List TermId → Definition × Except DefinitionError Unit
  | d, [] => (d, .ok ())
  | d, id :: rest =>
    match d.userTerminal id with
    | .error cause => (d, .error cause)
    | .ok _ =>
      operators precedence (d.modify id fun t => { t with precedence := some precedence }) rest

end Definition

end Lalr

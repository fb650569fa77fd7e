import Lalr.Definition.Basic
import Lalr.Discovery
import Lalr.Total

/-!
# Collecting what the root reaches

Collection walks the rules breadth first from the augmented root and lists the terms it finds
(`collect_terms`). Nested expressions are lifted on the way: when a nonterminal is visited, each
nested expression of its rule becomes a nonterminal of its own, named `unnamed` and a number that no
symbol uses yet (`unnamed`), and the rule mentions that nonterminal instead. The lifted rule is
visited in its turn, so nesting of any depth is unfolded level by level.

Every visited term is a term of the definition or one of the nested expressions of its rules, and
none is visited twice; so as many visits suffice as there are terms and nested expressions.

What is looked up is taken to be there: `Lalr.Build.Collection` has the same walk look-up by
look-up.
-/

namespace Lalr

/-! ## Lifting -/

/-- The terms so far, with those made by lifting, and the next number for an unnamed one. -/
structure Lifting where
  terms  : List Term
  number : Nat

namespace Lifting

/-- The name of a lifted expression. -/
def nameFor (number : Nat) : String := "unnamed" ++ toString number

/-- A symbol has the name of a lifted expression already. -/
def isTaken (l : Lifting) (number : Nat) : Bool :=
  l.terms.any fun t => !t.isLiteral && t.key == nameFor number

/-- The next number whose name is free. Of `terms.length + 1` names one must be. -/
def freeNumber (l : Lifting) : Nat :=
  (((List.range (l.terms.length + 1)).map (l.number + ·)).find? (!l.isTaken ·)).getD l.number

/-- Makes a nonterminal of alternatives. -/
def lift (l : Lifting) (alternatives : List (List Operand)) : Lifting × TermId :=
  let number := l.freeNumber
  let name := nameFor number
  let term := { Term.named l.terms.length .nonterminal name with rule := some ⟨alternatives⟩ }
  ({ terms := l.terms ++ [term], number := number + 1 }, l.terms.length)

/-- Lifts an operand if it is nested. -/
def operand (l : Lifting) : Operand → Lifting × Operand
  | .nested alternatives =>
    let (l, id) := l.lift alternatives
    (l, .term id)
  | o => (l, o)

/-- Lifts the nested operands of a sequence, from left to right. -/
def sequence (l : Lifting) : List Operand → Lifting × List Operand
  | [] => (l, [])
  | o :: rest =>
    let (l, o) := l.operand o
    let (l, rest) := l.sequence rest
    (l, o :: rest)

/-- Lifts the nested operands of alternatives, from left to right. -/
def alternatives (l : Lifting) : List (List Operand) → Lifting × List (List Operand)
  | [] => (l, [])
  | s :: rest =>
    let (l, s) := l.sequence s
    let (l, rest) := l.alternatives rest
    (l, s :: rest)

end Lifting

/-! ## Walking -/

/-- What has been found so far, in order, and the terms with their lifted rules. -/
structure Collection where
  lifting : Lifting
  found   : List TermId

namespace Collection

/-- The terms, with those made by lifting. -/
def terms (c : Collection) : List Term := c.lifting.terms

/-- Visits a term: lifts its rule and lists what the rule mentions anew. -/
def visit (c : Collection) (id : TermId) : Collection :=
  match c.terms[id]? with
  | none => c
  | some t =>
    match t.isTerminal, t.rule with
    | false, some rule =>
      let (lifting, alternatives) := c.lifting.alternatives rule.alternatives
      let terms := lifting.terms.modify id fun t => { t with rule := some ⟨alternatives⟩ }
      { lifting := { lifting with terms }
        found := appendNew c.found
          ((Operand.levelTerms alternatives).filter (· != TermId.empty)) }
    | _, _ => c

/-- Visits what has been found from the position `cursor` on. -/
def visitFrom : Nat → Nat → Collection → Collection
  | 0, _, c => c
  | fuel + 1, cursor, c =>
    match c.found[cursor]? with
    | none => c
    | some id => visitFrom fuel (cursor + 1) (c.visit id)

/-- The term with this id is a terminal. -/
def isTerminal (c : Collection) (id : TermId) : Bool :=
  (c.terms[id]?.map Term.isTerminal).getD false

/-- The terminals found, the end of input first. -/
def terminals (c : Collection) : List TermId := c.found.filter c.isTerminal

/-- The nonterminals found, the augmented root first. -/
def nonterminals (c : Collection) : List TermId := c.found.filter fun id => !c.isTerminal id

/-- The nonterminals found that have no rule. -/
def withoutRule (c : Collection) : List TermId :=
  c.nonterminals.filter fun id => ((c.terms[id]?).bind Term.rule).isNone

/-- The terminals of the author that are not found, by id. -/
def unreachable (c : Collection) : List TermId :=
  (List.range c.terms.length).filter fun id =>
    c.isTerminal id && id != TermId.empty && !c.found.contains id

end Collection

namespace Definition

/-- The terms with the augmented root set up to derive the root. -/
def augment (d : Definition) (root : TermId) : List Term :=
  let name := d.nameOf root ++ "'"
  d.terms.modify TermId.root fun t => { t with name, rule := some (Expr.term root) }

/-- The number of nested expressions in all rules. -/
def nestedCount (d : Definition) : Nat :=
  total (d.terms.map fun t => (t.rule.map Expr.nestedCount).getD 0)

/-- **Everything the root reaches.** -/
def collect (d : Definition) (root : TermId) : Collection :=
  let start : Collection := ⟨⟨d.augment root, 0⟩, [TermId.eof, TermId.root]⟩
  start.visitFrom (d.terms.length + d.nestedCount) 0

end Definition

end Lalr

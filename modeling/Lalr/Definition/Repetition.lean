import Lalr.Definition.Basic

/-!
# Repetitions

Model of `repetition`, which `optional`, `one_or_more`, `zero_or_more`, `one_or_more_sep` and
`zero_or_more_sep` call. A repetition of a term is a nonterminal of its own, made on first use and
shared by later ones. It is named after what it repeats, and its rule is left recursive:

* `x?` is `x | $empty`;
* `x+` is `x+ x | x`, and `x+[s]` is `x+[s] s x | x`;
* `x*` is `$empty | x* x`, and `x*[s]` is `$empty | x+[s]`.

So `x*[s]` makes `x+[s]` first, and that one stays even if `x*[s]` itself is then refused.
-/

namespace Lalr

namespace Repetition

/-- The terms the repetition mentions. -/
def terms : Repetition → List TermId
  | .optional x | .oneOrMore x | .zeroOrMore x => [x]
  | .oneOrMoreSep x s | .zeroOrMoreSep x s => [x, s]

/-- The name of the nonterminal, given the names of terms. -/
def name (nameOf : TermId → String) : Repetition → String
  | .optional x => nameOf x ++ "?"
  | .oneOrMore x => nameOf x ++ "+"
  | .zeroOrMore x => nameOf x ++ "*"
  | .oneOrMoreSep x s => nameOf x ++ "+[" ++ nameOf s ++ "]"
  | .zeroOrMoreSep x s => nameOf x ++ "*[" ++ nameOf s ++ "]"

/-- The rule of the nonterminal `self`; `plus` is the nonterminal of `x+[s]` in the rule of
`x*[s]`, and otherwise unused. -/
def rule (self plus : TermId) : Repetition → Expr
  | .optional x => (Expr.term x).orElse (Expr.term TermId.empty)
  | .oneOrMore x => ((Expr.term self).andThen (.term x)).orElse (Expr.term x)
  | .zeroOrMore x => (Expr.term TermId.empty).orElse ((Expr.term self).andThen (.term x))
  | .oneOrMoreSep x s =>
    (((Expr.term self).andThen (.term s)).andThen (.term x)).orElse (Expr.term x)
  | .zeroOrMoreSep _ _ => (Expr.term TermId.empty).orElse (Expr.term plus)

end Repetition

namespace Definition

/-- Makes the nonterminal of a repetition, or finds the one made before. -/
def shareRepetition (d : Definition) (r : Repetition) (plus : TermId) :
    Except DefinitionError (Definition × TermId) :=
  match d.repetitions.lookup r with
  | some id => .ok (d, id)
  | none =>
    match d.checkTerms r.terms with
    | .error cause => .error cause
    | .ok () =>
      let self := d.terms.length
      let term :=
        { Term.named self .nonterminal (r.name d.nameOf) with rule := some (r.rule self plus) }
      match d.addNamed term with
      | .error cause => .error cause
      | .ok (d, id) => .ok ({ d with repetitions := d.repetitions ++ [(r, id)] }, id)

/-- The outcome of a step that changes nothing when it is refused. -/
def keepOnError {α : Type} (d : Definition) :
    Except DefinitionError (Definition × α) → Definition × Except DefinitionError α
  | .error cause => (d, .error cause)
  | .ok (d, a) => (d, .ok a)

/-- **The nonterminal of a repetition.** -/
def repetition (d : Definition) (r : Repetition) : Definition × Except DefinitionError TermId :=
  match r, d.repetitions.lookup r with
  | _, some id => (d, .ok id)
  | .zeroOrMoreSep x s, none =>
    match d.shareRepetition (.oneOrMoreSep x s) TermId.empty with
    | .error cause => (d, .error cause)
    | .ok (d, plus) => d.keepOnError (d.shareRepetition (.zeroOrMoreSep x s) plus)
  | r, none => d.keepOnError (d.shareRepetition r TermId.empty)

end Definition

end Lalr

import Lalr.Definition.Repetition

/-!
# Definition scripts

A definition comes about by the calls that a function given to `define` makes: a list of commands,
some of which may be refused. A refused command leaves the definition as it was, with two
exceptions: `operators` keeps what it has registered, and a repetition `x*[s]` keeps the `x+[s]` it
has made. The function may go on after a refusal, or stop; either way there is a list of what it has
called.
-/

namespace Lalr

variable [Text.Xid]

/-- A step of a definition. -/
inductive Command where
  | literal (text : String)
  | terminal (name : String) (matcher : Matcher)
  | nonterminal (name : String)
  | rule (lhs : TermId) (expr : Expr)
  | root (id : TermId)
  | operators (precedence : Precedence) (ids : List TermId)
  | priority (id : TermId) (value : Int)
  | nickname (id : TermId) (text : String)
  | repetition (repetition : Repetition)

namespace Definition

/-- The outcome of a step that returns no term. -/
def withoutTerm : Except DefinitionError Definition →
    Except DefinitionError (Definition × Option TermId)
  | .error cause => .error cause
  | .ok d => .ok (d, none)

/-- The outcome of a step that returns a term. -/
def withTerm : Except DefinitionError (Definition × TermId) →
    Except DefinitionError (Definition × Option TermId)
  | .error cause => .error cause
  | .ok (d, id) => .ok (d, some id)

/-- **Carries out a command**: the definition after it, and the term it returns, if any. -/
def apply (d : Definition) : Command → Definition × Except DefinitionError (Option TermId)
  | .literal text => d.keepOnError (withTerm (d.literal text))
  | .terminal name matcher => d.keepOnError (withTerm (d.terminal name matcher))
  | .nonterminal name => d.keepOnError (withTerm (d.nonterminal name))
  | .rule lhs expr => d.keepOnError (withoutTerm (d.rule lhs expr))
  | .root id => d.keepOnError (withoutTerm (d.setRoot id))
  | .operators precedence ids =>
    let (d, outcome) := operators precedence d ids
    (d, outcome.map fun _ => none)
  | .priority id value => d.keepOnError (withoutTerm (d.setPriority id value))
  | .nickname id text => d.keepOnError (withoutTerm (d.setNickname id text))
  | .repetition r =>
    let (d, outcome) := d.repetition r
    (d, outcome.map some)

/-- The definition after a list of commands, refused ones included. -/
def ofCommands (ignoreCase : Bool) (commands : List Command) : Definition :=
  commands.foldl (fun d command => (d.apply command).1) (start ignoreCase)

end Definition

end Lalr

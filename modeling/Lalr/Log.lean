import Lalr.Ids

/-!
# The log

Compiling a definition may find fault with it. What it finds is logged in order (`ErrorLog`):
errors, which leave nothing to parse with, warnings, and conflicts, which have been decided one way.
An issue has its level, state and message (`GrammarError`); what stops the build is logged with the
message of its `StageError`, and a log with errors is what the build is canceled with
(`BuildError`).
-/

namespace Lalr

/-- How grave an issue is. -/
inductive Level where
  | warning
  | conflict
  | error
  deriving DecidableEq, Repr

/-- The level in words. -/
def Level.text : Level → String
  | .warning => "warning"
  | .conflict => "conflict"
  | .error => "error"

/-- What can be found fault with. -/
inductive Issue where
  | noRoot
  /-- A nonterminal that the root reaches has no rule. -/
  | missingRule (name : String)
  /-- The root does not reach the terminal. -/
  | unreachable (terminal : String)
  /-- Conflicts of one state with the same description, on these keys. -/
  | conflict (state : StateId) (description : String) (inputs : List String)
  /-- A state that is moved to does not have the item moved there. -/
  | missingItem (item : String) (state : StateId)
  deriving DecidableEq, Repr

namespace Issue

/-- What cannot be compiled is an error. -/
def level : Issue → Level
  | .noRoot => .error
  | .missingRule _ => .error
  | .unreachable _ => .warning
  | .conflict _ _ _ => .conflict
  | .missingItem _ _ => .error

/-- The state that has the issue, if one has. -/
def state? : Issue → Option StateId
  | .conflict state _ _ => some state
  | _ => none

/-- The issue in words. -/
def message : Issue → String
  | .noRoot => "Root property of the grammar is not set"
  | .missingRule name => "Rule for NonTerminal `" ++ name ++ "' is not defined"
  | .unreachable terminal =>
    "Terminal " ++ terminal ++ " is declared but not reachable from the root"
  | .conflict _ description inputs =>
    description ++ " on inputs: " ++ " ".intercalate inputs
  | .missingItem item state =>
    "internal error: item `" ++ item ++ "' is missing from state " ++ state.label

/-- An issue as one line, without the line end. -/
def text (issue : Issue) : String := issue.level.text ++ ": " ++ issue.message

end Issue

/-- The issues in the order they were found. -/
abbrev Log := List Issue

namespace Log

/-- Some issue is an error. -/
def hasErrors (log : Log) : Bool := log.any fun issue => issue.level == .error

/-- The issues of one level. -/
def ofLevel (log : Log) (level : Level) : Log := log.filter fun issue => issue.level == level

/-- The log, a line for each issue. -/
def text (log : Log) : String := String.join (log.map fun issue => issue.text ++ "\n")

/-- The message of a compilation that ended in errors. -/
def fatalMessage (log : Log) : String := "grammar build canceled:\n" ++ log.text

end Log

end Lalr

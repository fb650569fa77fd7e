import Lalr.Machine.Session

/-!
# Traces

A user asks a session for events again and again (`next_event`). An event fills the buffer for
arguments anew, an error leaves it; the user may take arguments away, which leaves empty slots.

`trace` lists what such a user sees: up to a number of asked events, and going on after a fixed
number of accepts and errors.
-/

namespace Lalr

/-- What is seen of one call, with the arguments after it. -/
inductive Observation (Symbol Rule : Type) where
  | event (event : Event Rule) (args : List (Slot Symbol))
  | error (cause : ParseError) (args : List (Slot Symbol))
  /-- The number of calls is used up. -/
  | limit

/-- How a session is observed. -/
structure TraceOptions where
  /-- Every shown argument is taken away. -/
  take  : Bool
  /-- The number of calls. -/
  limit : Nat
  /-- How many accepts and errors do not yet end the trace. -/
  extra : Nat

variable {State Symbol Rule : Type}

namespace Session

/-- The user takes all arguments away. -/
def takeArgs (s : Session State Symbol) : Session State Symbol :=
  { s with args := s.args.map fun _ => none }

/-- The observations of up to `calls` calls, `extra` of which may stop and go on. -/
def observe (table : Table State Symbol Rule) (take : Bool) :
    Nat → Nat → Session State Symbol → List (Observation Symbol Rule)
  | 0, _, _ => [.limit]
  | calls + 1, extra, s =>
    let (outcome, shown) := s.next table
    let s := if take then shown.takeArgs else shown
    match outcome, extra with
    | .ok (.reduce rule), extra =>
      .event (.reduce rule) shown.args :: observe table take calls extra s
    | .ok .accept, 0 => [.event .accept shown.args]
    | .ok .accept, extra + 1 => .event .accept shown.args :: observe table take calls extra s
    | .error cause, 0 => [.error cause shown.args]
    | .error cause, extra + 1 => .error cause shown.args :: observe table take calls extra s

end Session

/-- **What is seen of a parse** of a source over a table. -/
def trace (table : Table State Symbol Rule) (options : TraceOptions) (source : Source Symbol) :
    List (Observation Symbol Rule) :=
  (Session.start table source).observe table options.take options.limit options.extra

end Lalr

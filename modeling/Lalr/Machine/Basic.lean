import Lalr.Token.Source
import Lalr.Machine.Table

/-!
# The shift/reduce machine

The machine (`Parser`) holds a stack of states, a stack of entries (`ParseItem`: tokens and
left-hand sides) and at most one token it has read but not shifted. `pass` is one round of the loop
of `next_event`: look at the symbol ahead, ask the table, and shift, reduce, accept or fail, where
an operator is resolved by the last one on the stack (`resolve_operator`, `previous_operator`).
`nextEvent` repeats it until something can be reported. Right after a reduction the symbol ahead is
the new left-hand side (`Mode.goto`), otherwise it is the next token.

**An error leaves the machine as it is**, apart from a token that was read on the way: `pass`
reports it together with the machine before the step. That is easy to say here, where each step
makes one machine of another; a session (`Lalr.Machine.Session`) takes the same steps in place.

`nextEvent` ends because every silent pass either shifts one of the finitely many tokens that are
left or ends a `goto` (`pass_goOn_load_lt`).
-/

namespace Lalr

/-- What lies on the stack between two states. -/
inductive Entry (Symbol : Type) where
  | token (read : Token Symbol)
  | nonterminal (lhs : Symbol)
  deriving DecidableEq, Repr

/-- The symbol of a stack entry. -/
def Entry.symbol {Symbol : Type} : Entry Symbol → Symbol
  | .token read => read.symbol
  | .nonterminal lhs => lhs

/-- What the machine does next: read a token, leave for the state after a reduction, or nothing. -/
inductive Mode where
  | reading
  | goto
  | accepted
  deriving DecidableEq, Repr

/-- Why parsing cannot go on. -/
inductive ParseError where
  /-- The source has failed. -/
  | lexer (message : String)
  /-- The table refuses the symbol ahead. -/
  | rejected (cause : Refusal)
  /-- The table asks to shift a token at the end of input. -/
  | unexpectedEnd
  /-- A reduction would take away the bottom state. -/
  | noState
  /-- There is no entry to reduce, to go over or to accept. -/
  | noEntry
  | alreadyAccepted
  deriving DecidableEq, Repr

/-- The error in words. -/
def ParseError.message : ParseError → String
  | .lexer message => "from lexer: " ++ message
  | .rejected cause => "input rejected: " ++ cause.message
  | .unexpectedEnd => "unexpected EOI"
  | .noState => "empty node stack"
  | .noEntry => "empty item stack"
  | .alreadyAccepted => "already accepted"

/-- What the machine reports. -/
inductive Event (Rule : Type) where
  | reduce (rule : Rule)
  | accept
  deriving DecidableEq, Repr

/-- The machine between two passes. Both stacks have their top first. -/
structure Machine (State Symbol : Type) where
  states  : List State
  entries : List (Entry Symbol)
  mode    : Mode
  held    : Option (Token Symbol)
  deriving DecidableEq, Repr

/-- What one pass comes to: it goes on silently, reports an event with its arguments (the replaced
entries, bottom to top), or fails. -/
inductive Pass (State Symbol Rule : Type) where
  | goOn (machine : Machine State Symbol) (source : Source Symbol)
  | event (event : Event Rule) (args : List (Entry Symbol)) (machine : Machine State Symbol)
      (source : Source Symbol)
  | error (cause : ParseError) (machine : Machine State Symbol) (source : Source Symbol)

/-- A step the table leaves no choice about. -/
inductive Choice (State Symbol Rule : Type) where
  | shift (target : State)
  | reduce (rule : Rule) (lhs : Symbol) (arity : Nat)
  | accept
  deriving DecidableEq, Repr

variable {State Symbol Rule : Type}

namespace Table

/-- The precedence of the operator nearest to the top of the stack. -/
def previousOperator (table : Table State Symbol Rule) (entries : List (Entry Symbol)) :
    Option Precedence :=
  entries.findSome? fun
    | .token token => table.precedence token.symbol
    | .nonterminal _ => none

/-- Settles an action: operators are compared, refusals become errors. -/
def choose (table : Table State Symbol Rule) (entries : List (Entry Symbol))
    (ahead : Option Symbol) : Action State Symbol Rule → Except Refusal (Choice State Symbol Rule)
  | .shift target => .ok (.shift target)
  | .reduce rule lhs arity => .ok (.reduce rule lhs arity)
  | .operator target rule lhs arity =>
    match shiftsOver (table.previousOperator entries) (ahead.bind table.precedence) with
    | some true => .ok (.shift target)
    | some false => .ok (.reduce rule lhs arity)
    | none => .error .nonAssociative
  | .accept => .ok .accept
  | .refuse cause => .error cause

end Table

namespace Machine

/-- The machine before the first token. -/
def start (table : Table State Symbol Rule) : Machine State Symbol :=
  { states := [table.initial], entries := [], mode := .reading, held := none }

/-- The symbol ahead. A token is read only if none is held, and is held from then on. -/
def lookAhead (m : Machine State Symbol) (source : Source Symbol) :
    Except ParseError (Option Symbol) × Machine State Symbol × Source Symbol :=
  if m.mode = .goto then
    match m.entries with
    | [] => (.error .noEntry, m, source)
    | entry :: _ => (.ok (some entry.symbol), m, source)
  else
    match m.held with
    | some token => (.ok (some token.symbol), m, source)
    | none =>
      match source.pull with
      | (.error message, source) => (.error (.lexer message), m, source)
      | (.ok token, source) => (.ok (token.map Token.symbol), { m with held := token }, source)

/-- Takes the step that has been settled. -/
def perform (m : Machine State Symbol) (source : Source Symbol) :
    Choice State Symbol Rule → Pass State Symbol Rule
  | .shift target =>
    if m.mode = .goto then
      .goOn { m with states := target :: m.states, mode := .reading } source
    else
      match m.held with
      | none => .error .unexpectedEnd m source
      | some token =>
        .goOn { states := target :: m.states, entries := .token token :: m.entries,
                mode := .reading, held := none } source
  | .reduce rule lhs arity =>
    if m.states.length ≤ arity then .error .noState m source
    else if m.entries.length < arity then .error .noEntry m source
    else
      .event (.reduce rule) (m.entries.take arity).reverse
        { m with states := m.states.drop arity,
                 entries := .nonterminal lhs :: m.entries.drop arity,
                 mode := .goto } source
  | .accept =>
    match m.entries with
    | [] => .error .noEntry m source
    | entry :: rest => .event .accept [entry] { m with entries := rest, mode := .accepted } source

/-- **One round of the machine's loop.** -/
def pass (table : Table State Symbol Rule) (m : Machine State Symbol) (source : Source Symbol) :
    Pass State Symbol Rule :=
  match m.states with
  | [] => .error .noState m source
  | current :: _ =>
    match m.lookAhead source with
    | (.error cause, m, source) => .error cause m source
    | (.ok ahead, m, source) =>
      match table.choose m.entries ahead (table.action current ahead) with
      | .error cause => .error (.rejected cause) m source
      | .ok choice => m.perform source choice

/-! ## Silent passes come to an end -/

/-- How many silent passes are left at most: two for each token to come, one for a `goto`. -/
def load (m : Machine State Symbol) (source : Source Symbol) : Nat :=
  2 * (source.length + m.held.toList.length) + if m.mode = .goto then 1 else 0

theorem pull_length_le (source : Source Symbol) : source.pull.2.length ≤ source.length := by
  rcases source with _ | ⟨_ | _ | _, rest⟩ <;> simp [Source.pull]

theorem pull_some_length_lt {source rest : Source Symbol} {token : Token Symbol}
    (h : source.pull = (.ok (some token), rest)) : rest.length < source.length := by
  rcases source with _ | ⟨_ | _ | _, rest'⟩ <;> simp_all [Source.pull]

/-- Looking ahead adds nothing to the load and changes nothing but the held token. -/
theorem lookAhead_ok {m m' : Machine State Symbol} {source source' : Source Symbol}
    {ahead : Option Symbol} (h : m.lookAhead source = (.ok ahead, m', source')) :
    m' = { m with held := m'.held } ∧ load m' source' ≤ load m source := by
  unfold lookAhead at h
  split at h
  · split at h
    · simp at h
    · obtain ⟨-, rfl, rfl⟩ := by simpa using h
      exact ⟨rfl, Nat.le_refl _⟩
  · split at h
    · obtain ⟨-, rfl, rfl⟩ := by simpa using h
      exact ⟨rfl, Nat.le_refl _⟩
    · rename_i hheld
      split at h
      · simp at h
      · rename_i token rest hpull
        obtain ⟨-, rfl, rfl⟩ := by simpa using h
        refine ⟨rfl, ?_⟩
        have hle := pull_length_le source
        simp only [hpull] at hle
        cases token with
        | none => simp only [load, hheld, Option.toList_none, List.length_nil]; omega
        | some token =>
          have := pull_some_length_lt hpull
          simp only [load, hheld, Option.toList_none, Option.toList_some, List.length_nil,
            List.length_singleton]
          omega

theorem perform_goOn_load_lt {m m' : Machine State Symbol} {source source' : Source Symbol}
    {choice : Choice State Symbol Rule} (h : m.perform source choice = .goOn m' source') :
    load m' source' < load m source := by
  unfold perform at h
  split at h
  · split at h
    · rename_i hmode
      obtain ⟨rfl, rfl⟩ := by simpa using h
      simp [load, hmode]
    · split at h
      · simp at h
      · rename_i hmode token hheld
        obtain ⟨rfl, rfl⟩ := by simpa using h
        simp [load, hheld]
        omega
  · repeat' split at h
    all_goals simp at h
  · split at h <;> simp at h

/-- **A silent pass lowers the load.** -/
theorem pass_goOn_load_lt {table : Table State Symbol Rule} {m m' : Machine State Symbol}
    {source source' : Source Symbol} (h : pass table m source = .goOn m' source') :
    load m' source' < load m source := by
  unfold pass at h
  split at h
  · simp at h
  · split at h
    · simp at h
    · rename_i hlook
      split at h
      · simp at h
      · exact Nat.lt_of_lt_of_le (perform_goOn_load_lt h) (lookAhead_ok hlook).2

/-- Runs the machine up to the next event or error. -/
def nextEvent (table : Table State Symbol Rule) (m : Machine State Symbol)
    (source : Source Symbol) :
    Except ParseError (Event Rule × List (Entry Symbol)) × Machine State Symbol × Source Symbol :=
  if m.mode = .accepted then (.error .alreadyAccepted, m, source)
  else
    match _h : pass table m source with
    | .goOn m' source' => nextEvent table m' source'
    | .event event args m' source' => (.ok (event, args), m', source')
    | .error cause m' source' => (.error cause, m', source')
termination_by m.load source
decreasing_by exact pass_goOn_load_lt _h

end Machine

end Lalr

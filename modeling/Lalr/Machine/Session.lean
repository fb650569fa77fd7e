import Lalr.Machine.Basic

/-!
# Sessions

A session carries the machine out in place, as `next_event` does: its two stacks, the held token,
the source it reads and the buffer for the arguments of events are changed one after the other. A
reduction makes room in the buffer and then pops a state and an item at a time, each item into its
place; had the items run out on the way, those popped by then would be gone from the stack.

A **slot** holds an entry or nothing, and nothing is what an entry leaves that is taken (`take`).
The buffer has empty slots before a reduction has filled them, and where its user has taken an entry
away. What the user has left there does not matter.

`Session.round` is one round of the loop, and `Session.next` repeats it until something can be
reported.
-/

namespace Lalr

/-- A place for an entry, `none` where there is none (any more). -/
abbrev Slot (Symbol : Type) := Option (Entry Symbol)

/-- All that a machine at work reads and writes. Both stacks have their top first. -/
structure Session (State Symbol : Type) where
  states : List State
  items  : List (Slot Symbol)
  mode   : Mode
  held   : Option (Token Symbol)
  source : Source Symbol
  /-- The arguments of the last event, bottom to top, as its user has left them. -/
  args   : List (Slot Symbol)

/-- What one round comes to. -/
inductive Round (State Symbol Rule : Type) where
  | goOn (session : Session State Symbol)
  | event (event : Event Rule) (session : Session State Symbol)
  | error (cause : ParseError) (session : Session State Symbol)

variable {State Symbol Rule : Type}

/-- Cuts or extends a buffer to `n` slots. -/
def resize (n : Nat) (slots : List (Slot Symbol)) : List (Slot Symbol) :=
  slots.take n ++ List.replicate (n - slots.length) none

namespace Session

/-- A new session before a source. -/
def start (table : Table State Symbol Rule) (source : Source Symbol) : Session State Symbol :=
  { states := [table.initial], items := [], mode := .reading, held := none, source, args := [] }

/-- The entries on the stack. -/
def entries (s : Session State Symbol) : List (Entry Symbol) := s.items.filterMap id

/-- The symbol ahead. A token is read only if none is held, and is held from then on. -/
def lookAhead (s : Session State Symbol) :
    Except ParseError (Option Symbol) × Session State Symbol :=
  if s.mode = .goto then
    match s.items with
    | some entry :: _ => (.ok (some entry.symbol), s)
    | _ => (.error .noEntry, s)
  else
    match s.held with
    | some token => (.ok (some token.symbol), s)
    | none =>
      match s.source.pull with
      | (.error message, source) => (.error (.lexer message), { s with source })
      | (.ok token, source) => (.ok (token.map Token.symbol), { s with held := token, source })

/-- Moves on to a state: over the new left-hand side, or over the held token. -/
def shift (s : Session State Symbol) (target : State) : Round State Symbol Rule :=
  if s.mode = .goto then .goOn { s with states := target :: s.states, mode := .reading }
  else
    match s.held with
    | none => .error .unexpectedEnd s
    | some token =>
      .goOn { s with states := target :: s.states, items := some (.token token) :: s.items,
                     mode := .reading, held := none }

/-- Pops so many states and items. The topmost item goes into the last of as many slots. -/
def popInto : Nat → Session State Symbol → Except ParseError Unit × Session State Symbol
  | 0, s => (.ok (), s)
  | i + 1, s =>
    match s.items with
    | [] => (.error .noEntry, { s with states := s.states.tail })
    | item :: items =>
      popInto i { s with states := s.states.tail, items, args := s.args.set i item }

/-- Replaces the topmost items by a left-hand side. -/
def reduce (s : Session State Symbol) (rule : Rule) (lhs : Symbol) (arity : Nat) :
    Round State Symbol Rule :=
  if s.states.length ≤ arity then .error .noState s
  else
    match popInto arity { s with args := resize arity s.args } with
    | (.error cause, s) => .error cause s
    | (.ok (), s) =>
      .event (.reduce rule) { s with items := some (.nonterminal lhs) :: s.items, mode := .goto }

/-- Hands out the topmost item. -/
def accept (s : Session State Symbol) : Round State Symbol Rule :=
  match s.items with
  | [] => .error .noEntry s
  | item :: items => .event .accept { s with items, args := [item], mode := .accepted }

/-- Takes the step that has been settled. -/
def perform (s : Session State Symbol) : Choice State Symbol Rule → Round State Symbol Rule
  | .shift target => s.shift target
  | .reduce rule lhs arity => s.reduce rule lhs arity
  | .accept => s.accept

/-- Does what the table asks for in a state with a symbol ahead. -/
def act (table : Table State Symbol Rule) (current : State) (ahead : Option Symbol)
    (s : Session State Symbol) : Round State Symbol Rule :=
  match table.choose s.entries ahead (table.action current ahead) with
  | .error cause => .error (.rejected cause) s
  | .ok choice => s.perform choice

/-- **One round of the loop.** -/
def round (table : Table State Symbol Rule) (s : Session State Symbol) :
    Round State Symbol Rule :=
  match s.states with
  | [] => .error .noState s
  | current :: _ =>
    match s.lookAhead with
    | (.error cause, s) => .error cause s
    | (.ok ahead, s) => s.act table current ahead

/-! ## Silent rounds come to an end -/

/-- How many silent rounds are left at most: two for each token to come, one for a `goto`. -/
def load (s : Session State Symbol) : Nat :=
  2 * (s.source.length + s.held.toList.length) + if s.mode = .goto then 1 else 0

theorem lookAhead_load_le {s s' : Session State Symbol} {ahead : Option Symbol}
    (h : s.lookAhead = (.ok ahead, s')) : s'.load ≤ s.load := by
  unfold lookAhead at h
  split at h
  · split at h
    · obtain ⟨-, rfl⟩ := by simpa using h
      exact Nat.le_refl _
    · simp at h
  · split at h
    · obtain ⟨-, rfl⟩ := by simpa using h
      exact Nat.le_refl _
    · rename_i hheld
      split at h
      · simp at h
      · rename_i token source hpull
        obtain ⟨-, rfl⟩ := by simpa using h
        have hle := Machine.pull_length_le s.source
        simp only [hpull] at hle
        cases token with
        | none => simp only [load, hheld, Option.toList_none, List.length_nil]; omega
        | some token =>
          have hlt := Machine.pull_some_length_lt hpull
          simp only [load, hheld, Option.toList_none, Option.toList_some, List.length_nil,
            List.length_singleton]
          omega

theorem perform_goOn_load_lt {s s' : Session State Symbol} {choice : Choice State Symbol Rule}
    (h : s.perform choice = .goOn s') : s'.load < s.load := by
  cases choice with
  | shift target =>
    rw [perform, shift] at h
    split at h
    · rename_i hmode
      obtain rfl := by simpa using h
      simp [load, hmode]
    · split at h
      · simp at h
      · rename_i token hheld
        obtain rfl := by simpa using h
        simp [load, hheld]
        omega
  | reduce rule lhs arity =>
    rw [perform, reduce] at h
    repeat' split at h
    all_goals simp at h
  | accept =>
    rw [perform, accept] at h
    split at h <;> simp at h

/-- **A silent round lowers the load.** -/
theorem round_goOn_load_lt {table : Table State Symbol Rule} {s s' : Session State Symbol}
    (h : s.round table = .goOn s') : s'.load < s.load := by
  unfold round act at h
  split at h
  · simp at h
  · split at h
    · simp at h
    · rename_i hlook
      split at h
      · simp at h
      · exact Nat.lt_of_lt_of_le (perform_goOn_load_lt h) (lookAhead_load_le hlook)

/-- **Runs the session up to the next event or error.** -/
def next (table : Table State Symbol Rule) (s : Session State Symbol) :
    Except ParseError (Event Rule) × Session State Symbol :=
  if s.mode = .accepted then (.error .alreadyAccepted, s)
  else
    match _h : s.round table with
    | .goOn s' => next table s'
    | .event event s' => (.ok event, s')
    | .error cause s' => (.error cause, s')
termination_by s.load
decreasing_by exact round_goOn_load_lt _h

end Session

end Lalr

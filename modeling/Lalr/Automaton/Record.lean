import Lalr.Automaton.Lookahead
import Lalr.Entries

/-!
# Action records and conflicts

A record (`ActionRecord`) says what is done in a state for one key: the state to move to, if there
is one, and the productions that could be reduced because their completed item has the key as a
lookahead. Records are drafted first (`drafts`): the moves of a state make a draft each, as `goto`
does, and then every completed item offers its production for each of its lookaheads, to the draft
of the key or to a new one (`create_reduce_actions`).

Where moving and reducing are both possible, or several productions are, a record has to choose
(`resolve`, with `prefers_reduce` and `prefers_shift`; what `set_action` writes is the result):

* several productions: the first that its rule prefers comes to the front, and if none is
  preferred that is a reduce-reduce conflict, decided for the first;
* moving or reducing: an operator is left to parse time; else a hint decides, first to shift at
  the key, then to reduce; and if there is none that is a shift-reduce conflict, decided for the
  shift.

Reducing the augmented root alone at the end of input is accepting.
-/

namespace Lalr

/-- What a record comes to. -/
inductive ActionKind where
  | shift
  | reduce
  /-- Shift or reduce, by precedence at parse time. -/
  | operator
  | accept
  deriving DecidableEq, Repr

/-- What is done in a state for one key. -/
structure Record where
  kind    : ActionKind
  target  : Option StateId
  /-- The productions that could be reduced, the chosen one first. -/
  reduces : List ProductionId
  deriving DecidableEq, Repr

/-- What is known of a record before anything is chosen. -/
structure Draft where
  target     : Option StateId
  /-- The productions offered, in the order of the offers. -/
  candidates : List ProductionId
  deriving DecidableEq, Repr

/-- The draft with one more candidate, unless it is one already. -/
def Draft.offer (production : ProductionId) (d : Draft) : Draft :=
  if production ∈ d.candidates then d
  else { d with candidates := d.candidates ++ [production] }

/-- A choice that nothing in the grammar settles. -/
inductive Conflict where
  | reduceReduce (first second : ProductionId)
  | shiftReduce (production : ProductionId)
  deriving DecidableEq, Repr

/-- What the choice in one state for one key depends on. -/
structure Dispute where
  key           : TermId
  target        : Option StateId
  /-- The productions that could be reduced, in the order of their items. -/
  candidates    : List ProductionId
  isOperator    : Bool
  /-- An item that shifts the key asks to. -/
  prefersShift  : Bool
  /-- The rule of the production asks to reduce it. -/
  prefersReduce : ProductionId → Bool

namespace Dispute

/-- The candidates with the first preferred one in front. -/
def ordered (d : Dispute) : List ProductionId :=
  match d.candidates.find? d.prefersReduce with
  | some p => p :: d.candidates.erase p
  | none => d.candidates

/-- The reduce-reduce conflict of the dispute, if there is one. -/
def reduceConflict (d : Dispute) : List Conflict :=
  match d.candidates with
  | first :: second :: _ =>
    if d.candidates.any d.prefersReduce then [] else [.reduceReduce first second]
  | _ => []

/-- Moving or reducing by `production`, where both are possible. -/
def shiftOrReduce (d : Dispute) (production : ProductionId) : ActionKind × List Conflict :=
  if d.isOperator then (.operator, [])
  else if d.prefersShift then (.shift, [])
  else if d.prefersReduce production then (.reduce, [])
  else (.shift, [.shiftReduce production])

/-- **The record of a dispute**, and the conflicts it leaves. -/
def resolve (d : Dispute) : Record × List Conflict :=
  match d.ordered with
  | [] => ({ kind := .shift, target := d.target, reduces := [] }, [])
  | production :: rest =>
    let reduces := production :: rest
    match d.target with
    | none =>
      if d.key == TermId.eof && reduces == [ProductionId.root] then
        ({ kind := .accept, target := none, reduces }, [])
      else ({ kind := .reduce, target := none, reduces }, d.reduceConflict)
    | some target =>
      let (kind, conflicts) := d.shiftOrReduce production
      ({ kind, target := some target, reduces }, d.reduceConflict ++ conflicts)

end Dispute

namespace Automaton

/-- The completed items of a state: their productions and lookaheads. -/
def completed (a : Automaton) (g : Cfg) (q : StateId) (s : State) :
    List (ProductionId × TermSet) :=
  (s.items.filter g.isComplete).map fun item => (item.production, a.lookaheadsOf q item)

/-- The offers of completed items, one for each lookahead. -/
def reductions (completed : List (ProductionId × TermSet)) : List (TermId × ProductionId) :=
  completed.flatMap fun c => c.2.toList.map fun key => (key, c.1)

/-- The drafts of a state: what can be moved over, then the lookaheads of completed items. -/
def drafts (s : State) (completed : List (ProductionId × TermSet)) : List (TermId × Draft) :=
  gather ⟨none, []⟩ Draft.offer (reductions completed) (s.moves.map fun m => (m.1, ⟨some m.2, []⟩))

/-- What the choice in a state for a key depends on. -/
def dispute (g : Cfg) (isOperator : TermId → Bool) (s : State) (key : TermId) (draft : Draft) :
    Dispute where
  key := key
  target := draft.target
  candidates := draft.candidates
  isOperator := isOperator key
  prefersShift := s.items.any fun item =>
    g.next item == some key && g.hasHint item .preferShift
  prefersReduce p := (g.productions[p]?.map Production.prefersReduce).getD false

/-- The disputes of a state, key by key. -/
def disputes (a : Automaton) (g : Cfg) (isOperator : TermId → Bool) (q : StateId) (s : State) :
    List Dispute :=
  (drafts s (a.completed g q s)).map fun entry => dispute g isOperator s entry.1 entry.2

end Automaton

/-- The records of all states, by key. -/
abbrev Records := List (List (TermId × Record))

/-- The record of a state for a key. -/
def Records.find? (records : Records) (q : StateId) (key : TermId) : Option Record :=
  records[q]?.bind (·.lookup key)

namespace Automaton

/-- The disputes of all states. -/
def allDisputes (a : Automaton) (g : Cfg) (isOperator : TermId → Bool) : List (List Dispute) :=
  a.states.zipIdx.map fun (s, q) => a.disputes g isOperator q s

/-- **The records of all states.** -/
def records (disputes : List (List Dispute)) : Records :=
  disputes.map fun ds => ds.map fun d => (d.key, d.resolve.1)

/-- The conflicts of all states, with the key of each. -/
def conflicts (disputes : List (List Dispute)) : List (StateId × TermId × Conflict) :=
  disputes.zipIdx.flatMap fun (ds, q) =>
    ds.flatMap fun d => d.resolve.2.map fun conflict => (q, d.key, conflict)

end Automaton

end Lalr

import Lalr.Build.Basic
import Lalr.Cfg.Facts

/-!
# Nullability and FIRST sets, look-up by look-up

The passes are those of `Lalr.Cfg.Facts`, in which nothing is looked up that could be missing:

* `compute_nullability` looks up each undecided nonterminal, the productions of it and, as far as it
  reads them, the symbols on their right (`decide_nullable`);
* `compute_firsts` enters a terminal for itself and for the left-hand sides that it begins, and
  passes the set of each source on to its targets;
* `compute_tail_firsts` goes over the positions of every production from the last to the first, and
  looks up the item there and the symbol behind the next one.
-/

namespace Lalr

namespace Workspace

open Build

variable (w : Workspace)

/-! ## Deciding what is nullable -/

/-- A term has been found to be nullable. -/
def isNullableAt (known : TermSet) (id : TermId) : Stage Bool := do
  let _ ← termAt w.terms id
  return id ∈ known

/-- What the productions of a nonterminal tell of it. It is not nullable if all those before have
terminals and so do these. -/
def judge (known : TermSet) : Bool → List ProductionId → Stage (Option Bool)
  | allHaveTerminals, [] => return if allHaveTerminals then some false else none
  | allHaveTerminals, i :: rest => do
    let p ← w.production i
    if ← found (.production i) w.hasTerminals[i]? then judge known allHaveTerminals rest
    else if ← p.rhs.allM (w.isNullableAt known) then return some true
    else judge known false rest

/-- A nonterminal in its turn. -/
def nullTurn (s : NullScan) (x : TermId) : Stage NullScan := do
  let _ ← termAt w.terms x
  match ← w.judge s.nullable true (w.cfg.productionsOf x) with
  | some true => return { s with nullable := s.nullable.insert x }
  | some false => return s
  | none => return { s with undecided := s.undecided ++ [x] }

/-- Passes up to the last one. -/
def settleNullable : Nat → NullScan → Stage NullScan
  | 0, s => return s
  | fuel + 1, s => do
    let next ← s.undecided.foldlM w.nullTurn { s with undecided := [] }
    if s.isLast next then return next else settleNullable fuel next

/-- **The nullable nonterminals.** -/
def nullable : Stage TermSet := do
  let s ← w.settleNullable (w.cfg.nonterminals.length + 1) ⟨∅, w.cfg.nonterminals⟩
  return s.nullable

/-! ## Passing FIRST sets on -/

/-- A terminal begins with itself. -/
def firstSeeds : Stage (Array TermSet) :=
  w.cfg.terminals.foldlM (fun sets t => changeSet (.term t) sets t (·.insert t))
    (Array.replicate w.terms.length ∅)

/-- Reads a right-hand side up to the first symbol that is not nullable. -/
def readFirsts (nullable : TermSet) (lhs : TermId) (s : FirstScan) :
    List TermId → Stage FirstScan
  | [] => return s
  | x :: rest => do
    if ← isTerminalAt w.terms x then
      let sets ← changeSet (.term lhs) s.sets lhs (·.insert x)
      return { s with sets }
    else if ← w.isNullableAt nullable x then readFirsts nullable lhs (s.lead lhs x) rest
    else return s.lead lhs x

end Workspace

namespace Leads

open Build

/-- A symbol passes on its set as it stands. -/
def passOnM (sets : Array TermSet) (lead : TermId × List TermId) : Stage (Array TermSet) := do
  let firsts ← found (.term lead.1) sets[lead.1]?
  lead.2.foldlM (fun sets target => changeSet (.term target) sets target (· ∪ firsts)) sets

/-- Passes until one changes nothing. -/
def settleM (leads : Leads) : Nat → Array TermSet → Stage (Array TermSet)
  | 0, sets => return sets
  | fuel + 1, sets => do
    let next ← leads.foldlM passOnM sets
    if next = sets then return sets else leads.settleM fuel next

end Leads

namespace Workspace

open Build

variable (w : Workspace)

/-- **The FIRST sets**, by term id. -/
def firsts (nullable : TermSet) : Stage (Array TermSet) := do
  let sets ← w.firstSeeds
  let s ← w.cfg.productions.foldlM (fun s p => w.readFirsts nullable p.lhs s p.rhs) ⟨sets, []⟩
  s.leads.settleM (w.cfg.termCount * w.cfg.terminals.length + 1) s.sets

/-- What the analysis knows of the grammar. -/
def facts : Stage Facts := do
  let nullable ← w.nullable
  let firsts ← w.firsts nullable
  return { nullable, firsts }

/-! ## Tails of items -/

/-- One more symbol in front of a tail. -/
def consTail (facts : Facts) (x : TermId) (tail : Tail) : Stage Tail := do
  let isTerminal ← isTerminalAt w.terms x
  let firsts ← found (.term x) facts.firsts[x]?
  if isTerminal || x ∉ facts.nullable then return ⟨firsts, false⟩
  else return { tail with firsts := tail.firsts ∪ firsts }

/-- The item of a production at the position in its turn. -/
def visitTail (facts : Facts) (i : ProductionId) (p : Production) (s : TailScan)
    (position : Nat) : Stage TailScan := do
  let _ ← w.itemAt i position
  if p.rhs.length + 1 ≤ position + 2 then return { s with tails := Tail.nothing :: s.tails }
  else
    let x ← found (.symbol i (position + 1)) p.rhs[position + 1]?
    let gathered ← w.consTail facts x s.gathered
    return { gathered, tails := gathered :: s.tails }

/-- **The tails of all items**, by production and position. -/
def tails (facts : Facts) : Stage (List (List Tail)) :=
  w.cfg.productions.zipIdx.mapM fun (p, i) => do
    let s ← (List.range (p.rhs.length + 1)).reverse.foldlM (w.visitTail facts i p)
      ⟨Tail.nothing, []⟩
    return s.tails

end Workspace

end Lalr

import Lalr.Cfg.Basic
import Lalr.Entries

/-!
# Nullability and FIRST sets

* A nonterminal is **nullable** if some production of it has only nullable symbols on the right.
  Passes go over the nonterminals that nothing could be told of yet (`NullScan`, the loop of
  `compute_nullability`): one with such a production is nullable, one with a terminal in every
  production is not, and any other one waits for the next pass (`decide_nullable`). What is found
  counts at once, within the same pass. The passes end when nothing is left or when one decides
  nothing.
* The **leading** symbols of a sequence are those that only nullable ones precede. A symbol passes
  its FIRST set on to every nonterminal it leads a production of, and a terminal starts with
  itself. In `compute_firsts` right-hand sides are read once: a leading terminal is entered for the
  left-hand side at once (`FirstScan`), and a leading nonterminal is listed with the left-hand
  sides that it leads to (`Leads`). Then sets are passed on, again and again, until a pass changes
  nothing.
* The **tail** of an item is what follows the symbol behind its dot. In `compute_tail_firsts` the
  items of a production are visited from the last to the first, and every symbol of a right-hand
  side but the first is met once on the way (`TailScan`): one that is not nullable hides what was
  gathered behind it, and a nullable one adds to it.

A pass over nonterminals that is not the last leaves fewer of them to decide; so there are no more
passes than nonterminals, and one. A pass over sets that changes anything adds a terminal to one; so
there is a pass that does not, after as many as there are pairs of a term and a terminal.

What is looked up is taken to be there: `Lalr.Build.Facts` has the same passes look-up by look-up.
Out of scope are the counts of passes and edges that are made for traces.
-/

namespace Lalr

/-- What the analysis knows of the symbols of a grammar. -/
structure Facts where
  nullable : TermSet
  firsts   : Array TermSet

/-- The symbols of a sequence up to the first that is not nullable, which is included. -/
def leading (nullable : TermSet) : List TermId → List TermId
  | [] => []
  | x :: rest => x :: if x ∈ nullable then leading nullable rest else []

namespace Facts

/-- The terminals a symbol may begin with. -/
def firstOf (facts : Facts) (id : TermId) : TermSet := facts.firsts[id]?.getD ∅

/-- The terminals a sequence may begin with. -/
def firstOfSequence (facts : Facts) (symbols : List TermId) : TermSet :=
  TermSet.unions ((leading facts.nullable symbols).map facts.firstOf)

/-- The whole sequence may be empty. -/
def allNullable (facts : Facts) (symbols : List TermId) : Bool :=
  symbols.all (· ∈ facts.nullable)

end Facts

/-! ## Deciding what is nullable -/

/-- What can be told of a nonterminal, by what is known to be nullable: it is if some production has
known symbols only, it is not if every production has a terminal, and otherwise nothing yet. -/
def Cfg.decideNullable (g : Cfg) (known : TermSet) (x : TermId) : Option Bool :=
  let silent := g.productions.filter fun p => p.lhs == x && !g.hasTerminals p
  if silent.any fun p => p.rhs.all (· ∈ known) then some true
  else if silent.isEmpty then some false
  else none

/-- How far nullability is decided. -/
structure NullScan where
  /-- The nonterminals found to be nullable. -/
  nullable  : TermSet
  /-- The nonterminals that nothing could be told of yet. -/
  undecided : List TermId

namespace NullScan

/-- A nonterminal in its turn. -/
def turn (g : Cfg) (s : NullScan) (x : TermId) : NullScan :=
  match g.decideNullable s.nullable x with
  | some true => { s with nullable := s.nullable.insert x }
  | some false => s
  | none => { s with undecided := s.undecided ++ [x] }

/-- One pass over the undecided nonterminals. -/
def pass (g : Cfg) (s : NullScan) : NullScan :=
  s.undecided.foldl (turn g) { s with undecided := [] }

/-- A pass is the last one if it leaves nothing undecided, or all that was. -/
def isLast (s next : NullScan) : Bool :=
  next.undecided.isEmpty || next.undecided.length == s.undecided.length

/-- Passes up to the last one. -/
def settle (g : Cfg) : Nat → NullScan → NullScan
  | 0, s => s
  | fuel + 1, s =>
    let next := s.pass g
    if s.isLast next then next else settle g fuel next

end NullScan

/-! ## Passing FIRST sets on -/

/-- The nonterminals that take over the FIRST set of each nonterminal, in the order in which they
were met. -/
abbrev Leads := List (TermId × List TermId)

namespace Leads

/-- The nonterminals that take over the FIRST set of a symbol. -/
def targets (leads : Leads) (x : TermId) : List TermId := (leads.lookup x).getD []

/-- A symbol passes on its set as it stands. -/
def passOn (sets : Array TermSet) (lead : TermId × List TermId) : Array TermSet :=
  let firsts := sets[lead.1]?.getD ∅
  lead.2.foldl (fun sets target => sets.modify target (· ∪ firsts)) sets

/-- One pass: every symbol passes on its set when its turn comes. -/
def pass (leads : Leads) (sets : Array TermSet) : Array TermSet := leads.foldl passOn sets

/-- Passes until one changes nothing. -/
def settle (leads : Leads) : Nat → Array TermSet → Array TermSet
  | 0, sets => sets
  | fuel + 1, sets =>
    let next := leads.pass sets
    if next = sets then sets else leads.settle fuel next

end Leads

/-- What is known of FIRST sets from the right-hand sides read so far. -/
structure FirstScan where
  sets  : Array TermSet
  leads : Leads

namespace FirstScan

/-- Enters a terminal that begins a left-hand side. -/
def enter (s : FirstScan) (lhs terminal : TermId) : FirstScan :=
  { s with sets := s.sets.modify lhs (·.insert terminal) }

/-- Lists a nonterminal that leads to a left-hand side. -/
def lead (s : FirstScan) (lhs x : TermId) : FirstScan :=
  { s with leads := upsert [] x (appendNew · [lhs]) s.leads }

/-- Reads a right-hand side up to the first symbol that is not nullable. -/
def read (g : Cfg) (nullable : TermSet) (lhs : TermId) (s : FirstScan) : List TermId → FirstScan
  | [] => s
  | x :: rest =>
    if x ∈ g.terminals then s.enter lhs x
    else if x ∈ nullable then read g nullable lhs (s.lead lhs x) rest
    else s.lead lhs x

end FirstScan

namespace Cfg

/-- What the passes over nonterminals have decided. -/
def nullScan (g : Cfg) : NullScan :=
  NullScan.settle g (g.nonterminals.length + 1) ⟨∅, g.nonterminals⟩

/-- **The nullable nonterminals.** -/
def nullable (g : Cfg) : TermSet := g.nullScan.nullable

/-- A terminal begins with itself. -/
def firstSeeds (g : Cfg) : Array TermSet :=
  ((List.range g.termCount).map fun x =>
    if x ∈ g.terminals then TermSet.singleton x else ∅).toArray

/-- What reading all right-hand sides has found. -/
def firstScan (g : Cfg) (nullable : TermSet) : FirstScan :=
  g.productions.foldl (fun s p => s.read g nullable p.lhs p.rhs) ⟨g.firstSeeds, []⟩

/-- The nonterminals that take over the FIRST set of each symbol. -/
def firstGraph (g : Cfg) (nullable : TermSet) : Leads := (g.firstScan nullable).leads

/-- **The FIRST sets**, by term id. -/
def firsts (g : Cfg) (nullable : TermSet) : Array TermSet :=
  (g.firstGraph nullable).settle (g.termCount * g.terminals.length + 1) (g.firstScan nullable).sets

/-- What the analysis knows of the grammar. -/
def facts (g : Cfg) : Facts :=
  let nullable := g.nullable
  { nullable, firsts := g.firsts nullable }

end Cfg

/-! ## Tails of items -/

/-- What is known of the symbols that follow the one behind the dot. -/
structure Tail where
  /-- The terminals that may begin them. -/
  firsts   : TermSet
  /-- All of them may be empty. -/
  nullable : Bool
  deriving DecidableEq

namespace Tail

/-- Nothing follows. -/
def nothing : Tail := ⟨∅, true⟩

/-- One more symbol in front. -/
def cons (g : Cfg) (facts : Facts) (x : TermId) (tail : Tail) : Tail :=
  if x ∈ g.terminals ∨ x ∉ facts.nullable then ⟨facts.firstOf x, false⟩
  else { tail with firsts := tail.firsts ∪ facts.firstOf x }

end Tail

/-- What the items of a production are told, from the last to the first. -/
structure TailScan where
  /-- What has been gathered of the symbols met so far. -/
  gathered : Tail
  /-- The tails of the items visited so far, by position of the dot. -/
  tails    : List Tail

namespace TailScan

/-- The item with the dot at the position in its turn. -/
def visit (g : Cfg) (facts : Facts) (rhs : List TermId) (position : Nat) (s : TailScan) :
    TailScan :=
  match rhs[position + 1]? with
  | none => { s with tails := Tail.nothing :: s.tails }
  | some x =>
    let gathered := s.gathered.cons g facts x
    { gathered, tails := gathered :: s.tails }

end TailScan

namespace Cfg

/-- The tails of all items of a production. -/
def tailScan (g : Cfg) (facts : Facts) (p : Production) : TailScan :=
  (List.range (p.rhs.length + 1)).foldr (TailScan.visit g facts p.rhs) ⟨Tail.nothing, []⟩

/-- The tail of an item. -/
def tailOf (g : Cfg) (facts : Facts) (item : Item) : Tail :=
  (g.productions[item.production]?.bind fun p =>
    (g.tailScan facts p).tails[item.position]?).getD Tail.nothing

/-- The terminals that may begin what follows the symbol behind the dot. -/
def tailFirsts (g : Cfg) (facts : Facts) (item : Item) : TermSet := (g.tailOf facts item).firsts

/-- What follows the symbol behind the dot may be empty. -/
def tailNullable (g : Cfg) (facts : Facts) (item : Item) : Bool := (g.tailOf facts item).nullable

end Cfg

end Lalr

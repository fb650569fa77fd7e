import Lalr.Discovery
import Lalr.Expr
import Lalr.TermSet
import Lalr.Total

/-!
# Context-free grammars

What is left of a definition for the analysis: the terminals and nonterminals that the root
reaches, and the productions. A production (`Production`) is one alternative of a rule without its
empty terms; a hint belongs to the position of the right-hand side where it was written
(`add_production`).

An **item** (`LR0Item`) is a production with a dot somewhere in its right-hand side: `next`,
`is_completed`, `is_kernel` and `has_hint` are read off the production. Items are ordered by
production and dot, and numbered by that order (`LR0ItemID`), so two of them compare as their
numbers do. That numbers fit into 32 bits is out of scope.
-/

namespace Lalr

/-- A production, with the hints of its rule by position. -/
structure Production where
  lhs   : TermId
  rhs   : List TermId
  hints : List (Nat × Hint)
  deriving DecidableEq, Repr

namespace Production

/-- The symbols of a sequence: its terms without the empty ones. -/
def symbols (sequence : List Operand) : List TermId :=
  (sequence.filterMap Operand.term?).filter (· != TermId.empty)

/-- The hints of a sequence with the number of symbols before them, counted from `position`. -/
def hintsFrom (position : Nat) : List Operand → List (Nat × Hint)
  | [] => []
  | .hint hint :: rest => (position, hint) :: hintsFrom position rest
  | .term id :: rest => hintsFrom (if id = TermId.empty then position else position + 1) rest
  | .nested _ :: rest => hintsFrom position rest

/-- The production of one alternative. -/
def ofSequence (lhs : TermId) (sequence : List Operand) : Production :=
  { lhs, rhs := symbols sequence, hints := hintsFrom 0 sequence }

/-- The hint stands at the position. -/
def hasHint (p : Production) (position : Nat) (hint : Hint) : Bool :=
  p.hints.contains (position, hint)

/-- The rule asks to prefer this production when it is complete. -/
def prefersReduce (p : Production) : Bool := p.hasHint p.rhs.length .preferReduce

end Production

/-- A production with a dot before the symbol at `position`, or at its end. -/
structure Item where
  production : Nat
  position   : Nat
  deriving DecidableEq, Repr

namespace Item

/-- The item at the start of a production. -/
def start (production : ProductionId) : Item := ⟨production, 0⟩

/-- The item with the dot one symbol further. -/
def advance (item : Item) : Item := ⟨item.production, item.position + 1⟩

instance : LT Item :=
  ⟨fun a b => a.production < b.production ∨
    (a.production = b.production ∧ a.position < b.position)⟩

instance : DecidableLT Item := fun a b =>
  inferInstanceAs (Decidable (a.production < b.production ∨
    (a.production = b.production ∧ a.position < b.position)))

theorem lt_def {a b : Item} : a < b ↔ a.production < b.production ∨
    (a.production = b.production ∧ a.position < b.position) := Iff.rfl

theorem lt_irrefl (a : Item) : ¬ a < a := by
  rw [lt_def]
  omega

theorem lt_trans (a b c : Item) (h₁ : a < b) (h₂ : b < c) : a < c := by
  rw [lt_def] at *
  omega

theorem trichotomous : Trichotomous Item := fun a b h₁ h₂ => by
  rw [lt_def] at h₁ h₂
  have hp : a.production = b.production := by omega
  have hi : a.position = b.position := by omega
  cases a
  cases b
  exact congr (congrArg Item.mk hp) hi

end Item

/-- A context-free grammar. Its first production is that of the augmented root, and its first
terminal is the end of input. -/
structure Cfg where
  /-- Every term id of the grammar is below. -/
  termCount    : Nat
  terminals    : List TermId
  nonterminals : List TermId
  productions  : List Production
  deriving DecidableEq, Repr

namespace Cfg

/-! ## Productions -/

/-- The productions of a nonterminal, by number. -/
def productionsOf (g : Cfg) (lhs : TermId) : List ProductionId :=
  (g.productions.zipIdx.filter fun (p, _) => p.lhs == lhs).map Prod.snd

/-- The right-hand side mentions a terminal. -/
def hasTerminals (g : Cfg) (p : Production) : Bool := p.rhs.any g.terminals.contains

/-! ## Items -/

/-- The symbol behind the dot. -/
def next (g : Cfg) (item : Item) : Option TermId :=
  g.productions[item.production]?.bind (·.rhs[item.position]?)

/-- The left-hand side of an item. -/
def lhs? (g : Cfg) (item : Item) : Option TermId :=
  g.productions[item.production]?.map Production.lhs

/-- What follows the symbol behind the dot. -/
def tail (g : Cfg) (item : Item) : List TermId :=
  match g.productions[item.production]? with
  | some p => p.rhs.drop (item.position + 1)
  | none => []

/-- The dot is at the end. -/
def isComplete (g : Cfg) (item : Item) : Bool := (g.next item).isNone

/-- The item identifies states: its dot has moved, or it starts the augmented root. -/
def isKernel (item : Item) : Bool := item.position > 0 || item.production == ProductionId.root

/-- The rule has the hint at the dot. -/
def hasHint (g : Cfg) (item : Item) (hint : Hint) : Bool :=
  (g.productions[item.production]?.map (·.hasHint item.position hint)).getD false

/-- All items in order. -/
def items (g : Cfg) : List Item :=
  g.productions.zipIdx.flatMap fun (p, i) => (List.range (p.rhs.length + 1)).map (Item.mk i)

/-- The number of an item among all items. -/
def itemNumber (g : Cfg) (item : Item) : Nat :=
  total ((g.productions.take item.production).map fun p => p.rhs.length + 1) + item.position

end Cfg

end Lalr

import Lalr.Ids

/-!
# Rule expressions

The right-hand side of a rule is an expression (`Expr`): a list of alternatives, each a sequence of
operands. An operand (`Operand`) is a term, a hint for conflict resolution, or an expression of its
own in parentheses. Expressions are built by sequencing (`andThen`, for `then`) and alternation
(`orElse`, for `or`), which keep chains flat where they can and nest where they must.
-/

namespace Lalr

/-- A mark at a position of a sequence that steers conflict resolution. -/
inductive Hint where
  /-- Shift at this position when shifting and reducing are both possible. -/
  | preferShift
  /-- Prefer the production that ends here. -/
  | preferReduce
  deriving DecidableEq, Repr

/-- An element of a sequence. -/
inductive Operand where
  | term (id : TermId)
  | hint (hint : Hint)
  | nested (alternatives : List (List Operand))

/-- An expression: alternatives, each a sequence of operands. -/
structure Expr where
  alternatives : List (List Operand)

instance : Inhabited Operand := ⟨.term 0⟩

instance : Inhabited Expr := ⟨⟨[]⟩⟩

/-! ## Equality -/

mutual

/-- Structural equality of operands. -/
def Operand.beq : Operand → Operand → Bool
  | .term a, .term b => a == b
  | .hint a, .hint b => a == b
  | .nested as, .nested bs => Operand.beqAlternatives as bs
  | _, _ => false

/-- Structural equality of sequences. -/
def Operand.beqSequence : List Operand → List Operand → Bool
  | [], [] => true
  | a :: as, b :: bs => Operand.beq a b && Operand.beqSequence as bs
  | _, _ => false

/-- Structural equality of lists of alternatives. -/
def Operand.beqAlternatives : List (List Operand) → List (List Operand) → Bool
  | [], [] => true
  | a :: as, b :: bs => Operand.beqSequence a b && Operand.beqAlternatives as bs
  | _, _ => false

end

instance : BEq Operand := ⟨Operand.beq⟩

instance : BEq Expr := ⟨fun a b => Operand.beqAlternatives a.alternatives b.alternatives⟩

/-! ## Conversions -/

/-- An operand as an expression: a nested one is itself, any other stands alone. -/
def Operand.toExpr : Operand → Expr
  | .nested alternatives => ⟨alternatives⟩
  | operand => ⟨[[operand]]⟩

/-- An expression as an operand: a single operand is itself, anything else is nested. -/
def Expr.toOperand : Expr → Operand
  | ⟨[[operand]]⟩ => operand
  | e => .nested e.alternatives

namespace Expr

/-- The expression of a single term. -/
def term (id : TermId) : Expr := ⟨[[.term id]]⟩

/-- The expression without alternatives, which nothing matches. -/
def nothing : Expr := ⟨[]⟩

/-! ## Building -/

/-- A single sequence. -/
def seq (operands : List Operand) : Expr := ⟨[operands]⟩

/-- Sequencing: a single sequence is extended, anything else becomes the first operand of a new
sequence. -/
def andThen : Expr → Operand → Expr
  | ⟨[operands]⟩, next => ⟨[operands ++ [next]]⟩
  | e, next => ⟨[[.nested e.alternatives, next]]⟩

/-- Alternation: a single sequence becomes a new alternative, anything else is nested in one. -/
def orElse (e : Expr) : Expr → Expr
  | ⟨[operands]⟩ => ⟨e.alternatives ++ [operands]⟩
  | other => ⟨e.alternatives ++ [[.nested other.alternatives]]⟩

/-- The expression in parentheses, so many times over. -/
def wrap (e : Expr) : Nat → Expr
  | 0 => e
  | n + 1 => wrap ⟨[[.nested e.alternatives]]⟩ n

end Expr

/-! ## Occurrences -/

/-- The term an operand stands for, if it is one. -/
def Operand.term? : Operand → Option TermId
  | .term id => some id
  | _ => none

/-- The terms of the alternatives themselves, not looking into nested expressions. -/
def Operand.levelTerms (alternatives : List (List Operand)) : List TermId :=
  alternatives.flatten.filterMap Operand.term?

mutual

/-- The terms inside a nested operand: those of its own level, then those nested deeper. -/
def Operand.innerTerms : Operand → List TermId
  | .term _ => []
  | .hint _ => []
  | .nested alternatives =>
    Operand.levelTerms alternatives ++ Operand.innerTermsAlternatives alternatives

/-- The terms inside the nested operands of a sequence, the last operand first. -/
def Operand.innerTermsSequence : List Operand → List TermId
  | [] => []
  | operand :: rest => Operand.innerTermsSequence rest ++ operand.innerTerms

/-- The terms inside the nested operands of alternatives, the last alternative first. -/
def Operand.innerTermsAlternatives : List (List Operand) → List TermId
  | [] => []
  | sequence :: rest =>
    Operand.innerTermsAlternatives rest ++ Operand.innerTermsSequence sequence

end

/-- All terms of an expression in the order in which they are checked: level by level, a nested
expression before those to its left. -/
def Expr.terms (e : Expr) : List TermId :=
  Operand.levelTerms e.alternatives ++ Operand.innerTermsAlternatives e.alternatives

mutual

/-- The number of nested expressions in an operand, itself included. -/
def Operand.nestedCount : Operand → Nat
  | .term _ => 0
  | .hint _ => 0
  | .nested alternatives => 1 + Operand.nestedCountAlternatives alternatives

/-- The number of nested expressions in a sequence. -/
def Operand.nestedCountSequence : List Operand → Nat
  | [] => 0
  | operand :: rest => operand.nestedCount + Operand.nestedCountSequence rest

/-- The number of nested expressions in alternatives. -/
def Operand.nestedCountAlternatives : List (List Operand) → Nat
  | [] => 0
  | sequence :: rest =>
    Operand.nestedCountSequence sequence + Operand.nestedCountAlternatives rest

end

/-- The number of nested expressions at any depth. -/
def Expr.nestedCount (e : Expr) : Nat := Operand.nestedCountAlternatives e.alternatives

end Lalr

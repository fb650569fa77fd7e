import Lalr.Proofs.Definition.Meaning

/-!
# What the combinators mean

Expressions are written by sequencing and alternation. Both lay out their result by the number of
alternatives that they are given: a single sequence is extended or taken over as it stands, anything
else is nested, and an operand that stands alone loses its parentheses. The layout decides which
nonterminals a definition lifts out of its rules; it must not decide what the rules derive.

* Conversions between operands and expressions keep the meaning (`Operand.language_toExpr`,
  `Expr.language_toOperand`), also where there is nothing to unwrap: no alternatives, an empty
  sequence, parentheses around parentheses.
* Sequencing concatenates and alternation unites (`Expr.language_andThen`,
  `Expr.language_orElse`). With the conversions: **`Expr.language_homomorphism`**.
* Hence the meaning of an expression can be read off the way it is written
  (**`Phrase.language_expr`**). A sequence is written as well by sequencing its operands one by one
  (`Expr.seq_eq_foldl`).
-/

namespace Lalr

variable (env : Interpretation)

namespace Expr

/-! ## Sequences and parentheses -/

theorem language_seq (s : List Operand) :
    (seq s).language env = Operand.languageSequence env s :=
  Operand.languageAlternatives_singleton env s

/-- Parentheses mean what stands in them. -/
theorem language_nested (e : Expr) :
    (seq [.nested e.alternatives]).language env = e.language env := by
  rw [language_seq, Operand.languageSequence_singleton, Operand.language, language]

theorem language_wrap (e : Expr) (n : Nat) : (e.wrap n).language env = e.language env := by
  induction n generalizing e with
  | zero => rfl
  | succ n ih => exact (ih _).trans (language_nested env e)

/-! ## Conversions -/

theorem language_toOperand (e : Expr) : e.toOperand.language env = e.language env := by
  unfold toOperand
  split
  case h_1 operand =>
    -- A single operand, which may be parentheses itself: only one layer comes off.
    rw [language, Operand.languageAlternatives_singleton, Operand.languageSequence_singleton]
  case h_2 => rfl

end Expr

theorem Operand.language_toExpr (o : Operand) : o.toExpr.language env = o.language env := by
  cases o with
  | nested alternatives => rfl
  | term id => exact (Expr.language_seq env _).trans (Operand.languageSequence_singleton env _)
  | hint hint => exact (Expr.language_seq env _).trans (Operand.languageSequence_singleton env _)

namespace Expr

/-! ## Sequencing and alternation -/

theorem language_andThen (e : Expr) (o : Operand) :
    (e.andThen o).language env = e.language env * o.language env := by
  unfold andThen
  split
  case h_1 operands =>
    rw [language, language, Operand.languageAlternatives_singleton,
      Operand.languageAlternatives_singleton, Operand.languageSequence_append,
      Operand.languageSequence_singleton]
  case h_2 =>
    rw [language, Operand.languageAlternatives_singleton, Operand.languageSequence,
      Operand.languageSequence_singleton, Operand.language, language]

theorem language_orElse (e e' : Expr) :
    (e.orElse e').language env = e.language env + e'.language env := by
  unfold orElse
  split
  case h_1 operands => exact Operand.languageAlternatives_append env _ _
  case h_2 =>
    refine (Operand.languageAlternatives_append env _ _).trans ?_
    exact congrArg (e.language env + ·) (language_nested env e')

/-- A sequence is what sequencing makes of its operands, one by one. -/
theorem seq_eq_foldl (s : List Operand) : seq s = s.foldl andThen (seq []) := by
  induction s using List.reverseRecOn with
  | nil => rfl
  | append_singleton s o ih => rw [List.foldl_append, ← ih]; rfl

/-- **The combinators are homomorphisms.** Whatever terms mean, sequencing means concatenation,
alternation means union, and neither conversion changes what it is given; so the operand of a
sequence may be given as an expression and the alternative as an operand. This holds of all
expressions: with any number of alternatives, none included, with empty sequences, and with any
number of parentheses around a single operand. -/
theorem language_homomorphism (e e' : Expr) (o : Operand) :
    (e.andThen o).language env = e.language env * o.language env ∧
    (e.orElse e').language env = e.language env + e'.language env ∧
    e.toOperand.language env = e.language env ∧
    o.toExpr.language env = o.language env ∧
    (e.andThen e'.toOperand).language env = e.language env * e'.language env ∧
    (e.orElse o.toExpr).language env = e.language env + o.language env ∧
    (o.toExpr.andThen e.toOperand).language env = o.language env * e.language env ∧
    (o.toExpr.orElse e).language env = o.language env + e.language env :=
  ⟨language_andThen env e o, language_orElse env e e', language_toOperand env e,
    Operand.language_toExpr env o,
    by rw [language_andThen, language_toOperand], by rw [language_orElse, Operand.language_toExpr],
    by rw [language_andThen, language_toOperand, Operand.language_toExpr],
    by rw [language_orElse, Operand.language_toExpr]⟩

end Expr

/-! ## Expressions as they are written -/

/-- An expression as it is written, before the combinators lay it out. -/
inductive Phrase where
  | term (id : TermId)
  | hint (hint : Hint)
  /-- No alternatives. -/
  | nothing
  /-- The empty sequence. -/
  | blank
  | andThen (first next : Phrase)
  | orElse (one other : Phrase)
  /-- Parentheses, so many of them. -/
  | parens (inner : Phrase) (depth : Nat)

namespace Phrase

/-- What the combinators make of a phrase. -/
def expr : Phrase → Expr
  | term id => (Operand.term id).toExpr
  | hint h => (Operand.hint h).toExpr
  | nothing => Expr.nothing
  | blank => Expr.seq []
  | andThen first next => first.expr.andThen next.expr.toOperand
  | orElse one other => one.expr.orElse other.expr
  | parens inner depth => inner.expr.wrap depth

/-- What a phrase says: `andThen` one after the other, `orElse` either of the two. -/
def language : Phrase → Language TermId
  | term id => if id = TermId.empty then 1 else env id
  | hint _ => 1
  | nothing => 0
  | blank => 1
  | andThen first next => first.language * next.language
  | orElse one other => one.language + other.language
  | parens inner _ => inner.language

/-- **Expressions mean what is written**, whatever was flattened, nested or unwrapped on the way. -/
theorem language_expr (p : Phrase) : p.expr.language env = p.language env := by
  induction p with
  | term id => exact Operand.language_toExpr env _
  | hint h => exact Operand.language_toExpr env _
  | nothing => rfl
  | blank => exact Expr.language_seq env []
  | andThen first next ihf ihn =>
    rw [expr, language, Expr.language_andThen, Expr.language_toOperand, ihf, ihn]
  | orElse one other iho ihr => rw [expr, language, Expr.language_orElse, iho, ihr]
  | parens inner depth ih => rw [expr, language, Expr.language_wrap, ih]

end Phrase

end Lalr

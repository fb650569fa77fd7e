import Lalr.Proofs.Definition.Meaning

/-!
# What repetitions mean

A repetition is meant to stand for what its sign says: `x?` for `x` or nothing, `x+` and `x*` for
words of `x` in a row, `x+[s]` and `x*[s]` for such words with one of `s` between two of them
(`Repetition.language`). Its rule says so by left recursion, or by the rule of `x+[s]`.

* As long as no `rule` command is passed to the nonterminal of a repetition (`sparesRepetitions`),
  that nonterminal has the rule of its repetition and nothing else
  (**`repetitionsIntact_ofCommands`**).
* The least solution of `X = X * B + A` is `A * B∗`, also where `A` and `B` are themselves solutions
  of the system, and look at `X` (**`meaning_of_left_recursion`**).

So a repetition means what it is meant to (**`RepetitionsIntact.meaningIn_eq`**), whatever its
element and its separator are: the empty term, other repetitions, or nonterminals whose rules lead
back to the repetition.
-/

namespace Lalr

open scoped Computability

/-- **What a repetition is meant to stand for**, given what terms stand for. -/
def Repetition.language (env : Interpretation) : Repetition → Language TermId
  | .optional x => env x + 1
  | .oneOrMore x => env x * (env x)∗
  | .zeroOrMore x => (env x)∗
  | .oneOrMoreSep x s => env x * (env s * env x)∗
  | .zeroOrMoreSep x s => env x * (env s * env x)∗ + 1

theorem Repetition.language_congr {env env' : Interpretation} {r : Repetition}
    (h : ∀ x ∈ r.terms, env x = env' x) : r.language env = r.language env' := by
  cases r <;> simp_all [Repetition.language, Repetition.terms]

theorem Repetition.RestsOn.mono {d d' : Definition} {r : Repetition} {plus : TermId}
    (h : r.RestsOn d plus) (hsub : d.repetitions ⊆ d'.repetitions) : r.RestsOn d' plus := by
  cases r with
  | zeroOrMoreSep x s => exact hsub h
  | _ => exact h

/-! ## Rules of repetitions -/

/-- The command is not a `rule` for the nonterminal of a repetition. -/
def Command.sparesRepetitions (d : Definition) : Command → Bool
  | .rule lhs _ => d.repetitions.all fun entry => entry.2 != lhs
  | _ => true

namespace Definition

/-- None of the commands, carried out one after the other, is a `rule` for the nonterminal of a
repetition. -/
def sparesRepetitions [Text.Xid] (d : Definition) : List Command → Bool
  | [] => true
  | command :: rest => command.sparesRepetitions d && (d.apply command).1.sparesRepetitions rest

/-- The nonterminals of repetitions have the rules of their repetitions. -/
def RepetitionsIntact (d : Definition) : Prop :=
  ∀ r id, (r, id) ∈ d.repetitions → ∃ t plus, d.terms[id]? = some t ∧ t.isTerminal = false ∧
    t.rule = some (r.rule id plus) ∧ r.RestsOn d plus

variable {d d' : Definition} {id : TermId}

namespace RepetitionsIntact

theorem ofStart (ignoreCase : Bool) : (start ignoreCase).RepetitionsIntact :=
  fun _ _ hr => absurd hr List.not_mem_nil

theorem change [Text.Xid] (h : d.RepetitionsIntact) (hd : d.Change d') : d'.RepetitionsIntact := by
  have hold : ∀ r id, (r, id) ∈ d.repetitions → ∃ t plus, d'.terms[id]? = some t ∧
      t.isTerminal = false ∧ t.rule = some (r.rule id plus) ∧ r.RestsOn d' plus := by
    intro r id hr
    obtain ⟨t, plus, ht, hterm, hrule, hplus⟩ := h r id hr
    obtain ⟨t', ht', hkind, -, -, hrule'⟩ := hd.exists_term ht
    exact ⟨t', plus, ht', by rw [Term.isTerminal, hkind]; exact hterm, hrule'.trans hrule,
      hplus.mono hd.repetitions_subset⟩
  cases hd with
  | repetition hterms hplus ht _ _ =>
    intro r id hr
    rcases List.mem_append.mp hr with hr | hr
    · exact hold r id hr
    · obtain ⟨rfl, rfl⟩ := by simpa using hr
      exact ⟨_, _, List.getElem?_concat_length, ht ▸ rfl, ht ▸ rfl,
        hplus.mono (List.subset_append_left _ _)⟩
  | _ => exact hold

/-- A rule for another nonterminal leaves those of repetitions alone. -/
theorem rule (h : d.RepetitionsIntact) {lhs : TermId} {e : Expr}
    (hspares : (Command.rule lhs e).sparesRepetitions d = true) (hok : d.rule lhs e = .ok d') :
    d'.RepetitionsIntact := by
  obtain ⟨-, -, rfl⟩ := rule_ok hok
  intro r id hr
  obtain ⟨t, plus, ht, hterm, hrule, hplus⟩ := h r id hr
  have hne : id ≠ lhs := by simpa using List.all_eq_true.mp hspares (r, id) hr
  exact ⟨t, plus, by rw [getElem?_modify ht, if_neg hne.symm], hterm, hrule, hplus⟩

theorem apply [Text.Xid] (h : d.RepetitionsIntact) {command : Command}
    (hspares : command.sparesRepetitions d = true) : (d.apply command).1.RepetitionsIntact := by
  refine apply_of_change h (fun _ _ h hd => h.change hd) ?_
  rintro d' lhs e rfl hok
  exact h.rule hspares hok

theorem foldl [Text.Xid] : ∀ (commands : List Command) {d : Definition}, d.RepetitionsIntact →
    d.sparesRepetitions commands = true →
    (commands.foldl (fun d command => (d.apply command).1) d).RepetitionsIntact
  | [], _, h, _ => h
  | command :: rest, d, h, hspares => by
    simp only [sparesRepetitions, Bool.and_eq_true] at hspares
    exact foldl rest (h.apply hspares.1) hspares.2

end RepetitionsIntact

/-- **Repetitions keep their rules** as long as no `rule` is for them. -/
theorem repetitionsIntact_ofCommands [Text.Xid] {ignoreCase : Bool} {commands : List Command}
    (h : (start ignoreCase).sparesRepetitions commands = true) :
    (ofCommands ignoreCase commands).RepetitionsIntact :=
  RepetitionsIntact.foldl commands (RepetitionsIntact.ofStart ignoreCase) h

end Definition

/-! ## Left recursion -/

/-- **Left recursion is repetition**: what `X` is by `X = X * B + A` is `A * B∗`, where `A` and `B`
are taken at the solution and may look at `X` again. -/
theorem meaning_of_left_recursion {isTerminal : TermId → Bool} {rules : TermId → List Expr}
    {id : TermId} {A B : Interpretation → Language TermId} (hA : Monotone A) (hB : Monotone B)
    (h : ∀ env, equations isTerminal rules env id = env id * B env + A env) :
    meaning isTerminal rules id =
      A (meaning isTerminal rules) * (B (meaning isTerminal rules))∗ := by
  have hsolution := equations_meaning isTerminal rules
  generalize hmeaning : meaning isTerminal rules = solution at hsolution ⊢
  have hid : solution id * B solution + A solution = solution id := by rw [← h, hsolution]
  have hstar : A solution * (B solution)∗ ≤ solution id :=
    mul_kstar_le (le_of_add_le_right hid.le) (le_of_add_le_left hid.le)
  refine le_antisymm ?_ hstar
  -- With `A * B∗` for `X` the solution is still closed under the equations.
  let env := Function.update solution id (A solution * (B solution)∗)
  have hle : env ≤ solution := update_le_self_iff.mpr hstar
  have hclosed : equations isTerminal rules env ≤ env := by
    intro x
    by_cases hx : x = id
    · subst hx
      have hself : env x = A solution * (B solution)∗ := Function.update_self ..
      calc equations isTerminal rules env x
          = A solution * (B solution)∗ * B env + A env := by rw [h, hself]
        _ ≤ A solution * (B solution)∗ * B solution + A solution :=
            add_le_add (mul_le_mul_right (hB hle) _) (hA hle)
        _ = A solution * (1 + (B solution)∗ * B solution) := by
            rw [mul_add, mul_one, mul_assoc, add_comm]
        _ = env x := by rw [one_add_kstar_mul, hself]
    · calc equations isTerminal rules env x
          ≤ equations isTerminal rules solution x := (equations isTerminal rules).monotone hle x
        _ = env x := by rw [hsolution, show env x = solution x from Function.update_of_ne hx ..]
  calc solution id = meaning isTerminal rules id := by rw [hmeaning]
    _ ≤ env id := meaning_le hclosed id
    _ = A solution * (B solution)∗ := Function.update_self ..

/-! ## Repetitions -/

/-- What terms mean as operands: the empty term means the empty word. -/
def operandLanguage (env : Interpretation) : Interpretation :=
  fun id => (Operand.term id).language env

theorem operandLanguage_of_ne (env : Interpretation) {id : TermId} (h : id ≠ TermId.empty) :
    operandLanguage env id = env id :=
  if_neg h

theorem operandLanguage_empty (env : Interpretation) : operandLanguage env TermId.empty = 1 := by
  simp [operandLanguage, Operand.language]

theorem monotone_operandLanguage (id : TermId) :
    Monotone fun env : Interpretation => operandLanguage env id :=
  fun _ _ h => Operand.language_mono h _

/-- What the rule of a repetition means, given what terms mean as operands. -/
def Repetition.ruleLanguage (value : Interpretation) (self plus : TermId) :
    Repetition → Language TermId
  | .optional x => value x + 1
  | .oneOrMore x => value self * value x + value x
  | .zeroOrMore x => value self * value x + 1
  | .oneOrMoreSep x s => value self * (value s * value x) + value x
  | .zeroOrMoreSep _ _ => value plus + 1

theorem Repetition.language_rule (env : Interpretation) (self plus : TermId) (r : Repetition) :
    (r.rule self plus).language env = r.ruleLanguage (operandLanguage env) self plus := by
  have hterm : ∀ id, (Operand.term id).language env = operandLanguage env id := fun _ => rfl
  cases r <;> simp [Repetition.rule, Repetition.ruleLanguage, Expr.term, Expr.orElse, Expr.andThen,
    Expr.language, Operand.languageAlternatives, Operand.languageSequence, hterm,
    operandLanguage_empty, sup_comm]

namespace Definition

variable {d : Definition}

/-- A nonterminal is not the empty term. -/
theorem WellFormed.ne_empty (hd : d.WellFormed) {id : TermId} {t : Term}
    (ht : d.terms[id]? = some t) (hterm : t.isTerminal = false) : id ≠ TermId.empty := by
  rintro rfl
  obtain ⟨t', ht', hterm'⟩ := hd.empty
  obtain rfl : t = t' := Option.some.inj (ht.symm.trans ht')
  exact Bool.false_ne_true (hterm.symm.trans hterm')

namespace RepetitionsIntact

variable (h : d.RepetitionsIntact) (hd : d.WellFormed) {r : Repetition} {id : TermId}

include h hd

/-- The equation of the nonterminal of a repetition. -/
theorem equations_eq (hr : (r, id) ∈ d.repetitions) : id ≠ TermId.empty ∧
    ∃ plus, r.RestsOn d plus ∧ ∀ env, equations (isTerminalIn d.terms) (rulesIn d.terms) env id =
      r.ruleLanguage (operandLanguage env) id plus := by
  obtain ⟨t, plus, ht, hterm, hrule, hplus⟩ := h r id hr
  refine ⟨hd.ne_empty ht hterm, plus, hplus, fun env => ?_⟩
  rw [equations_of_nonterminal (by simp [isTerminalIn, ht, hterm]), ruleLanguage_of_rule ht hrule,
    Repetition.language_rule]

theorem meaningIn_oneOrMoreSep {x s : TermId} (hr : (.oneOrMoreSep x s, id) ∈ d.repetitions) :
    meaningIn d.terms id =
      Repetition.language (operandLanguage (meaningIn d.terms)) (.oneOrMoreSep x s) := by
  obtain ⟨hne, plus, -, hequation⟩ := h.equations_eq hd hr
  refine meaning_of_left_recursion (monotone_operandLanguage x)
    ((monotone_operandLanguage s).mul' (monotone_operandLanguage x)) fun env => ?_
  rw [hequation, Repetition.ruleLanguage, operandLanguage_of_ne env hne]

/-- **Repetitions mean what they are meant to.** -/
theorem meaningIn_eq (hr : (r, id) ∈ d.repetitions) :
    meaningIn d.terms id = r.language (operandLanguage (meaningIn d.terms)) := by
  obtain ⟨hne, plus, hplus, hequation⟩ := h.equations_eq hd hr
  have hself : ∀ env, operandLanguage env id = env id := fun env => operandLanguage_of_ne env hne
  have hsolution : meaningIn d.terms id =
      r.ruleLanguage (operandLanguage (meaningIn d.terms)) id plus := by
    rw [← hequation, meaningIn, equations_meaning]
  cases r with
  | optional x => exact hsolution
  | oneOrMore x =>
    refine meaning_of_left_recursion (monotone_operandLanguage x) (monotone_operandLanguage x)
      fun env => ?_
    rw [hequation, Repetition.ruleLanguage, hself]
  | zeroOrMore x =>
    rw [Repetition.language, ← one_mul (KStar.kstar _)]
    refine meaning_of_left_recursion monotone_const (monotone_operandLanguage x) fun env => ?_
    rw [hequation, Repetition.ruleLanguage, hself]
  | oneOrMoreSep x s => exact h.meaningIn_oneOrMoreSep hd hr
  | zeroOrMoreSep x s =>
    -- The rule leaves the left recursion to that of `x+[s]`.
    have hplus' : (.oneOrMoreSep x s, plus) ∈ d.repetitions := hplus
    rw [hsolution, Repetition.ruleLanguage, operandLanguage_of_ne _ (h.equations_eq hd hplus').1,
      h.meaningIn_oneOrMoreSep hd hplus', Repetition.language, Repetition.language]

end RepetitionsIntact

end Definition

end Lalr

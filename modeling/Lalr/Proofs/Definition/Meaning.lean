import Mathlib.Algebra.Order.BigOperators.Group.List
import Mathlib.Computability.Language
import Mathlib.Order.FixedPoints
import Mathlib.Order.CompletePartialOrder
import Lalr.Proofs.Definition.WellFormed

/-!
# What rules mean

The meaning of a rule is a language over terminals, given the meaning of the terms it mentions
(`Expr.language`): sequences concatenate, alternatives unite, nested expressions count like any
other operand, and hints and the empty term stand for the empty word.

The rules of all nonterminals together are a system of equations, and `meaning` is its least
solution. Two systems that differ only in what the terms of a set do not look at mean the same on
that set (**`meaning_eq_of_agree`**): this is how changes to a system are justified.

For a definition made by commands the system is read off the commands themselves, as all the
expressions that they pass to the rule of each nonterminal (`Definition.denotation`). These are the
rules that the definition ends up with (**`Definition.denotation_eq`**).
-/

namespace Lalr

/-- A language for every term. -/
abbrev Interpretation := TermId → Language TermId

/-! ## Expressions -/

mutual

/-- What an operand means. -/
def Operand.language (env : Interpretation) : Operand → Language TermId
  | .term id => if id = TermId.empty then 1 else env id
  | .hint _ => 1
  | .nested alternatives => Operand.languageAlternatives env alternatives

/-- What a sequence means: its operands one after the other. -/
def Operand.languageSequence (env : Interpretation) : List Operand → Language TermId
  | [] => 1
  | operand :: rest => operand.language env * Operand.languageSequence env rest

/-- What alternatives mean: any of them. -/
def Operand.languageAlternatives (env : Interpretation) : List (List Operand) → Language TermId
  | [] => 0
  | sequence :: rest =>
    Operand.languageSequence env sequence + Operand.languageAlternatives env rest

end

/-- **What an expression means.** -/
def Expr.language (env : Interpretation) (e : Expr) : Language TermId :=
  Operand.languageAlternatives env e.alternatives

variable {env env' : Interpretation}

mutual

theorem Operand.language_mono (h : env ≤ env') : ∀ o : Operand, o.language env ≤ o.language env'
  | .term id => by
    unfold Operand.language
    split
    · exact le_rfl
    · exact h id
  | .hint _ => le_rfl
  | .nested alternatives => Operand.languageAlternatives_mono h alternatives

theorem Operand.languageSequence_mono (h : env ≤ env') : ∀ s : List Operand,
    Operand.languageSequence env s ≤ Operand.languageSequence env' s
  | [] => le_rfl
  | o :: rest => mul_le_mul' (Operand.language_mono h o) (Operand.languageSequence_mono h rest)

theorem Operand.languageAlternatives_mono (h : env ≤ env') : ∀ as : List (List Operand),
    Operand.languageAlternatives env as ≤ Operand.languageAlternatives env' as
  | [] => le_rfl
  | s :: rest =>
    add_le_add (Operand.languageSequence_mono h s) (Operand.languageAlternatives_mono h rest)

end

section Congruence

variable {onTerm : TermId → Bool} {onHint : Hint → Bool}

mutual

theorem Operand.language_congr (h : ∀ x, onTerm x = true → env x = env' x) : ∀ o : Operand,
    o.every onTerm onHint = true → o.language env = o.language env'
  | .term id, ho => by simp only [Operand.language, h id ho]
  | .hint _, _ => rfl
  | .nested alternatives, ho => Operand.languageAlternatives_congr h alternatives ho

theorem Operand.languageSequence_congr (h : ∀ x, onTerm x = true → env x = env' x) :
    ∀ s : List Operand, Operand.everySequence onTerm onHint s = true →
      Operand.languageSequence env s = Operand.languageSequence env' s
  | [], _ => rfl
  | o :: rest, hs => by
    simp only [Operand.everySequence, Bool.and_eq_true] at hs
    simp only [Operand.languageSequence, Operand.language_congr h o hs.1,
      Operand.languageSequence_congr h rest hs.2]

theorem Operand.languageAlternatives_congr (h : ∀ x, onTerm x = true → env x = env' x) :
    ∀ as : List (List Operand), Operand.everyAlternatives onTerm onHint as = true →
      Operand.languageAlternatives env as = Operand.languageAlternatives env' as
  | [], _ => rfl
  | s :: rest, has => by
    simp only [Operand.everyAlternatives, Bool.and_eq_true] at has
    simp only [Operand.languageAlternatives, Operand.languageSequence_congr h s has.1,
      Operand.languageAlternatives_congr h rest has.2]

end

/-- An expression means the same wherever the terms it mentions do. -/
theorem Expr.language_congr (h : ∀ x, onTerm x = true → env x = env' x) {e : Expr}
    (he : e.every onTerm onHint = true) : e.language env = e.language env' :=
  Operand.languageAlternatives_congr h e.alternatives he

end Congruence

theorem Operand.languageAlternatives_append (env : Interpretation) (as bs : List (List Operand)) :
    Operand.languageAlternatives env (as ++ bs) =
      Operand.languageAlternatives env as + Operand.languageAlternatives env bs := by
  induction as with
  | nil => rw [List.nil_append, Operand.languageAlternatives, zero_add]
  | cons s rest ih =>
    rw [List.cons_append, Operand.languageAlternatives, Operand.languageAlternatives, ih, add_assoc]

theorem Operand.languageSequence_append (env : Interpretation) (s t : List Operand) :
    Operand.languageSequence env (s ++ t) =
      Operand.languageSequence env s * Operand.languageSequence env t := by
  induction s with
  | nil => rw [List.nil_append, Operand.languageSequence, one_mul]
  | cons o rest ih =>
    rw [List.cons_append, Operand.languageSequence, Operand.languageSequence, ih, mul_assoc]

@[simp] theorem Operand.languageSequence_singleton (env : Interpretation) (o : Operand) :
    Operand.languageSequence env [o] = o.language env := by
  rw [Operand.languageSequence, Operand.languageSequence, mul_one]

@[simp] theorem Operand.languageAlternatives_singleton (env : Interpretation) (s : List Operand) :
    Operand.languageAlternatives env [s] = Operand.languageSequence env s := by
  rw [Operand.languageAlternatives, Operand.languageAlternatives, add_zero]

theorem Operand.mem_languageAlternatives {w : List TermId} {as : List (List Operand)} :
    w ∈ Operand.languageAlternatives env as ↔ ∃ s ∈ as, w ∈ Operand.languageSequence env s := by
  induction as with
  | nil => simp [Operand.languageAlternatives]
  | cons s rest ih => simp [Operand.languageAlternatives, Language.mem_add, ih]

mutual

/-- What operands mean stays within a language that is closed under concatenation, if what terms
mean does. -/
theorem Operand.language_le {bound : Language TermId} (hone : 1 ≤ bound)
    (hmul : bound * bound ≤ bound) (h : ∀ x, env x ≤ bound) :
    ∀ o : Operand, o.language env ≤ bound
  | .term id => by
    unfold Operand.language
    split
    · exact hone
    · exact h id
  | .hint _ => hone
  | .nested alternatives => Operand.languageAlternatives_le hone hmul h alternatives

theorem Operand.languageSequence_le {bound : Language TermId} (hone : 1 ≤ bound)
    (hmul : bound * bound ≤ bound) (h : ∀ x, env x ≤ bound) :
    ∀ s : List Operand, Operand.languageSequence env s ≤ bound
  | [] => hone
  | o :: rest =>
    (mul_le_mul' (Operand.language_le hone hmul h o)
      (Operand.languageSequence_le hone hmul h rest)).trans hmul

theorem Operand.languageAlternatives_le {bound : Language TermId} (hone : 1 ≤ bound)
    (hmul : bound * bound ≤ bound) (h : ∀ x, env x ≤ bound) :
    ∀ as : List (List Operand), Operand.languageAlternatives env as ≤ bound
  | [] => zero_le
  | s :: rest =>
    add_le (Operand.languageSequence_le hone hmul h s)
      (Operand.languageAlternatives_le hone hmul h rest)

end

/-! ## Systems of rules -/

/-- The equations of a system: a terminal means itself, a nonterminal what any of the expressions
passed to its rule means. -/
def equations (isTerminal : TermId → Bool) (rules : TermId → List Expr) :
    Interpretation →o Interpretation where
  toFun env id :=
    if isTerminal id then {[id]} else ((rules id).map (Expr.language env)).sum
  monotone' := by
    intro env env' h id
    dsimp only
    split
    · exact le_rfl
    · exact List.sum_le_sum fun e _ => Operand.languageAlternatives_mono h e.alternatives

/-- **The least solution of a system.** -/
def meaning (isTerminal : TermId → Bool) (rules : TermId → List Expr) : Interpretation :=
  (equations isTerminal rules).lfp

variable {isTerminal isTerminal' : TermId → Bool} {rules rules' : TermId → List Expr}

theorem equations_meaning (isTerminal : TermId → Bool) (rules : TermId → List Expr) :
    equations isTerminal rules (meaning isTerminal rules) = meaning isTerminal rules :=
  (equations isTerminal rules).map_lfp

theorem meaning_le (h : equations isTerminal rules env ≤ env) : meaning isTerminal rules ≤ env :=
  (equations isTerminal rules).lfp_le h

theorem meaning_of_terminal {id : TermId} (h : isTerminal id = true) :
    meaning isTerminal rules id = {[id]} := by
  rw [← equations_meaning]
  exact if_pos h

theorem meaning_of_nonterminal {id : TermId} (h : isTerminal id = false) :
    meaning isTerminal rules id =
      ((rules id).map (Expr.language (meaning isTerminal rules))).sum := by
  conv_lhs => rw [← equations_meaning]
  exact if_neg (by rw [h]; decide)

/-- A term means words of terminals. -/
theorem isTerminal_of_mem_meaning {id : TermId} {w : List TermId}
    (hw : w ∈ meaning isTerminal rules id) : ∀ x ∈ w, isTerminal x = true := by
  let words : Language TermId := {w | ∀ x ∈ w, isTerminal x = true}
  have hone : 1 ≤ words := by
    rintro w rfl x hx
    cases hx
  have hmul : words * words ≤ words := by
    rintro _ ⟨u, hu, v, hv, rfl⟩ x hx
    exact (List.mem_append.mp hx).elim (hu x) (hv x)
  have hclosed : equations isTerminal rules (fun _ => words) ≤ fun _ => words := by
    intro id
    show (if _ then _ else _) ≤ words
    split
    · rename_i hid
      rintro _ rfl x hx
      rw [List.mem_singleton.mp hx]
      exact hid
    · refine List.sum_induction (· ≤ words) (fun _ _ => add_le) zero_le fun _ hlanguage => ?_
      obtain ⟨e, -, rfl⟩ := List.mem_map.mp hlanguage
      exact Operand.languageAlternatives_le hone hmul (fun _ => le_rfl) e.alternatives
  exact meaning_le hclosed id hw

/-- **Two systems mean the same on a set of terms** if their equations agree there as soon as those
of the second hold outside, and no equation, of the first inside or of the second outside, looks at
terms outside. -/
theorem meaning_eq_of_agree (kept : TermId → Prop)
    (hagree : ∀ env, (∀ j, ¬ kept j → equations isTerminal' rules' env j = env j) →
      ∀ j, kept j → equations isTerminal rules env j = equations isTerminal' rules' env j)
    (hinside : ∀ env env' : Interpretation, (∀ x, kept x → env x = env' x) → ∀ j, kept j →
      equations isTerminal rules env j = equations isTerminal rules env' j)
    (houtside : ∀ env env' : Interpretation, (∀ x, kept x → env x = env' x) → ∀ j, ¬ kept j →
      equations isTerminal' rules' env j = equations isTerminal' rules' env' j)
    {id : TermId} (hid : kept id) :
    meaning isTerminal rules id = meaning isTerminal' rules' id := by
  classical
  have hsolution := equations_meaning isTerminal rules
  have hsolution' := equations_meaning isTerminal' rules'
  apply le_antisymm
  · -- The second solution inside, with anything outside, satisfies the first system.
    let env : Interpretation := fun j => if kept j then meaning isTerminal' rules' j else ⊤
    have hsame : ∀ x, kept x → env x = meaning isTerminal' rules' x := fun x hx => if_pos hx
    have hle : equations isTerminal rules env ≤ env := by
      intro j
      by_cases hj : kept j
      · rw [hinside env _ hsame j hj, hagree _ (fun x _ => congrFun hsolution' x) j hj, hsolution',
          hsame j hj]
      · rw [show env j = ⊤ from if_neg hj]
        exact le_top
    exact (meaning_le hle id).trans_eq (hsame id hid)
  · -- The first solution inside determines the second system outside.
    let env : Interpretation := fun j =>
      if kept j then meaning isTerminal rules j
      else equations isTerminal' rules' (meaning isTerminal rules) j
    have hsame : ∀ x, kept x → env x = meaning isTerminal rules x := fun x hx => if_pos hx
    have hout : ∀ j, ¬ kept j → equations isTerminal' rules' env j = env j := by
      intro j hj
      rw [houtside env _ hsame j hj]
      exact (if_neg hj).symm
    have hle : equations isTerminal' rules' env ≤ env := by
      intro j
      by_cases hj : kept j
      · rw [← hagree env hout j hj, hinside env _ hsame j hj, hsolution, hsame j hj]
      · exact (hout j hj).le
    exact (meaning_le hle id).trans_eq (hsame id hid)

/-! ## Lists of terms -/

/-- The term is a terminal. -/
def isTerminalIn (terms : List Term) (id : TermId) : Bool :=
  (terms[id]?.map Term.isTerminal).getD false

/-- The rule of the term, if it has one. -/
def rulesIn (terms : List Term) (id : TermId) : List Expr := (terms[id]?.bind Term.rule).toList

/-- What terms mean by their rules. -/
def meaningIn (terms : List Term) : Interpretation := meaning (isTerminalIn terms) (rulesIn terms)

/-- What the rule of a term means; a term without a rule means nothing. -/
def ruleLanguage (terms : List Term) (env : Interpretation) (id : TermId) : Language TermId :=
  ((rulesIn terms id).map (Expr.language env)).sum

theorem ruleLanguage_of_rule {terms : List Term} {id : TermId} {t : Term} {e : Expr}
    (ht : terms[id]? = some t) (he : t.rule = some e) :
    ruleLanguage terms env id = e.language env := by
  simp [ruleLanguage, rulesIn, ht, he]

theorem equations_of_nonterminal {terms : List Term} {id : TermId}
    (h : isTerminalIn terms id = false) :
    equations (isTerminalIn terms) (rulesIn terms) env id = ruleLanguage terms env id :=
  if_neg (by rw [h]; decide)

theorem ruleLanguage_of_none {terms : List Term} {id : TermId}
    (h : terms[id]?.bind Term.rule = none) : ruleLanguage terms env id = 0 := by
  simp [ruleLanguage, rulesIn, h]

theorem ruleLanguage_of_length_le {terms : List Term} {id : TermId} (h : terms.length ≤ id) :
    ruleLanguage terms env id = 0 :=
  ruleLanguage_of_none (by rw [List.getElem?_eq_none h]; rfl)

/-! ## Commands -/

/-- What a command passes to the rule of a term: the expression of a rule that is not refused, or
the rule that a new term comes with. -/
def Command.passes [Text.Xid] (d : Definition) (command : Command) (id : TermId) : List Expr :=
  match command, (d.apply command).2 with
  | .rule lhs e, .ok _ => if lhs = id then [e] else []
  | _, _ => if id < d.terms.length then [] else rulesIn (d.apply command).1.terms id

namespace Definition

/-- What commands pass to the rule of a term, one after the other. -/
def passed [Text.Xid] (d : Definition) : List Command → TermId → List Expr
  | [], _ => []
  | command :: rest, id => command.passes d id ++ passed (d.apply command).1 rest id

/-- **What a term means by the commands**: the least solution of the equations in which a
nonterminal is any of the expressions passed to its rule. -/
def denotation [Text.Xid] (ignoreCase : Bool) (commands : List Command) : Interpretation :=
  meaning (isTerminalIn (ofCommands ignoreCase commands).terms)
    (passed (start ignoreCase) commands)

/-- Every term keeps its rule, and terms may be added. -/
def KeepsRules (d d' : Definition) : Prop := d.terms.map Term.rule <+: d'.terms.map Term.rule

variable {d d' : Definition}

namespace KeepsRules

theorem refl (d : Definition) : d.KeepsRules d := List.prefix_rfl

theorem add (d : Definition) (t : Term) : d.KeepsRules (d.add t) := by
  simp [KeepsRules, Definition.add]

theorem modify (d : Definition) (id : TermId) {f : Term → Term} (hf : ∀ t, (f t).rule = t.rule) :
    d.KeepsRules (d.modify id f) := by
  have hsame : (d.terms.modify id f).map Term.rule = d.terms.map Term.rule := by
    refine List.ext_getElem? fun i => ?_
    rw [List.getElem?_map, List.getElem?_map, List.getElem?_modify]
    cases d.terms[i]? with
    | none => rfl
    | some t =>
      by_cases hi : id = i
      · simp [hi, hf]
      · simp [hi]
  rw [KeepsRules, Definition.modify, hsame]

theorem change [Text.Xid] (h : d.Change d') : d.KeepsRules d' := by
  cases h with
  | symbol _ _ _ _ _ => exact add d _
  | literal _ _ => exact add d _
  | repetition _ _ _ _ => exact add d _
  | root _ => exact refl d
  | operator _ => exact modify d _ fun _ => rfl
  | priority _ => exact modify d _ fun _ => rfl
  | nickname _ => exact modify d _ fun _ => rfl

/-- Only a `rule` command touches the rules of terms that exist. -/
theorem apply [Text.Xid] {command : Command} (h : ∀ lhs e, command ≠ .rule lhs e) :
    d.KeepsRules (d.apply command).1 := by
  have hchanges : ∀ {d'}, d.Changes d' → d.KeepsRules d' := by
    intro d' hd'
    induction hd' with
    | refl => exact refl d
    | tail _ hlast ih => exact ih.trans (change hlast)
  exact hchanges (changes_apply d h)

/-- Rules that are kept mean what they meant, and new terms mean what their rules do. -/
theorem ruleLanguage_eq (h : d.KeepsRules d') (env : Interpretation) (id : TermId) :
    ruleLanguage d'.terms env id = ruleLanguage d.terms env id +
      ((if id < d.terms.length then [] else rulesIn d'.terms id).map (Expr.language env)).sum := by
  have hget : ∀ terms : List Term, terms[id]?.bind Term.rule =
      (terms.map Term.rule)[id]?.bind fun rule => rule := by
    intro terms
    rw [List.getElem?_map]
    cases terms[id]? <;> rfl
  split
  · rename_i hlt
    obtain ⟨new, hnew⟩ := h
    rw [List.map_nil, List.sum_nil, add_zero, ruleLanguage, ruleLanguage, rulesIn, rulesIn,
      hget d'.terms, ← hnew, List.getElem?_append_left (by simpa using hlt), ← hget]
  · rename_i hge
    rw [ruleLanguage_of_length_le (Nat.not_lt.mp hge), zero_add]
    rfl

end KeepsRules

/-- A rule that is not refused is added to the rule of its nonterminal. -/
theorem ruleLanguage_rule {lhs : TermId} {e : Expr} (h : d.rule lhs e = .ok d')
    (env : Interpretation) (id : TermId) :
    ruleLanguage d'.terms env id = ruleLanguage d.terms env id +
      ((if lhs = id then [e] else []).map (Expr.language env)).sum := by
  obtain ⟨-, ⟨t, hlhs⟩, rfl⟩ := rule_ok h
  have ht := (userNonterminal_ok hlhs).2.1
  split
  · rename_i hid
    subst hid
    rw [ruleLanguage_of_rule (by rw [getElem?_modify ht, if_pos rfl]) rfl]
    rw [List.map_singleton, List.sum_singleton]
    cases hrule : t.rule with
    | none =>
      rw [ruleLanguage_of_none (by rw [ht]; exact hrule), zero_add]
      rfl
    | some rule =>
      rw [ruleLanguage_of_rule ht hrule]
      exact Operand.languageAlternatives_append env _ _
  · rename_i hid
    rw [List.map_nil, List.sum_nil, add_zero, ruleLanguage, ruleLanguage, rulesIn, rulesIn,
      Definition.modify, List.getElem?_modify]
    simp [hid]

/-- **One command**: what a rule means afterwards, with what the command has passed to it. -/
theorem ruleLanguage_apply [Text.Xid] (command : Command) (env : Interpretation) (id : TermId) :
    ruleLanguage (d.apply command).1.terms env id = ruleLanguage d.terms env id +
      ((command.passes d id).map (Expr.language env)).sum := by
  by_cases hcommand : ∃ lhs e, command = .rule lhs e
  · obtain ⟨lhs, e, rfl⟩ := hcommand
    cases hrule : d.rule lhs e with
    | error cause =>
      have happly : d.apply (.rule lhs e) = (d, .error cause) := by
        simp only [apply, hrule, withoutTerm, keepOnError]
      simp only [Command.passes, happly]
      exact (KeepsRules.refl d).ruleLanguage_eq env id
    | ok d' =>
      have happly : d.apply (.rule lhs e) = (d', .ok none) := by
        simp only [apply, hrule, withoutTerm, keepOnError]
      simp only [Command.passes, happly]
      exact ruleLanguage_rule hrule env id
  · have hother : ∀ lhs e, command ≠ .rule lhs e := fun lhs e h => hcommand ⟨lhs, e, h⟩
    have hpasses : command.passes d id =
        if id < d.terms.length then [] else rulesIn (d.apply command).1.terms id := by
      unfold Command.passes
      split
      · exact absurd rfl (hother _ _)
      · rfl
    rw [hpasses]
    exact (KeepsRules.apply hother).ruleLanguage_eq env id

/-- **All commands.** -/
theorem ruleLanguage_foldl [Text.Xid] (env : Interpretation) (id : TermId) :
    ∀ (commands : List Command) (d : Definition),
      ruleLanguage (commands.foldl (fun d command => (d.apply command).1) d).terms env id =
        ruleLanguage d.terms env id + ((passed d commands id).map (Expr.language env)).sum
  | [], d => by simp [passed]
  | command :: rest, d => by
    rw [List.foldl_cons, ruleLanguage_foldl env id rest, ruleLanguage_apply, passed,
      List.map_append, List.sum_append, add_assoc]

/-- **The commands mean what the rules mean that they lead to.** -/
theorem denotation_eq [Text.Xid] (ignoreCase : Bool) (commands : List Command) :
    denotation ignoreCase commands = meaningIn (ofCommands ignoreCase commands).terms := by
  unfold denotation meaningIn meaning
  congr 1
  refine OrderHom.ext _ _ (funext₂ fun env id => ?_)
  have hrules := ruleLanguage_foldl env id commands (start ignoreCase)
  have hstart : ruleLanguage (start ignoreCase).terms env id = 0 := by
    refine ruleLanguage_of_none ?_
    match id with
    | 0 | 1 | 2 => rfl
    | _ + 3 => rfl
  rw [hstart, zero_add] at hrules
  show (if _ then _ else _) = (if _ then _ else _)
  rw [← hrules]
  rfl

end Definition

end Lalr

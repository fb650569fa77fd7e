import Lalr.Proofs.Definition.Consistency
import Mathlib.Data.List.Induction

/-!
# Literals are shared

The same text is the same literal, up to case if case is ignored. Only the command `literal` makes
literals (`literals_apply`), and the table of literals is a record of its calls: under a folded text
it has a term iff a call with a text that folds to it has returned this term
(**`lookup_literals_ofCommands`**). A call is refused for the empty text only (`apply_literal_ok`).
-/

namespace Lalr

open Text

namespace Definition

variable {d d' : Definition}

/-- In the script, a call for the literal with this text returns the term. -/
def LiteralReturns [Text.Xid] (ignoreCase : Bool) (commands : List Command) (text : String)
    (id : TermId) :
    Prop :=
  ∃ before after, commands = before ++ .literal text :: after ∧
    ((ofCommands ignoreCase before).apply (.literal text)).2 = .ok (some id)

/-! ## The case rule -/

/-- No command changes the case rule. -/
theorem ignoreCase_ofCommands [Text.Xid] (ignoreCase : Bool) (commands : List Command) :
    (ofCommands ignoreCase commands).ignoreCase = ignoreCase := by
  refine ofCommands_of_change (P := fun d => d.ignoreCase = ignoreCase) rfl
    (fun d d' h hd => ?_) (fun d d' lhs e h hok => ?_) commands
  · cases hd <;> exact h
  · obtain ⟨-, -, rfl⟩ := rule_ok hok
    exact h

/-! ## Steps that make no literal -/

theorem literals_shareRepetition {r : Repetition} {plus id : TermId}
    (h : d.shareRepetition r plus = .ok (d', id)) : d'.literals = d.literals := by
  rcases shareRepetition_ok h with ⟨-, rfl⟩ | ⟨-, -, -, t, -, -, rfl⟩ <;> rfl

theorem literals_repetition (d : Definition) (r : Repetition) :
    (d.repetition r).1.literals = d.literals := by
  have hkeep : ∀ (d : Definition) (r : Repetition) (plus : TermId),
      (d.keepOnError (d.shareRepetition r plus)).1.literals = d.literals := fun d r plus =>
    keepOnError_of (P := fun d' => d'.literals = d.literals) rfl
      fun _ _ hok => literals_shareRepetition hok
  unfold Definition.repetition
  split
  · rfl
  · split
    · rfl
    · rename_i hshare
      exact (hkeep _ _ _).trans (literals_shareRepetition hshare)
  · exact hkeep _ _ _

theorem literals_operators (precedence : Precedence) : ∀ (ids : List TermId) (d : Definition),
    (operators precedence d ids).1.literals = d.literals
  | [], _ => rfl
  | id :: rest, d => by
    unfold operators
    split
    · rfl
    · exact literals_operators precedence rest _

/-- **Only `literal` makes literals.** -/
theorem literals_apply [Text.Xid] (d : Definition) {command : Command}
    (h : ∀ text, command ≠ .literal text) : (d.apply command).1.literals = d.literals := by
  have hkeep : ∀ {result : Except DefinitionError (Definition × Option TermId)},
      (∀ d' o, result = .ok (d', o) → d'.literals = d.literals) →
      (d.keepOnError result).1.literals = d.literals :=
    fun hok => keepOnError_of (P := fun d' => d'.literals = d.literals) rfl hok
  cases command with
  | literal text => exact absurd rfl (h text)
  | terminal name matcher =>
    refine hkeep fun d' o hok => ?_
    obtain ⟨id, hok⟩ := withTerm_ok hok
    obtain ⟨-, -, rfl⟩ := terminal_ok hok
    rfl
  | nonterminal name =>
    refine hkeep fun d' o hok => ?_
    obtain ⟨id, hok⟩ := withTerm_ok hok
    obtain ⟨-, -, rfl⟩ := nonterminal_ok hok
    rfl
  | rule lhs e =>
    refine hkeep fun d' o hok => ?_
    obtain ⟨-, -, rfl⟩ := rule_ok (withoutTerm_ok hok)
    rfl
  | root id =>
    refine hkeep fun d' o hok => ?_
    obtain ⟨-, rfl⟩ := setRoot_ok (withoutTerm_ok hok)
    rfl
  | operators precedence ids => exact literals_operators precedence ids d
  | priority id value =>
    refine hkeep fun d' o hok => ?_
    obtain ⟨-, rfl⟩ := setPriority_ok (withoutTerm_ok hok)
    rfl
  | nickname id text =>
    refine hkeep fun d' o hok => ?_
    obtain ⟨-, rfl⟩ := setNickname_ok (withoutTerm_ok hok)
    rfl
  | repetition r => exact literals_repetition d r

/-! ## Calls for literals -/

/-- A call is refused for the empty text only. -/
theorem apply_literal_ok [Text.Xid] (d : Definition) {text : String} (h : text ≠ "") :
    ∃ id, (d.apply (.literal text)).2 = .ok (some id) := by
  have htext : ¬ text.isEmpty = true := by simpa using h
  rw [apply, Definition.literal, if_neg htext]
  cases d.findLiteral text with
  | some id => exact ⟨id, rfl⟩
  | none => exact ⟨_, rfl⟩

/-- **What a call adds to the table** is the term it returns, under the folded text. -/
theorem lookup_literals_literal [Text.Xid] (d : Definition) (text key : String) (id : TermId) :
    (d.apply (.literal text)).1.literals.lookup key = some id ↔
      d.literals.lookup key = some id ∨ foldCase d.ignoreCase text = key ∧
        (d.apply (.literal text)).2 = .ok (some id) := by
  rw [apply, Definition.literal]
  split
  · simp [withTerm, keepOnError]
  · cases hfind : d.findLiteral text with
    | some found =>
      -- The term is in the table already.
      refine (or_iff_left_of_imp ?_).symm
      rintro ⟨rfl, hreturned⟩
      obtain rfl : found = id := by simpa [withTerm, keepOnError] using hreturned
      exact hfind
    | none =>
      refine (lookup_append_singleton_iff hfind).trans (or_congr_right (and_congr eq_comm ?_))
      simp [withTerm, keepOnError, eq_comm]

theorem ofCommands_append_singleton [Text.Xid] (ignoreCase : Bool) (commands : List Command)
    (command : Command) :
    ofCommands ignoreCase (commands ++ [command]) =
      ((ofCommands ignoreCase commands).apply command).1 := by
  rw [ofCommands, List.foldl_append]
  rfl

/-- A call of a script is one before the last command, or this command. -/
theorem literalReturns_append_singleton [Text.Xid] {ignoreCase : Bool} {commands : List Command}
    {command : Command} {text : String} {id : TermId} :
    LiteralReturns ignoreCase (commands ++ [command]) text id ↔
      LiteralReturns ignoreCase commands text id ∨ command = .literal text ∧
        ((ofCommands ignoreCase commands).apply (.literal text)).2 = .ok (some id) := by
  constructor
  · rintro ⟨before, after, hcommands, hreturned⟩
    rcases List.eq_nil_or_concat after with rfl | ⟨middle, last, rfl⟩
    · obtain ⟨rfl, hlast⟩ := List.append_inj' hcommands rfl
      exact Or.inr ⟨(List.cons.inj hlast).1, hreturned⟩
    · rw [List.concat_eq_append, ← List.cons_append, ← List.append_assoc] at hcommands
      obtain ⟨rfl, -⟩ := List.append_inj' hcommands rfl
      exact Or.inl ⟨before, middle, rfl, hreturned⟩
  · rintro (⟨before, after, rfl, hreturned⟩ | ⟨rfl, hreturned⟩)
    · exact ⟨before, after ++ [command], by simp, hreturned⟩
    · exact ⟨commands, [], rfl, hreturned⟩

/-- **The table of literals is a record of the calls**: under a folded text it has the term that
every call with such a text has returned, and nothing under other texts. -/
theorem lookup_literals_ofCommands [Text.Xid] (ignoreCase : Bool) (commands : List Command)
    (key : String) (id : TermId) :
    (ofCommands ignoreCase commands).literals.lookup key = some id ↔
      ∃ text, foldCase ignoreCase text = key ∧ LiteralReturns ignoreCase commands text id := by
  induction commands using List.reverseRecOn with
  | nil =>
    have hnone : ∀ text, ¬ LiteralReturns ignoreCase [] text id := by
      rintro text ⟨before, after, hcommands, -⟩
      simp at hcommands
    simp [ofCommands, start, hnone]
  | append_singleton commands command ih =>
    simp only [ofCommands_append_singleton, literalReturns_append_singleton, and_or_left, exists_or,
      ← ih]
    by_cases hcommand : ∃ text, command = .literal text
    · obtain ⟨text, rfl⟩ := hcommand
      rw [lookup_literals_literal, ignoreCase_ofCommands]
      refine or_congr_right ⟨?_, ?_⟩
      · rintro ⟨hkey, hreturned⟩
        exact ⟨text, hkey, rfl, hreturned⟩
      · rintro ⟨text', hkey, htext, hreturned⟩
        cases htext
        exact ⟨hkey, hreturned⟩
    · rw [literals_apply _ fun text htext => hcommand ⟨text, htext⟩]
      refine (or_iff_left ?_).symm
      rintro ⟨text, -, htext, -⟩
      exact hcommand ⟨text, htext⟩

end Definition

end Lalr

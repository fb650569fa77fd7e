import Lalr.Proofs.Definition.WellFormed

/-!
# Definitions are consistent

A definition says some things twice: the id of a term is also its place, and the two look-up tables
repeat names and texts. Rules, precedences and the root belong to some terms only, and refer to
others by number. Compiling relies on all of this without a further look.

**`consistent_ofCommands`**: after any commands, refused ones included and whatever ids they were
given, ids are places, the tables are exactly the names and the texts (`IsIndex`), rules mention
usable terms only, at any depth (`Expr.RefersTo`), and rules, precedences and the root are where
they may be.
-/

namespace Lalr

open Text

/-! ## What an expression refers to -/

/-- The expression refers to the term, by an operand at any depth. -/
inductive Expr.RefersTo : Expr → TermId → Prop
  | operand {e : Expr} {s : List Operand} {id : TermId} (hs : s ∈ e.alternatives)
      (h : .term id ∈ s) : RefersTo e id
  | nested {e : Expr} {s : List Operand} {as : List (List Operand)} {id : TermId}
      (hs : s ∈ e.alternatives) (h : .nested as ∈ s) (hid : RefersTo ⟨as⟩ id) : RefersTo e id

/-- A test that all terms of an expression pass is passed by what it refers to. -/
theorem Expr.RefersTo.passes {onTerm : TermId → Bool} {onHint : Hint → Bool} {e : Expr}
    {id : TermId} (h : e.RefersTo id) (hevery : e.every onTerm onHint = true) :
    onTerm id = true := by
  induction h with
  | operand hs h => exact Operand.everyAlternatives_iff.mp hevery _ hs _ h
  | nested hs h _ ih => exact ih (Operand.everyAlternatives_iff.mp hevery _ hs _ h)

/-! ## Places of terms -/

/-- A term of a longer list is an old one, or the one that was added. -/
theorem getElem?_append_singleton_iff {terms : List Term} {t u : Term} {i : Nat} :
    (terms ++ [t])[i]? = some u ↔ terms[i]? = some u ∨ (i = terms.length ∧ t = u) := by
  rw [List.getElem?_append]
  split
  · rename_i hlt
    exact ⟨Or.inl, fun h => h.elim id fun h => absurd h.1 (Nat.ne_of_lt hlt)⟩
  · rename_i hge
    have hnone : terms[i]? = none := List.getElem?_eq_none_iff.mpr (Nat.not_lt.mp hge)
    rw [hnone, List.getElem?_singleton]
    simp only [reduceCtorEq, false_or, Option.ite_none_right_eq_some, Option.some.injEq]
    exact and_congr_left fun _ => by omega

/-- A term of a list in which one was changed is the one, or another. -/
theorem getElem?_modify_iff {terms : List Term} {f : Term → Term} {i j : Nat} {u : Term} :
    (terms.modify i f)[j]? = some u ↔
      ∃ t, terms[j]? = some t ∧ u = if i = j then f t else t := by
  rw [List.getElem?_modify]
  cases terms[j]? <;> simp [eq_comm]

/-! ## Tables of terms -/

/-- The table maps exactly the keys of the terms that have one, each to the place of its term. -/
structure IsIndex (keyOf : Term → Option String) (table : List (String × TermId))
    (terms : List Term) : Prop where
  lookup    : ∀ key id, table.lookup key = some id ↔ ∃ t, terms[id]? = some t ∧ keyOf t = some key
  /-- No key is listed twice. -/
  nodup     : (table.map Prod.fst).Nodup
  /-- No two keys lead to the same term. -/
  injective : ∀ key key' id, table.lookup key = some id → table.lookup key' = some id → key = key'

namespace IsIndex

variable {keyOf : Term → Option String} {table : List (String × TermId)} {terms : List Term}

/-- A term has one key, so no two lead to it. -/
theorem of_lookup
    (hlookup : ∀ key id, table.lookup key = some id ↔
      ∃ t, terms[id]? = some t ∧ keyOf t = some key)
    (hnodup : (table.map Prod.fst).Nodup) : IsIndex keyOf table terms := by
  refine ⟨hlookup, hnodup, ?_⟩
  intro key key' id hkey hkey'
  obtain ⟨t, ht, hkey⟩ := (hlookup key id).mp hkey
  obtain ⟨t', ht', hkey'⟩ := (hlookup key' id).mp hkey'
  obtain rfl : t = t' := Option.some.inj (ht.symm.trans ht')
  exact Option.some.inj (hkey.symm.trans hkey')

theorem nil : IsIndex keyOf [] [] := of_lookup (fun key id => by simp) List.nodup_nil

/-- Two terms with the same key are one. -/
theorem eq_of_key (h : IsIndex keyOf table terms) {i j : TermId} {t u : Term} {key : String}
    (ht : terms[i]? = some t) (hu : terms[j]? = some u) (hkey : keyOf t = some key)
    (hkey' : keyOf u = some key) : i = j :=
  Option.some.inj
    (((h.lookup key i).mpr ⟨t, ht, hkey⟩).symm.trans ((h.lookup key j).mpr ⟨u, hu, hkey'⟩))

/-- A term without a key may be added. -/
theorem append_other (h : IsIndex keyOf table terms) {t : Term} (ht : keyOf t = none) :
    IsIndex keyOf table (terms ++ [t]) := by
  refine of_lookup (fun key id => (h.lookup key id).trans ?_) h.nodup
  simp only [getElem?_append_singleton_iff, or_and_right, exists_or]
  refine (or_iff_left ?_).symm
  rintro ⟨u, ⟨-, rfl⟩, hkey⟩
  exact absurd (ht.symm.trans hkey) (Option.some_ne_none key).symm

/-- A term with a new key may be added, if the key is listed with the next place. -/
theorem append_new (h : IsIndex keyOf table terms) {t : Term} {key : String}
    (ht : keyOf t = some key) (hnew : table.lookup key = none) :
    IsIndex keyOf (table ++ [(key, terms.length)]) (terms ++ [t]) := by
  refine of_lookup (fun key' id => ?_) ?_
  · rw [lookup_append_singleton_iff hnew, h.lookup]
    simp only [getElem?_append_singleton_iff, or_and_right, exists_or]
    refine or_congr_right ⟨?_, ?_⟩
    · rintro ⟨rfl, rfl⟩
      exact ⟨t, ⟨rfl, rfl⟩, ht⟩
    · rintro ⟨u, ⟨rfl, rfl⟩, hkey⟩
      exact ⟨Option.some.inj (hkey.symm.trans ht), rfl⟩
  · exact nodup_keys_append_singleton h.nodup hnew

/-- A change that keeps the keys of terms may be made. -/
theorem modify (h : IsIndex keyOf table terms) {i : TermId} {f : Term → Term}
    (hf : ∀ t, keyOf (f t) = keyOf t) : IsIndex keyOf table (terms.modify i f) := by
  refine of_lookup (fun key id => (h.lookup key id).trans ?_) h.nodup
  have hkeep : ∀ t : Term, keyOf (if i = id then f t else t) = keyOf t := by
    intro t
    split
    · exact hf t
    · rfl
  simp only [getElem?_modify_iff]
  constructor
  · rintro ⟨t, ht, hkey⟩
    exact ⟨_, ⟨t, ht, rfl⟩, (hkeep t).trans hkey⟩
  · rintro ⟨_, ⟨t, ht, rfl⟩, hkey⟩
    exact ⟨t, ht, (hkeep t).symm.trans hkey⟩

end IsIndex

/-- The name by which a symbol is looked up. -/
def Term.symbolName (t : Term) : Option String := if t.isLiteral then none else some t.name

/-- The text by which a literal is looked up, folded if case is ignored. -/
def Term.literalText (ignoreCase : Bool) (t : Term) : Option String :=
  if t.isLiteral then some (foldCase ignoreCase t.key) else none

theorem Term.symbolName_eq {t : Term} (h : t.isLiteral = false) : t.symbolName = some t.name := by
  rw [Term.symbolName, h]
  rfl

theorem Term.literalText_eq {ignoreCase : Bool} {t : Term} (h : t.isLiteral = true) :
    t.literalText ignoreCase = some (foldCase ignoreCase t.key) :=
  if_pos h

theorem Term.literalText_eq_none {ignoreCase : Bool} {t : Term} (h : t.isLiteral = false) :
    t.literalText ignoreCase = none := by
  rw [Term.literalText, h]
  rfl

namespace Definition

variable {d d' : Definition}

/-! ## Terms and tables -/

/-- Ids are places, and the tables are exactly the names of the symbols and the texts of the
literals. -/
structure Registered (d : Definition) : Prop where
  ids      : ∀ (i : TermId) (t : Term), d.terms[i]? = some t → t.id = i
  names    : IsIndex Term.symbolName d.names d.terms
  literals : IsIndex (Term.literalText d.ignoreCase) d.literals d.terms

namespace Registered

/-- The reserved terms are registered. -/
theorem ofStart (ignoreCase : Bool) : (start ignoreCase).Registered := by
  refine ⟨?_, ?_, ?_⟩
  · intro i t ht
    match i, ht with
    | 0, ht | 1, ht | 2, ht => cases ht; rfl
    | i + 3, ht => cases ht
  · exact ((IsIndex.nil.append_new rfl rfl).append_new rfl (by decide)).append_new rfl (by decide)
  · exact ((IsIndex.nil.append_other rfl).append_other rfl).append_other rfl

/-- A change of anything but the id, the kind, the name and the key may be made. -/
theorem modify (h : d.Registered) {i : TermId} {f : Term → Term}
    (hf : ∀ t, (f t).id = t.id ∧ (f t).kind = t.kind ∧ (f t).name = t.name ∧ (f t).key = t.key) :
    (d.modify i f).Registered := by
  refine ⟨?_, h.names.modify ?_, h.literals.modify ?_⟩
  · intro j u hu
    obtain ⟨t, ht, rfl⟩ := getElem?_modify_iff.mp hu
    rw [← h.ids j t ht]
    split
    · exact (hf t).1
    · rfl
  · intro t
    obtain ⟨-, hkind, hname, -⟩ := hf t
    rw [Term.symbolName, Term.symbolName, Term.isLiteral, Term.isLiteral, hkind, hname]
  · intro t
    obtain ⟨-, hkind, -, hkey⟩ := hf t
    rw [Term.literalText, Term.literalText, Term.isLiteral, Term.isLiteral, hkind, hkey]

theorem ids_append (h : d.Registered) {t : Term} (hid : t.id = d.terms.length) :
    ∀ (i : TermId) (u : Term), (d.terms ++ [t])[i]? = some u → u.id = i := by
  intro i u hu
  rcases getElem?_append_singleton_iff.mp hu with hu | ⟨rfl, rfl⟩
  · exact h.ids i u hu
  · exact hid

/-- A symbol that is not listed yet may be listed and added, with the next id. -/
theorem addNamed (h : d.Registered) {t : Term} (hname : d.findName t.name = none)
    (hid : t.id = d.terms.length) (hkind : t.isLiteral = false) :
    ((d.listName t.name).add t).Registered :=
  ⟨h.ids_append hid, h.names.append_new (Term.symbolName_eq hkind) hname,
    h.literals.append_other (Term.literalText_eq_none hkind)⟩

theorem change [Text.Xid] (h : d.Registered) (hd : d.Change d') : d'.Registered := by
  cases hd with
  | symbol hname hid hkind _ _ => exact h.addNamed hname hid hkind
  | literal _ hnew =>
    exact ⟨h.ids_append rfl, h.names.append_other rfl, h.literals.append_new rfl hnew⟩
  | repetition _ _ ht hname =>
    have hadd := h.addNamed hname (ht ▸ rfl) (ht ▸ rfl)
    exact ⟨hadd.ids, hadd.names, hadd.literals⟩
  | root _ => exact ⟨h.ids, h.names, h.literals⟩
  | operator _ => exact h.modify fun t => ⟨rfl, rfl, rfl, rfl⟩
  | priority _ => exact h.modify fun t => ⟨rfl, rfl, rfl, rfl⟩
  | nickname _ => exact h.modify fun t => ⟨rfl, rfl, rfl, rfl⟩

theorem rule (h : d.Registered) {lhs : TermId} {e : Expr} (hok : d.rule lhs e = .ok d') :
    d'.Registered := by
  obtain ⟨-, -, rfl⟩ := rule_ok hok
  exact h.modify fun t => ⟨rfl, rfl, rfl, rfl⟩

end Registered

theorem registered_ofCommands [Text.Xid] (ignoreCase : Bool) (commands : List Command) :
    (ofCommands ignoreCase commands).Registered :=
  ofCommands_of_change (Registered.ofStart ignoreCase) (fun _ _ h => h.change)
    (fun _ _ _ _ h => h.rule) commands

/-! ## Rules and precedences -/

/-- Rules and precedences are given to terms at the author's disposal only. -/
structure Assigned (d : Definition) : Prop where
  /-- No later term takes the place of a reserved one. -/
  reserved    : TermId.root < d.terms.length
  rules       : ∀ (i : TermId) (t : Term), d.terms[i]? = some t → t.rule.isSome = true →
    t.isTerminal = false ∧ i ≠ TermId.root
  precedences : ∀ (i : TermId) (t : Term), d.terms[i]? = some t → t.precedence.isSome = true →
    t.isTerminal = true ∧ i ≠ TermId.eof ∧ i ≠ TermId.empty

namespace Assigned

theorem ofStart (ignoreCase : Bool) : (start ignoreCase).Assigned := by
  have hplain : ∀ t ∈ (start ignoreCase).terms, t.rule = none ∧ t.precedence = none := by
    simp [start, Term.named]
  refine ⟨by simp [start, TermId.root], ?_, ?_⟩
  · intro i t ht hrule
    simp [(hplain t (List.mem_of_getElem? ht)).1] at hrule
  · intro i t ht hprecedence
    simp [(hplain t (List.mem_of_getElem? ht)).2] at hprecedence

/-- A term without a precedence may be added; with a rule, it has to be a nonterminal. -/
theorem append (h : d.Assigned) {t : Term} (hprecedence : t.precedence = none)
    (hrule : t.rule.isSome = true → t.isTerminal = false) (hterms : d'.terms = d.terms ++ [t]) :
    d'.Assigned := by
  have hreserved := h.reserved
  refine ⟨?_, ?_, ?_⟩
  · rw [hterms, List.length_append]
    exact Nat.lt_add_right _ hreserved
  · intro i u hu hsome
    rcases getElem?_append_singleton_iff.mp (hterms ▸ hu) with hu | ⟨rfl, rfl⟩
    · exact h.rules i u hu hsome
    · exact ⟨hrule hsome, Nat.ne_of_gt hreserved⟩
  · intro i u hu hsome
    rcases getElem?_append_singleton_iff.mp (hterms ▸ hu) with hu | ⟨rfl, rfl⟩
    · exact h.precedences i u hu hsome
    · simp [hprecedence] at hsome

/-- A term may be changed, given a rule only if it is a nonterminal of the author, and given a
precedence only if it is a terminal of the author. -/
theorem modify (h : d.Assigned) {i : TermId} {f : Term → Term}
    (hkind : ∀ t, (f t).kind = t.kind)
    (hrule : ∀ t, d.terms[i]? = some t → (f t).rule.isSome = true →
      t.rule.isSome = true ∨ (t.isTerminal = false ∧ i ≠ TermId.root))
    (hprecedence : ∀ t, d.terms[i]? = some t → (f t).precedence.isSome = true →
      t.precedence.isSome = true ∨ (t.isTerminal = true ∧ i ≠ TermId.eof ∧ i ≠ TermId.empty)) :
    (d.modify i f).Assigned := by
  have hterminal : ∀ t : Term, (f t).isTerminal = t.isTerminal := by
    intro t
    rw [Term.isTerminal, Term.isTerminal, hkind]
  refine ⟨?_, ?_, ?_⟩
  · rw [Definition.modify, List.length_modify]
    exact h.reserved
  · intro j u hu hsome
    obtain ⟨t, ht, rfl⟩ := getElem?_modify_iff.mp hu
    split at hsome
    · rename_i hij
      subst hij
      rw [if_pos rfl, hterminal]
      exact (hrule t ht hsome).elim (h.rules i t ht) id
    · rename_i hij
      rw [if_neg hij]
      exact h.rules j t ht hsome
  · intro j u hu hsome
    obtain ⟨t, ht, rfl⟩ := getElem?_modify_iff.mp hu
    split at hsome
    · rename_i hij
      subst hij
      rw [if_pos rfl, hterminal]
      exact (hprecedence t ht hsome).elim (h.precedences i t ht) id
    · rename_i hij
      rw [if_neg hij]
      exact h.precedences j t ht hsome

/-- A term may be changed if its kind, its rule and its precedence are kept. -/
theorem modify_other (h : d.Assigned) {i : TermId} {f : Term → Term}
    (hf : ∀ t, (f t).kind = t.kind ∧ (f t).rule = t.rule ∧ (f t).precedence = t.precedence) :
    (d.modify i f).Assigned :=
  h.modify (fun t => (hf t).1) (fun t _ hsome => Or.inl ((hf t).2.1 ▸ hsome))
    (fun t _ hsome => Or.inl ((hf t).2.2 ▸ hsome))

theorem change [Text.Xid] (h : d.Assigned) (hd : d.Change d') : d'.Assigned := by
  cases hd with
  | symbol _ _ _ hprecedence hrule =>
    refine h.append hprecedence (fun hsome => ?_) rfl
    rw [hrule] at hsome
    cases hsome
  | literal _ _ =>
    refine h.append rfl (fun hsome => ?_) rfl
    cases hsome
  | repetition _ _ ht _ => exact h.append (ht ▸ rfl) (fun _ => ht ▸ rfl) rfl
  | root _ => exact ⟨h.reserved, h.rules, h.precedences⟩
  | @operator id _ t hid =>
    obtain ⟨heof, hempty, ht, hterminal⟩ := userTerminal_ok hid
    refine h.modify (fun _ => rfl) (fun _ _ hsome => Or.inl hsome) (fun u hu _ => ?_)
    obtain rfl : t = u := Option.some.inj (ht.symm.trans hu)
    exact Or.inr ⟨hterminal, heof, hempty⟩
  | priority _ => exact h.modify_other fun t => ⟨rfl, rfl, rfl⟩
  | nickname _ => exact h.modify_other fun t => ⟨rfl, rfl, rfl⟩

theorem rule (h : d.Assigned) {lhs : TermId} {e : Expr} (hok : d.rule lhs e = .ok d') :
    d'.Assigned := by
  obtain ⟨-, ⟨t, hlhs⟩, rfl⟩ := rule_ok hok
  obtain ⟨hne, ht, hnonterminal⟩ := userNonterminal_ok hlhs
  refine h.modify (fun _ => rfl) (fun u hu _ => ?_) (fun _ _ hsome => Or.inl hsome)
  obtain rfl : t = u := Option.some.inj (ht.symm.trans hu)
  exact Or.inr ⟨hnonterminal, hne⟩

end Assigned

theorem assigned_ofCommands [Text.Xid] (ignoreCase : Bool) (commands : List Command) :
    (ofCommands ignoreCase commands).Assigned :=
  ofCommands_of_change (Assigned.ofStart ignoreCase) (fun _ _ h => h.change)
    (fun _ _ _ _ h => h.rule) commands

/-! ## Everything together -/

/-- Whatever a definition says twice agrees, and whatever it refers to is there. -/
structure Consistent (d : Definition) : Prop extends d.Registered, d.Assigned where
  /-- At any depth, a rule refers to terms that exist and are not the augmented root. -/
  operands : ∀ t ∈ d.terms, ∀ e, t.rule = some e → ∀ x, e.RefersTo x →
    x < d.terms.length ∧ x ≠ TermId.root
  root     : ∀ id, d.root = some id →
    id ≠ TermId.root ∧ ∃ t, d.terms[id]? = some t ∧ t.isTerminal = false

/-- **Every definition made by commands is consistent**, whichever of them are refused. -/
theorem consistent_ofCommands [Text.Xid] (ignoreCase : Bool) (commands : List Command) :
    (ofCommands ignoreCase commands).Consistent := by
  have hregistered := registered_ofCommands ignoreCase commands
  have hassigned := assigned_ofCommands ignoreCase commands
  have hformed := wellFormed_ofCommands ignoreCase commands
  refine { hregistered, hassigned with operands := ?_, root := hformed.root }
  intro t ht e he x hx
  exact isUsable_iff.mp (hx.passes (hformed.rules t ht e he))

end Definition

end Lalr

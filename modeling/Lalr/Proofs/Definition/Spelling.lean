import Lalr.Proofs.Definition.Collection

/-!
# How literals are spelled

A literal is declared by its text, and keeps it: as its key, and in its matcher. No command changes
either, and neither does collecting (**`spelled_ofCommands`**, **`Spelled.collect`**). Terms of
other kinds are not restricted; a terminal with a name may well be matched by a literal's matcher.
-/

namespace Lalr

/-- If the term is a literal, its key is its text, and its matcher looks for this text. -/
def Term.IsSpelled (t : Term) : Prop :=
  t.isLiteral = true → t.key ≠ "" ∧ t.matcher = some (.literal t.key false)

/-- All literals among the terms have their texts. -/
def Spelled (terms : List Term) : Prop := ∀ t ∈ terms, t.IsSpelled

theorem Term.isSpelled_of_symbol {t : Term} (h : t.isLiteral = false) : t.IsSpelled := by
  intro hliteral
  exact absurd hliteral (by simp [h])

theorem Term.isSpelled_ofText {id : TermId} {text : String} (h : text ≠ "") :
    (Term.ofText id text).IsSpelled :=
  fun _ => ⟨h, rfl⟩

namespace Spelled

variable {terms : List Term}

theorem append (h : Spelled terms) {t : Term} (ht : t.IsSpelled) : Spelled (terms ++ [t]) := by
  intro u hu
  rcases List.mem_append.mp hu with hu | hu
  · exact h u hu
  · exact List.mem_singleton.mp hu ▸ ht

/-- A change of anything but the kind, the key and the matcher may be made. -/
theorem modify (h : Spelled terms) {i : Nat} {f : Term → Term}
    (hf : ∀ t, (f t).kind = t.kind ∧ (f t).key = t.key ∧ (f t).matcher = t.matcher) :
    Spelled (terms.modify i f) := by
  intro u hu hliteral
  obtain ⟨j, hj⟩ := List.mem_iff_getElem?.mp hu
  rw [List.getElem?_modify] at hj
  obtain ⟨t, ht, hchanged⟩ := Option.map_eq_some_iff.mp hj
  have ht := h t (List.mem_of_getElem? ht)
  obtain ⟨hkind, hkey, hmatcher⟩ := hf t
  split at hchanged
  · subst hchanged
    rw [hkey, hmatcher]
    refine ht ?_
    rwa [Term.isLiteral, hkind] at hliteral
  · subst hchanged
    exact ht hliteral

/-! ## Commands -/

variable {d d' : Definition}

theorem change [Text.Xid] (h : Spelled d.terms) (hd : d.Change d') : Spelled d'.terms := by
  cases hd with
  | symbol _ _ hkind _ _ => exact h.append (Term.isSpelled_of_symbol hkind)
  | literal htext _ => exact h.append (Term.isSpelled_ofText htext)
  | repetition _ _ ht _ => exact h.append (Term.isSpelled_of_symbol (ht ▸ rfl))
  | root _ => exact h
  | operator _ => exact h.modify fun t => ⟨rfl, rfl, rfl⟩
  | priority _ => exact h.modify fun t => ⟨rfl, rfl, rfl⟩
  | nickname _ => exact h.modify fun t => ⟨rfl, rfl, rfl⟩

theorem rule (h : Spelled d.terms) {lhs : TermId} {e : Expr} (hok : d.rule lhs e = .ok d') :
    Spelled d'.terms := by
  obtain ⟨-, -, rfl⟩ := Definition.rule_ok hok
  exact h.modify fun t => ⟨rfl, rfl, rfl⟩

end Spelled

/-- **Every literal of a definition made by commands is spelled as it was declared.** -/
theorem spelled_ofCommands [Text.Xid] (ignoreCase : Bool) (commands : List Command) :
    Spelled (Definition.ofCommands ignoreCase commands).terms := by
  have hstart : Spelled (Definition.start ignoreCase).terms := by
    intro t ht
    simp only [Definition.start, List.mem_cons, List.not_mem_nil, or_false] at ht
    rcases ht with rfl | rfl | rfl <;> exact Term.isSpelled_of_symbol rfl
  exact Definition.ofCommands_of_change (P := fun d => Spelled d.terms) hstart
    (fun _ _ h => h.change) (fun _ _ _ _ h => h.rule) commands

/-! ## Collecting -/

/-- **Collecting keeps literals as they are spelled.** -/
theorem Spelled.collect {d : Definition} (h : Spelled d.terms) (root : TermId) :
    Spelled (d.collect root).terms := by
  refine Definition.collect_of_lift (P := Spelled) ?_ ?_ h
  · intro l as hl
    exact hl.append (Term.isSpelled_of_symbol rfl)
  · intro terms i f hf hterms
    exact hterms.modify fun t => ⟨by rw [hf t], by rw [hf t], by rw [hf t]⟩

end Lalr

import Lalr.Proofs.Compiled.Matchers
import Lalr.Proofs.Definition.Keys
import Lalr.Proofs.Definition.Literals

/-!
# Looking terms up

A compiled grammar looks terms up in two tables, one for symbols and one for literals, that are made
of its terms when everything is collected. The definition had tables of its own, in which names and
texts were entered call by call. The texts of literals are folded by both, and the text that is
looked up is folded a third time. All of this agrees: keys are as distinct as they were
(`indexed_of_compile`), and a text leads to the literal that it led to before (`findLiteral_eq`).

**`lookup_exact`** puts it together: keys are distinct, a symbol is found by its key, and a text
finds the literal that every call with this text has returned.
-/

namespace Lalr

open Text

/-! ## Tables of compiled terms -/

namespace IsIndex

variable {keyOf keyOf' : Term → Option String} {table : List (String × TermId)} {terms : List Term}

/-- Terms may be made ready in a way that keeps their keys. -/
theorem map (h : IsIndex keyOf table terms) {f : Term → Term} (hf : ∀ t, keyOf' (f t) = keyOf t) :
    IsIndex keyOf' table (terms.map f) := by
  refine of_lookup (fun key id => (h.lookup key id).trans ?_) h.nodup
  simp [List.getElem?_map, hf]

/-- **The table made of the terms** leads where an index does. -/
theorem lookup_keyTable {isOfKind : Term → Bool} (h : IsIndex (Term.keyIf isOfKind) table terms)
    (hids : ∀ (i : TermId) (t : Term), terms[i]? = some t → t.id = i) (key : String) :
    (keyTable isOfKind terms).lookup key = table.lookup key := by
  have hmem : ∀ id, (key, id) ∈ keyTable isOfKind terms ↔ table.lookup key = some id := by
    intro id
    rw [h.lookup, keyTable, List.mem_reverse, List.mem_map]
    constructor
    · rintro ⟨t, ht, hentry⟩
      obtain ⟨rfl, rfl⟩ := Prod.mk.inj hentry
      obtain ⟨ht, hkind⟩ := List.mem_filter.mp ht
      obtain ⟨i, hi⟩ := List.mem_iff_getElem?.mp ht
      exact ⟨t, (hids i t hi).symm ▸ hi, if_pos hkind⟩
    · rintro ⟨t, ht, hkey⟩
      obtain ⟨hkind, rfl⟩ : isOfKind t = true ∧ t.key = key := by simpa [Term.keyIf] using hkey
      exact ⟨t, List.mem_filter.mpr ⟨List.mem_of_getElem? ht, hkind⟩, by rw [hids id t ht]⟩
  cases hlookup : (keyTable isOfKind terms).lookup key with
  | some id => exact ((hmem id).mp (mem_of_lookup_eq_some hlookup)).symm
  | none =>
    refine (Option.eq_none_iff_forall_ne_some.mpr fun id hid => ?_).symm
    exact not_mem_of_lookup_eq_none hlookup ((hmem id).mpr hid)

end IsIndex

namespace Term

/-- The key of a literal is folded, and other keys stay. -/
theorem key_normalize (ignoreCase : Bool) (t : Term) :
    (t.normalize ignoreCase).key = if t.isLiteral then foldCase ignoreCase t.key else t.key := by
  unfold normalize
  split <;> rfl

theorem keyIf_symbol_compiled (ignoreCase : Bool) (keywords : List String) (t : Term) :
    (t.compiled ignoreCase keywords).keyIf (!·.isLiteral) = t.keyIf (!·.isLiteral) := by
  show (t.normalize ignoreCase).keyIf (!·.isLiteral) = _
  simp only [keyIf, isLiteral_normalize, key_normalize]
  by_cases hliteral : t.isLiteral = true <;> simp [hliteral]

theorem keyIf_literal_compiled (ignoreCase : Bool) (keywords : List String) (t : Term) :
    (t.compiled ignoreCase keywords).keyIf isLiteral = t.literalText ignoreCase := by
  show (t.normalize ignoreCase).keyIf isLiteral = _
  simp only [keyIf, literalText, isLiteral_normalize, key_normalize]
  by_cases hliteral : t.isLiteral = true <;> simp [hliteral]

end Term

namespace Compiled

open Definition

variable {c : Compiled} {ignoreCase : Bool} {commands : List Command}

/-- Ids are places, and both tables are indices: the one of literals is that of the definition. -/
structure Indexed (c : Compiled) (d : Definition) : Prop where
  ids      : ∀ (i : TermId) (t : Term), c.terms[i]? = some t → t.id = i
  symbols  : ∃ table, IsIndex (Term.keyIf (!·.isLiteral)) table c.terms
  literals : IsIndex (Term.keyIf Term.isLiteral) d.literals c.terms

theorem indexed_of_compile [Text.Xid] (h : (ofCommands ignoreCase commands).compile = .ok c) :
    c.Indexed (ofCommands ignoreCase commands) := by
  obtain ⟨root, -, rfl⟩ := compile_ok h
  obtain ⟨hids, ⟨table, hsymbols⟩, hliterals⟩ := (keyed_ofCommands ignoreCase commands).collect root
  refine ⟨?_, ⟨table, ?_⟩, ?_⟩
  · intro i t ht
    rw [terms_compileCollection, List.getElem?_map] at ht
    obtain ⟨u, hu, rfl⟩ := Option.map_eq_some_iff.mp ht
    exact (u.id_normalize _).trans (hids i u hu)
  · rw [terms_compileCollection]
    exact hsymbols.map (Term.keyIf_symbol_compiled _ _)
  · rw [terms_compileCollection]
    exact hliterals.map (Term.keyIf_literal_compiled _ _)

theorem ignoreCase_of_compile [Text.Xid] (h : (ofCommands ignoreCase commands).compile = .ok c) :
    c.ignoreCase = ignoreCase := by
  obtain ⟨root, -, rfl⟩ := compile_ok h
  exact ignoreCase_ofCommands ignoreCase commands

namespace Indexed

variable {d : Definition} (h : c.Indexed d)

include h

/-- Terms of the same kind have different keys. -/
theorem eq_of_key {i j : TermId} {t u : Term} (ht : c.terms[i]? = some t)
    (hu : c.terms[j]? = some u) (hkind : t.isLiteral = u.isLiteral) (hkey : t.key = u.key) :
    i = j := by
  obtain ⟨table, hsymbols⟩ := h.symbols
  cases hliteral : t.isLiteral with
  | true =>
    refine h.literals.eq_of_key ht hu (if_pos hliteral) ?_
    rw [Term.keyIf, if_pos (hkind ▸ hliteral), hkey]
  | false =>
    have hsymbol : t.keyIf (!·.isLiteral) = some t.key := by simp [Term.keyIf, hliteral]
    refine hsymbols.eq_of_key ht hu hsymbol ?_
    simp [Term.keyIf, ← hkind, hliteral, hkey]

/-- A symbol is found by its key, whatever literal has the same spelling. -/
theorem findKey_eq {i : TermId} {t : Term} (ht : c.terms[i]? = some t)
    (hsymbol : t.isLiteral = false) : c.findKey t.key = some i := by
  obtain ⟨table, hsymbols⟩ := h.symbols
  have hlookup : table.lookup t.key = some i :=
    (hsymbols.lookup _ _).mpr ⟨t, ht, by simp [Term.keyIf, hsymbol]⟩
  rw [findKey, hsymbols.lookup_keyTable h.ids, hlookup, Option.some_or]

/-- **A text finds the literal that it found in the definition.** -/
theorem findLiteral_eq (hcase : c.ignoreCase = d.ignoreCase) (text : String) :
    c.findLiteral text = d.findLiteral text := by
  rw [findLiteral, h.literals.lookup_keyTable h.ids, hcase, Definition.findLiteral]

end Indexed

/-- **Look-up is exact.** In a compiled grammar, no two symbols have the same key and no two literals
have, and a symbol is found by its key. Every call of the script for a literal, unless the text is
empty, returns a term, and this term is found by the text. Up to case, if case is ignored, a text
finds the term that all calls for it have returned, and none if there were none. -/
theorem lookup_exact [Text.Xid] (h : (ofCommands ignoreCase commands).compile = .ok c) :
    (∀ (i j : TermId) (t u : Term), c.terms[i]? = some t → c.terms[j]? = some u →
      t.isLiteral = u.isLiteral → t.key = u.key → i = j) ∧
    (∀ (i : TermId) (t : Term), c.terms[i]? = some t →
      t.id = i ∧ (t.isLiteral = false → c.findKey t.key = some i)) ∧
    (∀ before text after, commands = before ++ .literal text :: after → text ≠ "" →
      ∃ id, ((ofCommands ignoreCase before).apply (.literal text)).2 = .ok (some id) ∧
        c.findLiteral text = some id) ∧
    ∀ text id, (c.findLiteral text = some id ↔ ∃ text',
        foldCase ignoreCase text' = foldCase ignoreCase text ∧
          LiteralReturns ignoreCase commands text' id) ∧
      (c.findLiteral text = some id → ∃ t, c.terms[id]? = some t ∧ t.isLiteral = true ∧
        t.key = foldCase ignoreCase text) := by
  have hindexed := indexed_of_compile h
  have hfind : ∀ text, c.findLiteral text =
      (ofCommands ignoreCase commands).literals.lookup (foldCase ignoreCase text) := by
    intro text
    have hcase := (ignoreCase_of_compile h).trans (ignoreCase_ofCommands ignoreCase commands).symm
    rw [hindexed.findLiteral_eq hcase, Definition.findLiteral, ignoreCase_ofCommands]
  have hrecord := lookup_literals_ofCommands ignoreCase commands
  refine ⟨fun i j t u => hindexed.eq_of_key, fun i t ht => ⟨hindexed.ids i t ht, ?_⟩, ?_, ?_⟩
  · exact hindexed.findKey_eq ht
  · intro before text after hcommands htext
    obtain ⟨id, hreturned⟩ := apply_literal_ok (ofCommands ignoreCase before) htext
    refine ⟨id, hreturned, ?_⟩
    rw [hfind, hrecord]
    exact ⟨text, rfl, before, after, hcommands, hreturned⟩
  · intro text id
    rw [hfind]
    refine ⟨hrecord _ id, fun hlookup => ?_⟩
    obtain ⟨t, ht, hkey⟩ := (hindexed.literals.lookup _ _).mp hlookup
    exact ⟨t, ht, by simpa [Term.keyIf] using hkey⟩

/-- A script that ignores case and lifts an expression, with a nonterminal called `unnamed0`. -/
def unnamedTaken : List Command :=
  [.literal "Let", .literal "b", .nonterminal "unnamed0",
    .rule 5 ⟨[[.term 3, .nested [[.term 3], [.term 4]]]]⟩, .literal "LET", .root 5]

/-- The grammar of the script, compiled. -/
def unnamedTakenCompiled : Compiled :=
  let d := ofCommands true unnamedTaken
  d.compileCollection 5 (d.collect 5)

theorem lookup_exact_unnamedTaken :
    (ofCommands true unnamedTaken).compile = .ok unnamedTakenCompiled ∧
      unnamedTakenCompiled.findKey "unnamed0" = some 5 ∧
      unnamedTakenCompiled.findKey "unnamed1" = some 6 ∧
      ((ofCommands true (unnamedTaken.take 4)).apply (.literal "LET")).2 = .ok (some 3) ∧
      unnamedTakenCompiled.findLiteral "lEt" = some 3 := by
  have hcompile : (ofCommands true unnamedTaken).compile = .ok unnamedTakenCompiled :=
    compile_eq_ok (by decide) (by decide)
  obtain ⟨-, hsymbols, -, hliterals⟩ := lookup_exact hcompile
  have hreturned : ((ofCommands true (unnamedTaken.take 4)).apply (.literal "LET")).2 =
      .ok (some 3) := by decide
  have hfound := (hliterals "lEt" 3).1.mpr
    ⟨"LET", by decide, unnamedTaken.take 4, [.root 5], rfl, hreturned⟩
  exact ⟨hcompile, (hsymbols 5 _ rfl).2 rfl, (hsymbols 6 _ rfl).2 rfl, hreturned, hfound⟩

end Compiled

end Lalr

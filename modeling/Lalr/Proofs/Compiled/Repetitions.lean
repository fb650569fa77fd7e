import Lalr.Proofs.Compiled.Desugaring
import Lalr.Proofs.Compiled.Failure
import Lalr.Proofs.Definition.Repetitions

/-!
# What the nonterminals of repetitions derive

The language of a term of a compiled grammar is made of the words of terminals that the productions
derive from it (`Compiled.language`). **`language_repetition`**: unless the script adds a rule of
its own to the nonterminal of a repetition, that nonterminal derives what the sign of the repetition
says, for any element and any separator.

What a repetition means was shown of the rules of the definition. It remains that collected terms
derive what they mean (`language_eq_operandLanguage`), and that with a repetition its element and
its separator are collected (`WellFormed.mem_found_of_repetition`).
-/

namespace Lalr

/-- The rule of a repetition mentions its element and its separator, except that of `x*[s]`. -/
theorem Repetition.mem_levelTerms_rule {r : Repetition} (h : ∀ x s, r ≠ .zeroOrMoreSep x s)
    (self plus : TermId) {x : TermId} (hx : x ∈ r.terms) :
    x ∈ Operand.levelTerms (r.rule self plus).alternatives := by
  cases r with
  | optional y => exact List.mem_append_left [TermId.empty] hx
  | oneOrMore y => exact List.mem_cons_of_mem self (List.mem_append_left [y] hx)
  | zeroOrMore y => exact List.mem_append_right [TermId.empty, self] hx
  | oneOrMoreSep y s =>
    have hx : x = y ∨ x = s := by simpa [Repetition.terms] using hx
    show x ∈ [self, s, y, y]
    rcases hx with rfl | rfl <;> simp
  | zeroOrMoreSep y s => exact absurd rfl (h y s)

namespace Definition

variable {d : Definition} {root : TermId}

/-- What the rule of a collected term mentions outside nested expressions is collected as well. -/
theorem WellFormed.mem_found_of_mem_levelTerms (hd : d.WellFormed) (hroot : d.root = some root)
    {a b : TermId} {t : Term} {e : Expr} (ha : a ∈ (d.collect root).found) (hne : a ≠ TermId.root)
    (ht : d.terms[a]? = some t) (hterm : t.isTerminal = false) (hrule : t.rule = some e)
    (hb : b ∈ Operand.levelTerms e.alternatives) (hempty : b ≠ TermId.empty) :
    b ∈ (d.collect root).found := by
  obtain ⟨visited, origin, ids, htraced, hfound, -, hdiscovers⟩ := hd.traced_collect hroot
  obtain ⟨hwalk, -⟩ := hd.walk_collect hroot hd.rules
  by_cases heof : b = TermId.eof
  · rw [hfound, heof]
    exact List.mem_cons_self
  have hreserved := hd.not_reserved ht hterm
  have haids : a ∈ ids := by
    have hneof : a ≠ TermId.eof := by
      rintro rfl
      exact absurd hreserved (by decide)
    rw [hfound, List.mem_cons, List.mem_cons] at ha
    exact (ha.resolve_left hneof).resolve_left hne
  have hreach : Reach d.successors [.term root] (.term a) :=
    hdiscovers.mem_iff.mp
      (List.mem_map.mpr ⟨a, haids, htraced.own a (List.getElem?_eq_some_iff.mp ht).1⟩)
  have hstep : Site.term b ∈ d.successors (.term a) :=
    mem_successors.mpr ⟨e.alternatives, alternativesIn_eq_some_iff.mpr ⟨t, ht, hterm, hrule⟩,
      (Site.term_mem_mentions 0 _).mpr hb, by simp [Site.isReserved, heof, hempty]⟩
  -- The term reached is its own origin.
  obtain ⟨i, hi, horigin⟩ := List.mem_map.mp (hdiscovers.mem_iff.mpr (hreach.step hstep))
  have hmem : i ∈ (d.collect root).found := by
    rw [hfound]
    exact List.mem_cons_of_mem _ (List.mem_cons_of_mem _ hi)
  have husable : d.isUsable b = true :=
    Collection.onTerm_of_mem_levelTerms (hd.rules t (List.mem_of_getElem? ht) e hrule) hb
  have hown : i = b := (htraced.origin_eq_term_iff hwalk.terms_length_le (hwalk.bound i hmem).1
    (isUsable_iff.mp husable).1).mp horigin
  exact hown ▸ hmem

/-- The element and the separator of a repetition are usable, and they are collected with it. -/
theorem WellFormed.mem_found_of_repetition (hd : d.WellFormed) (hroot : d.root = some root)
    (hintact : d.RepetitionsIntact) {r : Repetition} {id x : TermId}
    (hr : (r, id) ∈ d.repetitions) (hid : id ∈ (d.collect root).found) (hx : x ∈ r.terms) :
    d.isUsable x = true ∧ (x ≠ TermId.empty → x ∈ (d.collect root).found) := by
  have hlevel : ∀ {r id}, (r, id) ∈ d.repetitions → id ∈ (d.collect root).found →
      ∃ plus, r.RestsOn d plus ∧ ∀ x ∈ Operand.levelTerms (r.rule id plus).alternatives,
        d.isUsable x = true ∧ (x ≠ TermId.empty → x ∈ (d.collect root).found) := by
    intro r id hr hid
    obtain ⟨t, plus, ht, hterm, hrule, hplus⟩ := hintact r id hr
    have hne := (isUsable_iff.mp (hd.repetitions r id hr)).2
    have husable := hd.rules t (List.mem_of_getElem? ht) _ hrule
    exact ⟨plus, hplus, fun x hx => ⟨Collection.onTerm_of_mem_levelTerms husable hx, fun hempty =>
      hd.mem_found_of_mem_levelTerms hroot hid hne ht hterm hrule hx hempty⟩⟩
  obtain ⟨plus, hplus, hfound⟩ := hlevel hr hid
  by_cases hsep : ∃ y s, r = .zeroOrMoreSep y s
  · -- The rule mentions `y+[s]`, whose rule mentions the two terms.
    obtain ⟨y, s, rfl⟩ := hsep
    have hplus' : (.oneOrMoreSep y s, plus) ∈ d.repetitions := hplus
    obtain ⟨t, _, ht, hterm, -⟩ := hintact _ plus hplus'
    have hplusFound : plus ∈ (d.collect root).found :=
      (hfound plus (List.mem_cons_of_mem _ List.mem_cons_self)).2 (hd.ne_empty ht hterm)
    obtain ⟨_, -, hfound'⟩ := hlevel hplus' hplusFound
    exact hfound' x (Repetition.mem_levelTerms_rule (by simp) _ _ hx)
  · exact hfound x (Repetition.mem_levelTerms_rule (fun y s h => hsep ⟨y, s, h⟩) _ _ hx)

end Definition

namespace Compiled

open Definition

variable {c : Compiled} {id : TermId}

/-- **The words that a term stands for**: the words of terminals derived from it, and for the empty
term the empty word. -/
def language (c : Compiled) : Interpretation := fun id =>
  if id = TermId.empty then 1 else {w | (∀ x ∈ w, c.isTerminal x = true) ∧ c.cfg.Derives [id] w}

theorem language_empty (c : Compiled) : c.language TermId.empty = 1 := if_pos rfl

theorem mem_language (hid : id ≠ TermId.empty) {w : List TermId} :
    w ∈ c.language id ↔ (∀ x ∈ w, c.isTerminal x = true) ∧ c.cfg.Derives [id] w := by
  rw [show c.language id = {w | (∀ x ∈ w, c.isTerminal x = true) ∧ c.cfg.Derives [id] w} from
    if_neg hid]
  rfl

/-- A collected term of the definition stands for the words that it means as an operand. -/
theorem language_eq_operandLanguage [Text.Xid] {d : Definition} (hd : d.WellFormed) {root : TermId}
    (hroot : d.root = some root) (husable : d.isUsable id = true)
    (hfound : id ≠ TermId.empty → id ∈ (d.collect root).found) :
    (d.compileCollection root (d.collect root)).language id =
      operandLanguage (meaningIn d.terms) id := by
  by_cases hempty : id = TermId.empty
  · rw [hempty, operandLanguage_empty, language_empty]
  obtain ⟨-, hvisited⟩ := hd.walk_collect hroot hd.rules
  have hmean := fun w => Collection.mem_meaningIn_iff (w := w) hvisited (hfound hempty)
  ext w
  rw [operandLanguage_of_ne _ hempty, ← hd.meaningIn_collect hroot husable, mem_language hempty]
  simp only [isTerminal_compileCollection]
  constructor
  · rintro ⟨hw, hderives⟩
    exact (hmean w hw).mpr hderives
  · intro hw
    have hterminals : ∀ x ∈ w, (d.collect root).isTerminal x = true := isTerminal_of_mem_meaning hw
    exact ⟨hterminals, (hmean w hterminals).mp hw⟩

/-- **Repetitions derive what they say**, in every compiled grammar whose script has no `rule` for
the nonterminal of a repetition: `x?` the words of `x` and the empty word, `x+` and `x*` the words
of `x` in a row, and `x+[s]` and `x*[s]` such words with a word of `s` between two of them. -/
theorem language_repetition [Text.Xid] {ignoreCase : Bool} {commands : List Command}
    (h : (ofCommands ignoreCase commands).compile = .ok c)
    (hspares : (start ignoreCase).sparesRepetitions commands = true) {r : Repetition}
    (hr : (r, id) ∈ (ofCommands ignoreCase commands).repetitions) (hid : id ∈ c.cfg.nonterminals) :
    c.language id = r.language c.language := by
  have hd := wellFormed_ofCommands ignoreCase commands
  have hintact := repetitionsIntact_ofCommands hspares
  obtain ⟨root, hroot, rfl⟩ := compile_ok h
  have hfound := (Collection.mem_nonterminals.mp hid).1
  have hne : id ≠ TermId.empty := (hintact.equations_eq hd hr).1
  rw [language_eq_operandLanguage hd hroot (hd.repetitions r id hr) fun _ => hfound,
    operandLanguage_of_ne _ hne, hintact.meaningIn_eq hd hr]
  refine Repetition.language_congr fun x hx => ?_
  obtain ⟨husable, hcollected⟩ := hd.mem_found_of_repetition hroot hintact hr hfound hx
  exact (language_eq_operandLanguage hd hroot husable hcollected).symm

/-- Nested lists of the letter `a` in parentheses, separated by commas: `E` is `a` or
`( E*[,] )`. -/
def letterLists : List Command :=
  [.literal "a", .literal ",", .literal "(", .literal ")", .nonterminal "E",
    .repetition (.zeroOrMoreSep 7 4), .rule 7 ⟨[[.term 3], [.term 5, .term 9, .term 6]]⟩, .root 7]

/-- The lists, compiled. -/
def letterListsCompiled : Compiled :=
  let d := ofCommands false letterLists
  d.compileCollection 7 (d.collect 7)

theorem language_repetition_letterLists :
    (ofCommands false letterLists).compile = .ok letterListsCompiled ∧
      (start false).sparesRepetitions letterLists = true ∧
      (.zeroOrMoreSep 7 4, 9) ∈ (ofCommands false letterLists).repetitions ∧
      9 ∈ letterListsCompiled.cfg.nonterminals ∧
      letterListsCompiled.cfg.Derives [9] [3, 4, 5, 6] := by
  have hcompile : (ofCommands false letterLists).compile = .ok letterListsCompiled :=
    compile_eq_ok (by decide) (by decide)
  have hspares : (start false).sparesRepetitions letterLists = true := by decide
  have hmem : (.zeroOrMoreSep 7 4, 9) ∈ (ofCommands false letterLists).repetitions := by
    decide
  have hid : 9 ∈ letterListsCompiled.cfg.nonterminals := by decide
  have hequation := language_repetition hcompile hspares hmem hid
  have hderives : ∀ {w}, w ∈ letterListsCompiled.language 9 →
      letterListsCompiled.cfg.Derives [9] w :=
    fun hw => ((mem_language (by decide)).mp hw).2
  have hnone : letterListsCompiled.cfg.Derives [9] [] := hderives (hequation ▸ Or.inr rfl)
  have hletter : [3] ∈ letterListsCompiled.language 7 :=
    (mem_language (by decide)).mpr ⟨by decide,
      Cfg.Derives.of_rhs (p := ⟨7, [3], []⟩) (by decide) (.refl [3])⟩
  have hcomma : [4] ∈ letterListsCompiled.language 4 :=
    (mem_language (by decide)).mpr ⟨by decide, .refl [4]⟩
  have hlist : [5, 6] ∈ letterListsCompiled.language 7 :=
    (mem_language (by decide)).mpr ⟨by decide,
      Cfg.Derives.of_rhs (p := ⟨7, [5, 9, 6], []⟩) (by decide)
        (Cfg.Derives.append (.refl [5]) (hnone.append (.refl [6])))⟩
  have hword : [3, 4, 5, 6] ∈ letterListsCompiled.language 9 := by
    have hmore : [4, 5, 6] ∈ letterListsCompiled.language 4 * letterListsCompiled.language 7 :=
      Language.mem_mul.mpr ⟨[4], hcomma, [5, 6], hlist, rfl⟩
    have hstar := Language.mem_kstar.mpr ⟨[[4, 5, 6]], rfl, by simpa using hmore⟩
    rw [hequation]
    exact Or.inl (Language.mem_mul.mpr ⟨[3], hletter, [4, 5, 6], hstar, rfl⟩)
  exact ⟨hcompile, hspares, hmem, hid, hderives hword⟩

end Compiled

end Lalr

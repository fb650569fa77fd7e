import Lalr.Proofs.Cfg.Tree
import Lalr.Proofs.Compiled.Built
import Lalr.Proofs.Definition.Meaning

/-!
# Desugaring keeps the language

Compiling unfolds the rules of a definition into productions: nested expressions become
nonterminals of their own, empty terms and hints are dropped. None of this changes what a
nonterminal of the definition stands for. Three steps show it, each about the meaning of rules as
the least solution of their equations:

* the augmented root is mentioned by no rule, so setting it up changes nothing else
  (`WellFormed.meaningIn_augment`);
* a visit replaces nested expressions by new terms with the same meaning, and so does the whole
  walk (**`Walk.meaningIn_visit`**, `Walk.meaningIn_visitFrom`);
* once nothing is nested, a rule means what its productions derive
  (**`Collection.mem_meaningIn_iff`**).

**`language_preserved`** puts them together: a word of terminals is denoted by the expressions
passed to the rule of a nonterminal iff the compiled grammar derives it.
-/

namespace Lalr

variable {env env' : Interpretation}

/-- The equation of a term depends on the term alone. -/
theorem equations_of_getElem? {terms terms' : List Term} {id : TermId}
    (h : terms[id]? = terms'[id]?) :
    equations (isTerminalIn terms) (rulesIn terms) env id =
      equations (isTerminalIn terms') (rulesIn terms') env id := by
  show (if isTerminalIn terms id then _ else ((rulesIn terms id).map _).sum) =
    (if isTerminalIn terms' id then _ else ((rulesIn terms' id).map _).sum)
  rw [isTerminalIn, isTerminalIn, rulesIn, rulesIn, h]

/-- The equation of a term looks at what its rule mentions. -/
theorem equations_congr {terms : List Term} {id : TermId}
    (h : ∀ t e, terms[id]? = some t → t.rule = some e → e.language env = e.language env') :
    equations (isTerminalIn terms) (rulesIn terms) env id =
      equations (isTerminalIn terms) (rulesIn terms) env' id := by
  have hrule : ruleLanguage terms env id = ruleLanguage terms env' id := by
    cases hid : terms[id]?.bind Term.rule with
    | none => rw [ruleLanguage_of_none hid, ruleLanguage_of_none hid]
    | some e =>
      obtain ⟨t, ht, he⟩ := Option.bind_eq_some_iff.mp hid
      rw [ruleLanguage_of_rule ht he, ruleLanguage_of_rule ht he]
      exact h t e ht he
  show (if _ then _ else ruleLanguage terms env id) = (if _ then _ else ruleLanguage terms env' id)
  rw [hrule]

/-! ## Lifting -/

namespace Lifting

/-- The new terms mean what their rules do. -/
def Explains (env : Interpretation) (old terms : List Term) : Prop :=
  ∀ i t e, old.length ≤ i → terms[i]? = some t → t.rule = some e → env i = e.language env

theorem Explains.mono {old old' terms terms' : List Term} (h : Explains env old terms')
    (hold : old <+: old') (hterms : terms <+: terms') : Explains env old' terms := by
  intro i t e hi ht he
  refine h i t e (Nat.le_trans hold.length_le hi) ?_ he
  obtain ⟨more, rfl⟩ := hterms
  rw [List.getElem?_append_left (List.getElem?_eq_some_iff.mp ht).1, ht]

theorem language_operand {l : Lifting} (hthree : 3 ≤ l.terms.length) (o : Operand)
    (h : Explains env l.terms (l.operand o).1.terms) :
    (l.operand o).2.language env = o.language env := by
  cases o with
  | term id => rfl
  | hint mark => rfl
  | nested alternatives =>
    have hne : l.terms.length ≠ TermId.empty := Nat.ne_of_gt (Nat.lt_of_lt_of_le (by decide) hthree)
    have hnew := h l.terms.length _ ⟨alternatives⟩ (Nat.le_refl _)
      (List.getElem?_concat_length : (l.terms ++ [_])[l.terms.length]? = _) rfl
    show Operand.language env (.term l.terms.length) = _
    rw [Operand.language, if_neg hne, hnew]
    rfl

theorem language_sequence : ∀ {s : List Operand} {l : Lifting}, 3 ≤ l.terms.length →
    Explains env l.terms (l.sequence s).1.terms →
    Operand.languageSequence env (l.sequence s).2 = Operand.languageSequence env s
  | [], _, _, _ => rfl
  | o :: rest, l, hthree, h => by
    have hprefix := l.operand_extends o
    have hfirst := l.language_operand hthree o
      (h.mono List.prefix_rfl (sequence_extends rest _))
    have hrest := language_sequence (Nat.le_trans hthree hprefix.length_le)
      (h.mono hprefix List.prefix_rfl : Explains env (l.operand o).1.terms _)
    simp only [Lifting.sequence, Operand.languageSequence, hfirst, hrest]

/-- **Lifting keeps the meaning**, if the terms it makes mean what their rules do. -/
theorem language_alternatives : ∀ {as : List (List Operand)} {l : Lifting}, 3 ≤ l.terms.length →
    Explains env l.terms (l.alternatives as).1.terms →
    Operand.languageAlternatives env (l.alternatives as).2 = Operand.languageAlternatives env as
  | [], _, _, _ => rfl
  | s :: rest, l, hthree, h => by
    have hprefix := sequence_extends s l
    have hfirst := language_sequence hthree
      (h.mono List.prefix_rfl (alternatives_extends rest _))
    have hrest := language_alternatives (Nat.le_trans hthree hprefix.length_le)
      (h.mono hprefix List.prefix_rfl : Explains env (l.sequence s).1.terms _)
    simp only [Lifting.alternatives, Operand.languageAlternatives, hfirst, hrest]

end Lifting

/-! ## Walking -/

namespace Collection

variable {d : Definition} {root : TermId} {onHint : Hint → Bool} {c : Collection}

/-- A solution of the equations after a visit explains the terms that the visit makes. -/
theorem explains_visit {id : TermId} {t : Term} {e : Expr} {new : List Term}
    {flat : List (List Operand)} (ht : c.terms[id]? = some t) (hterm : t.isTerminal = false)
    (he : t.rule = some e) (v : Visit onHint c (c.visit id) id t e new flat)
    (hout : ∀ i, c.terms.length ≤ i →
      equations (isTerminalIn (c.visit id).terms) (rulesIn (c.visit id).terms) env i = env i) :
    Lifting.Explains env c.lifting.terms
      (c.lifting.alternatives e.alternatives).1.terms := by
  intro i u e' hi hu he'
  have hlt : id < c.terms.length := (List.getElem?_eq_some_iff.mp ht).1
  have hu' : (c.visit id).terms[i]? = some u := by
    rw [visit_terms ht hterm he, List.getElem?_modify, hu]
    simp [Nat.ne_of_lt (Nat.lt_of_lt_of_le hlt hi)]
  have hnew : u.isTerminal = false := by
    obtain ⟨rfl, -⟩ | hold | ⟨-, hnew⟩ := v.term_cases hu'
    · exact absurd hlt (Nat.not_lt.mpr hi)
    · exact absurd (List.getElem?_eq_some_iff.mp hold).1 (Nat.not_lt.mpr hi)
    · exact (v.lifted.kind u hnew).1
  rw [← hout i hi, equations_of_nonterminal (by simp [isTerminalIn, hu', hnew]),
    ruleLanguage_of_rule hu' he']

/-- **A visit keeps the meaning of the terms there are.** -/
theorem Walk.meaningIn_visit (h : Walk d root onHint c) (hd : d.WellFormed) (id : Nat) {j : TermId}
    (hj : j < c.terms.length) : meaningIn (c.visit id).terms j = meaningIn c.terms j := by
  by_cases hrule : ∃ t e, c.terms[id]? = some t ∧ t.isTerminal = false ∧ t.rule = some e
  · obtain ⟨t, e, ht, hterm, he⟩ := hrule
    obtain ⟨new, v⟩ := h.visit_spec hd ht hterm he
    have hlt := (List.getElem?_eq_some_iff.mp ht).1
    refine (meaning_eq_of_agree (fun j => j < c.terms.length) ?_ ?_ ?_ hj).symm
    · intro env hout j hj
      by_cases hself : j = id
      · subst hself
        have hkind : isTerminalIn c.terms j = false := by simp [isTerminalIn, ht, hterm]
        have hkind' : isTerminalIn (c.visit j).terms j = false := by
          rw [isTerminalIn, v.getElem?_self]
          exact hterm
        rw [equations_of_nonterminal hkind, equations_of_nonterminal hkind',
          ruleLanguage_of_rule ht he, ruleLanguage_of_rule v.getElem?_self rfl]
        refine (Lifting.language_alternatives (h.length_le hd) ?_).symm
        exact explains_visit ht hterm he v fun i hi => hout i (Nat.not_lt.mpr hi)
      · exact equations_of_getElem? (v.getElem?_other hj hself).symm
    · intro env env' hsame j hj
      refine equations_congr fun u e' hu he' => ?_
      refine Expr.language_congr ?_ (h.rules u (List.mem_of_getElem? hu) e' he')
      exact fun x hx => hsame x (usable_iff.mp hx).1
    · intro env env' hsame j hj
      refine equations_congr fun u e' hu he' => ?_
      obtain ⟨rfl, -⟩ | hold | ⟨-, hnew⟩ := v.term_cases hu
      · exact absurd hlt hj
      · exact absurd (List.getElem?_eq_some_iff.mp hold).1 hj
      · refine Expr.language_congr ?_ (v.lifted.rules u hnew e' he')
        exact fun x hx => hsame x (usable_iff.mp hx).1
  · have hsame : c.visit id = c := visit_eq_self fun t e ht hterm he => hrule ⟨t, e, ht, hterm, he⟩
    rw [hsame]

/-- **The whole walk keeps the meaning of the terms of the definition.** -/
theorem Walk.meaningIn_visitFrom (hd : d.WellFormed) {j : TermId} (hj : j < d.terms.length) :
    ∀ (fuel cursor : Nat) {c : Collection}, Walk d root onHint c →
      meaningIn (c.visitFrom fuel cursor).terms j = meaningIn c.terms j
  | 0, _, _, _ => rfl
  | fuel + 1, cursor, c, h => by
    unfold Collection.visitFrom
    cases hcursor : c.found[cursor]? with
    | none => rfl
    | some id =>
      have hid := (h.bound id (List.mem_of_getElem? hcursor)).1
      rw [← h.meaningIn_visit hd id (Nat.lt_of_lt_of_le hj h.terms_length_le)]
      exact Walk.meaningIn_visitFrom hd hj fuel (cursor + 1) (h.visit hd hid).1

/-! ## Productions -/

theorem languageSequence_eq_prod : ∀ {s : List Operand}, Operand.nestedCountSequence s = 0 →
    Operand.languageSequence env s = ((Production.symbols s).map env).prod
  | [], _ => rfl
  | o :: rest, h => by
    obtain ⟨ho, hrest⟩ := Nat.add_eq_zero_iff.mp h
    rw [Operand.languageSequence, languageSequence_eq_prod hrest]
    cases o with
    | term id =>
      by_cases hid : id = TermId.empty
      · simp [Operand.language, Production.symbols, Operand.term?, hid]
      · simp [Operand.language, Production.symbols, Operand.term?, hid]
    | hint mark =>
      rw [Operand.language, one_mul]
      rfl
    | nested alternatives => simp [Operand.nestedCount] at ho

theorem nestedCountSequence_eq_zero : ∀ {as : List (List Operand)},
    Operand.nestedCountAlternatives as = 0 → ∀ s ∈ as, Operand.nestedCountSequence s = 0
  | [], _, _, hs => absurd hs List.not_mem_nil
  | s' :: rest, h, s, hs => by
    obtain ⟨hfirst, hrest⟩ := Nat.add_eq_zero_iff.mp h
    rcases List.mem_cons.mp hs with rfl | hs
    · exact hfirst
    · exact nestedCountSequence_eq_zero hrest s hs

theorem mem_productions {id : TermId} {t : Term} {e : Expr} {s : List Operand}
    (hid : id ∈ c.nonterminals) (ht : c.terms[id]? = some t) (he : t.rule = some e)
    (hs : s ∈ e.alternatives) : Production.ofSequence id s ∈ c.productions := by
  refine List.mem_flatMap.mpr ⟨id, hid, List.mem_map.mpr ⟨s, ?_, rfl⟩⟩
  rw [ht, Option.bind_some, he]
  exact hs

/-- Words that symbols may stand for one by one are derived from them together. -/
theorem derives_of_mem_prod {g : Cfg} : ∀ {xs w : List TermId},
    (∀ x ∈ xs, ∀ u ∈ env x, g.Derives [x] u) → w ∈ (xs.map env).prod → g.Derives xs w
  | [], w, _, hw => by
    rw [List.map_nil, List.prod_nil, Language.mem_one] at hw
    rw [hw]
    exact .refl []
  | x :: xs, w, h, hw => by
    rw [List.map_cons, List.prod_cons, Language.mem_mul] at hw
    obtain ⟨u, hu, v, hv, rfl⟩ := hw
    have hfirst := h x List.mem_cons_self u hu
    exact hfirst.append (derives_of_mem_prod (fun y hy => h y (List.mem_cons_of_mem x hy)) hv)

/-- What the grammar derives from the terms found, and anything from the others. -/
def derivedFrom (c : Collection) : Interpretation := fun x =>
  if x ∈ c.found then {w | c.cfg.Derives [x] w} else ⊤

theorem mem_derivedFrom {x : TermId} (hx : x ∈ c.found) {w : List TermId} :
    w ∈ c.derivedFrom x ↔ c.cfg.Derives [x] w := by
  rw [show c.derivedFrom x = {w | c.cfg.Derives [x] w} from if_pos hx]
  rfl

/-- What the rule of a nonterminal found mentions derives, the nonterminal derives. -/
theorem derives_of_mem_ruleLanguage (hvisited : ∀ id ∈ c.found, Visited c id) {x : TermId}
    (hx : x ∈ c.found) (hkind : isTerminalIn c.terms x = false) {w : List TermId}
    (hw : w ∈ ruleLanguage c.terms c.derivedFrom x) : c.cfg.Derives [x] w := by
  cases hrule : c.terms[x]?.bind Term.rule with
  | none =>
    rw [ruleLanguage_of_none hrule] at hw
    exact absurd hw (Language.notMem_zero w)
  | some e =>
    obtain ⟨t, ht, he⟩ := Option.bind_eq_some_iff.mp hrule
    rw [ruleLanguage_of_rule ht he] at hw
    obtain ⟨s, hs, hw⟩ := Operand.mem_languageAlternatives.mp hw
    have hkind' : t.isTerminal = false := by simpa [isTerminalIn, ht] using hkind
    obtain ⟨hflat, hfound⟩ := hvisited x hx t e ht hkind' he
    rw [languageSequence_eq_prod (nestedCountSequence_eq_zero hflat s hs)] at hw
    have hmem : Production.ofSequence x s ∈ c.productions :=
      mem_productions (mem_nonterminals.mpr ⟨hx, hkind⟩) ht he hs
    have hsymbols : ∀ y ∈ Production.symbols s, ∀ v ∈ c.derivedFrom y, c.cfg.Derives [y] v := by
      intro y hy v hv
      obtain ⟨hlevel, hne⟩ := mem_symbols hy
      obtain ⟨o, ho, hoy⟩ := List.mem_filterMap.mp hlevel
      have hyfound : y ∈ c.found :=
        hfound y (List.mem_filterMap.mpr ⟨o, List.mem_flatten.mpr ⟨s, hs, ho⟩, hoy⟩) hne
      exact (mem_derivedFrom hyfound).mp hv
    exact Cfg.Derives.of_rhs (p := Production.ofSequence x s) hmem
      (derives_of_mem_prod hsymbols hw)

/-- What is derived satisfies the equations from above. -/
theorem equations_derivedFrom_le (hvisited : ∀ id ∈ c.found, Visited c id) :
    equations (isTerminalIn c.terms) (rulesIn c.terms) c.derivedFrom ≤ c.derivedFrom := by
  intro x w hw
  replace hw : w ∈ equations (isTerminalIn c.terms) (rulesIn c.terms) c.derivedFrom x := hw
  by_cases hx : x ∈ c.found
  · refine (mem_derivedFrom hx).mpr ?_
    cases hkind : isTerminalIn c.terms x with
    | true =>
      have hword : w ∈ ({[x]} : Language TermId) := by
        rwa [show equations (isTerminalIn c.terms) (rulesIn c.terms) c.derivedFrom x = {[x]} from
          if_pos hkind] at hw
      rw [Set.mem_singleton_iff.mp hword]
      exact .refl [x]
    | false =>
      rw [equations_of_nonterminal hkind] at hw
      exact derives_of_mem_ruleLanguage hvisited hx hkind hw
  · show w ∈ c.derivedFrom x
    rw [show c.derivedFrom x = ⊤ from if_neg hx]
    trivial

/-- What a term means is derived from it. -/
theorem derives_of_mem_meaningIn (hvisited : ∀ id ∈ c.found, Visited c id) {id : TermId}
    (hid : id ∈ c.found) {w : List TermId} (hw : w ∈ meaningIn c.terms id) :
    c.cfg.Derives [id] w :=
  (mem_derivedFrom hid).mp (meaning_le (equations_derivedFrom_le hvisited) id hw)

/-- What trees yield over terminals, the symbols above them mean together. -/
theorem mem_prod_of_forest (hvisited : ∀ id ∈ c.found, Visited c id) {xs : List TermId}
    {ts : List ParseTree} (h : c.cfg.Forest xs ts) :
    (∀ t ∈ ParseTree.yields ts, c.isTerminal t.symbol = true) →
      (ParseTree.yields ts).map Token.symbol ∈ (xs.map (meaningIn c.terms)).prod := by
  induction h with
  | nil =>
    intro _
    exact Language.nil_mem_one
  | leaf token _ ih =>
    intro hterminals
    rw [ParseTree.yields_leaf] at hterminals ⊢
    rw [List.map_cons, List.prod_cons]
    have hmean : meaningIn c.terms token.symbol = {[token.symbol]} :=
      meaning_of_terminal (hterminals token List.mem_cons_self)
    rw [hmean]
    exact Language.mem_mul.mpr ⟨[token.symbol], rfl, _,
      ih fun t ht => hterminals t (List.mem_cons_of_mem _ ht), rfl⟩
  | node hp _ _ ihchildren ih =>
    rename_i i p children ts xs
    intro hterminals
    rw [ParseTree.yields_node] at hterminals ⊢
    rw [List.map_append, List.map_cons, List.prod_cons]
    refine Language.mem_mul.mpr ⟨_, ?_, _,
      ih fun t ht => hterminals t (List.mem_append_right _ ht), rfl⟩
    have hchildren := ihchildren fun t ht => hterminals t (List.mem_append_left _ ht)
    obtain ⟨id, hid, t, e, s, ht, he, hs, rfl⟩ :=
      exists_of_mem_productions (List.mem_of_getElem? hp)
    obtain ⟨hfound, hkind⟩ := mem_nonterminals.mp hid
    have hkind' : t.isTerminal = false := by rwa [isTerminal_eq ht] at hkind
    have hflat := (hvisited id hfound t e ht hkind' he).1
    have hmean : meaningIn c.terms id = e.language (meaningIn c.terms) :=
      (meaning_of_nonterminal hkind).trans (ruleLanguage_of_rule ht he)
    show _ ∈ meaningIn c.terms id
    rw [hmean]
    refine Operand.mem_languageAlternatives.mpr ⟨s, hs, ?_⟩
    rw [languageSequence_eq_prod (nestedCountSequence_eq_zero hflat s hs)]
    exact hchildren

/-- **Once nothing is nested, a term means the words of terminals that are derived from it.** -/
theorem mem_meaningIn_iff (hvisited : ∀ id ∈ c.found, Visited c id) {id : TermId}
    (hid : id ∈ c.found) {w : List TermId} (hw : ∀ x ∈ w, c.isTerminal x = true) :
    w ∈ meaningIn c.terms id ↔ c.cfg.Derives [id] w := by
  refine ⟨derives_of_mem_meaningIn hvisited hid, ?_⟩
  intro hderives
  have hsymbols : (w.map fun x => (⟨x, ""⟩ : Token TermId)).map Token.symbol = w := by
    simp [Function.comp_def]
  rw [← hsymbols] at hderives
  obtain ⟨ts, hts, hyields⟩ := Cfg.exists_forest hderives
  have hmem := mem_prod_of_forest hvisited hts (by
    rw [hyields]
    intro t ht
    obtain ⟨x, hx, rfl⟩ := List.mem_map.mp ht
    exact hw x hx)
  rwa [hyields, hsymbols, List.map_singleton, List.prod_singleton] at hmem

end Collection

namespace Definition

variable {d : Definition} {root : TermId}

/-- **Setting up the augmented root changes the meaning of no other term.** -/
theorem WellFormed.meaningIn_augment (hd : d.WellFormed) (hroot : d.root = some root) {j : TermId}
    (hj : j ≠ TermId.root) : meaningIn (d.augment root) j = meaningIn d.terms j := by
  refine (meaning_eq_of_agree (fun j => j ≠ TermId.root) ?_ ?_ ?_ hj).symm
  · intro env _ j hj
    exact equations_of_getElem? (getElem?_augment hj).symm
  · intro env env' hsame j _
    refine equations_congr fun t e ht he => ?_
    refine Expr.language_congr ?_ (hd.rules t (List.mem_of_getElem? ht) e he)
    exact fun x hx => hsame x (isUsable_iff.mp hx).2
  · intro env env' hsame j hj
    refine equations_congr fun t e ht he => ?_
    have hrule : e = Expr.term root := by
      rw [not_not.mp hj, augment, List.getElem?_modify] at ht
      obtain ⟨t', -, rfl⟩ := Option.map_eq_some_iff.mp ht
      simpa using he.symm
    have hne := (hd.root root hroot).1
    rw [hrule]
    simp [Expr.language, Expr.term, Operand.language, hsame root hne]

/-- **Collecting keeps the meaning** of the terms of a definition. -/
theorem WellFormed.meaningIn_collect (hd : d.WellFormed) (hroot : d.root = some root) {j : TermId}
    (hj : d.isUsable j = true) : meaningIn (d.collect root).terms j = meaningIn d.terms j := by
  obtain ⟨hlt, hne⟩ := isUsable_iff.mp hj
  have hstart := Collection.walk_start hd hroot hd.rules
  calc meaningIn (d.collect root).terms j
      = meaningIn (d.augment root) j := hstart.meaningIn_visitFrom hd hlt _ _
    _ = meaningIn d.terms j := hd.meaningIn_augment hroot hne

end Definition

namespace Compiled

variable {c : Compiled}

/-- **Desugaring keeps the language**, for every definition that compiles, every nonterminal of it
that is collected and every word of terminals: the word is in the denotation of the nonterminal, by
the expressions passed to its rule, iff the productions derive it. -/
theorem language_preserved [Text.Xid] {ignoreCase : Bool} {commands : List Command}
    (h : (Definition.ofCommands ignoreCase commands).compile = .ok c) {id : TermId}
    (hid : id ∈ c.cfg.nonterminals)
    (huser : id < (Definition.ofCommands ignoreCase commands).terms.length ∧ id ≠ TermId.root)
    {w : List TermId} (hw : ∀ x ∈ w, c.isTerminal x = true) :
    w ∈ Definition.denotation ignoreCase commands id ↔ c.cfg.Derives [id] w := by
  have hd := Definition.wellFormed_ofCommands ignoreCase commands
  obtain ⟨root, hroot, rfl⟩ := Definition.compile_ok h
  obtain ⟨-, hvisited⟩ := hd.walk_collect hroot hd.rules
  have hfound := (Collection.mem_nonterminals.mp hid).1
  simp only [Definition.isTerminal_compileCollection] at hw
  rw [Definition.denotation_eq,
    ← hd.meaningIn_collect hroot (Definition.isUsable_iff.mpr huser)]
  exact Collection.mem_meaningIn_iff hvisited hfound hw

/-- Steps with two levels of nesting, a hint and an empty alternative, given by two rules. -/
def nestedSteps : List Command :=
  [.literal "a", .literal "b", .nonterminal "S",
    .rule 5 ⟨[[.nested [[.term 3],
      [.nested [[.term 4], [.term 1]], .hint .preferShift, .term 3, .term 5]]]]⟩,
    .rule 5 ⟨[[.term 1]]⟩, .root 5]

/-- The steps, compiled. -/
def nestedStepsCompiled : Compiled :=
  let d := Definition.ofCommands false nestedSteps
  d.compileCollection 5 (d.collect 5)

theorem language_preserved_nestedSteps :
    (Definition.ofCommands false nestedSteps).compile = .ok nestedStepsCompiled ∧
      [4, 3, 3] ∈ Definition.denotation false nestedSteps 5 ∧
      nestedStepsCompiled.cfg.Derives [5] [4, 3, 3] := by
  have hcompile : (Definition.ofCommands false nestedSteps).compile = .ok nestedStepsCompiled :=
    Definition.compile_eq_ok (by decide) (by decide)
  have hid : 5 ∈ nestedStepsCompiled.cfg.nonterminals := by decide
  have huser : 5 < (Definition.ofCommands false nestedSteps).terms.length ∧ 5 ≠ TermId.root := by
    decide
  have hw : ∀ x ∈ [4, 3, 3], nestedStepsCompiled.isTerminal x = true := by decide
  have hnested : nestedStepsCompiled.cfg.productions[1]? = some ⟨5, [6], []⟩ := by decide
  have hlast : nestedStepsCompiled.cfg.productions[3]? = some ⟨6, [3], []⟩ := by decide
  have hstep : nestedStepsCompiled.cfg.productions[4]? =
      some ⟨6, [7, 3, 5], [(1, .preferShift)]⟩ := by decide
  have hletter : nestedStepsCompiled.cfg.productions[5]? = some ⟨7, [4], []⟩ := by decide
  have hforest : nestedStepsCompiled.cfg.Forest [5] [.node 1 [.node 4 [.node 5 [.leaf ⟨4, "b"⟩],
      .leaf ⟨3, "a"⟩, .node 1 [.node 3 [.leaf ⟨3, "a"⟩]]]]] :=
    .node hnested (.node hstep (.node hletter (.leaf ⟨4, "b"⟩ .nil) (.leaf ⟨3, "a"⟩ (.node hnested
      (.node hlast (.leaf ⟨3, "a"⟩ .nil) .nil) .nil))) .nil) .nil
  have hderives : nestedStepsCompiled.cfg.Derives [5] [4, 3, 3] := hforest.derives
  exact ⟨hcompile, (language_preserved hcompile hid huser hw).mpr hderives, hderives⟩

end Compiled

end Lalr

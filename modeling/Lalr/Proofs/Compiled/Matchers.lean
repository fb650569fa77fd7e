import Lalr.Proofs.Compiled.Built
import Lalr.Proofs.Definition.Spelling
import Lalr.Proofs.Token.Matcher
import Lalr.Proofs.Token.Scanner

/-!
# The matchers of a compiled grammar

Compiling makes the matchers ready for the case rule and the keywords of the grammar.

* A literal is looked up by its key, which is folded when case is ignored, but its matcher keeps the
  text as it was declared (`Collected.literal`).
* All identifiers refuse the same keywords (`Collected.identifier`): the keys of the collected
  literals, as far as these keys are words (`mem_keywords_of_literal`).
* The scanner tries a collected literal for the characters that the first one of its text stands
  for (**`Collected.mem_candidates_iff`**).
-/

namespace Lalr

open Text

/-- The term as it is compiled, with the keywords that identifiers refuse. -/
def Term.compiled (ignoreCase : Bool) (keywords : List String) (t : Term) : Term :=
  { t.normalize ignoreCase with
    matcher := (t.normalize ignoreCase).matcher.map (Matcher.prepare keywords ignoreCase) }

/-- Keywords depend on what is a literal, and on keys. -/
theorem keywordsOf_map [Text.Xid] {f : Term → Term}
    (hf : ∀ t, (f t).isLiteral = t.isLiteral ∧ (f t).key = t.key) (terms : List Term)
    (ids : List TermId) : keywordsOf (terms.map f) ids = keywordsOf terms ids := by
  have hterms : ids.filterMap ((terms.map f)[·]?) = (ids.filterMap (terms[·]?)).map f := by
    rw [List.map_filterMap]
    refine List.filterMap_congr fun id _ => ?_
    rw [List.getElem?_map]
  have hkey : Term.key ∘ f = Term.key := funext fun t => (hf t).2
  have htest : (fun t : Term => t.isLiteral && isWord t.key.toList) ∘ f =
      fun t => t.isLiteral && isWord t.key.toList := by
    funext t
    simp only [Function.comp_apply, (hf t).1, (hf t).2]
  unfold keywordsOf
  rw [hterms, List.filter_map, List.map_map, hkey, htest]

theorem mem_scannables {terms : List Term} {ids : List TermId} {s : Scannable} :
    s ∈ scannables terms ids ↔
      s.id ∈ ids ∧ ∃ t, terms[s.id]? = some t ∧ t.matcher = some s.matcher ∧
        t.priority = s.priority := by
  simp only [scannables, List.mem_filterMap, Option.bind_eq_bind, Option.bind_eq_some_iff,
    Option.pure_def, Option.some.injEq]
  constructor
  · rintro ⟨id, hid, t, ht, m, hm, rfl⟩
    exact ⟨hid, t, ht, hm, rfl⟩
  · rintro ⟨hid, t, ht, hm, hpriority⟩
    exact ⟨s.id, hid, t, ht, s.matcher, hm, by rw [hpriority]⟩

/-- What a matcher with one starting text may start with. -/
theorem mem_startChars {ignoreCase : Bool} {s : Scannable} {first ch : Char}
    (h : s.matcher.starts = some [String.singleton first]) :
    ch ∈ Scanner.startChars ignoreCase s ↔ ch ∈ Scanner.variants ignoreCase first := by
  simp [Scanner.startChars, h]

namespace Compiled

variable {c : Compiled} {ts : List Term} {id : TermId} {t : Term}

/-- The compiled grammar is made of these collected terms. -/
structure Collected [Text.Xid] (c : Compiled) (ts : List Term) : Prop where
  spelled : Spelled ts
  terms   : c.terms = ts.map (Term.compiled c.ignoreCase c.keywords)
  scanner : c.scanner = Scanner.ofTerminals c.ignoreCase
    (scannables (ts.map (Term.normalize c.ignoreCase)) c.cfg.terminals)

theorem keywords_compileCollection [Text.Xid] (d : Definition) (root : TermId)
    (collection : Collection) :
    (d.compileCollection root collection).keywords =
      keywordsOf (collection.terms.map (Term.normalize d.ignoreCase)) collection.terminals := by
  show keywordsOf (prepareTerms _ _ _) _ = _
  rw [prepareTerms]
  refine keywordsOf_map ?_ _ _
  intro t
  exact ⟨rfl, rfl⟩

/-- The compiled terms are the collected ones, each made ready. -/
theorem terms_compileCollection [Text.Xid] (d : Definition) (root : TermId)
    (collection : Collection) :
    (d.compileCollection root collection).terms = collection.terms.map
      (Term.compiled d.ignoreCase (d.compileCollection root collection).keywords) := by
  rw [keywords_compileCollection]
  show prepareTerms _ _ _ = _
  rw [prepareTerms, List.map_map]
  rfl

theorem exists_collected [Text.Xid] {ignoreCase : Bool} {commands : List Command}
    (h : (Definition.ofCommands ignoreCase commands).compile = .ok c) :
    ∃ ts, c.Collected ts := by
  obtain ⟨root, -, rfl⟩ := Definition.compile_ok h
  exact ⟨_, (spelled_ofCommands ignoreCase commands).collect root, terms_compileCollection _ _ _,
    rfl⟩

theorem Collected.exists_term [Text.Xid] (hc : c.Collected ts) (ht : c.terms[id]? = some t) :
    ∃ u, ts[id]? = some u ∧ t = u.compiled c.ignoreCase c.keywords := by
  rw [hc.terms, List.getElem?_map] at ht
  obtain ⟨u, hu, rfl⟩ := Option.map_eq_some_iff.mp ht
  exact ⟨u, hu, rfl⟩

/-- **The matcher of a literal** looks for the text by which the literal was declared. -/
theorem Collected.literal [Text.Xid] (hc : c.Collected ts) (ht : c.terms[id]? = some t)
    (hliteral : t.isLiteral = true) :
    ∃ text, text ≠ "" ∧ t.key = foldCase c.ignoreCase text ∧
      t.matcher = some (.literal text c.ignoreCase) := by
  obtain ⟨u, hu, rfl⟩ := hc.exists_term ht
  have hu' : u.isLiteral = true := (Term.isLiteral_normalize c.ignoreCase u).symm.trans hliteral
  obtain ⟨hne, hmatcher⟩ := hc.spelled u (List.mem_of_getElem? hu) hu'
  refine ⟨u.key, hne, ?_, ?_⟩
  · show (u.normalize c.ignoreCase).key = _
    rw [Term.normalize, if_pos hu']
  · show (u.normalize c.ignoreCase).matcher.map _ = _
    rw [Term.matcher_normalize, hmatcher]
    rfl

/-- All identifiers refuse the keywords of the grammar. -/
theorem Collected.identifier [Text.Xid] (hc : c.Collected ts) (ht : c.terms[id]? = some t)
    {keywords : List String} {ignoreCase : Bool}
    (hmatcher : t.matcher = some (.identifier keywords ignoreCase)) :
    keywords = c.keywords ∧ ignoreCase = c.ignoreCase := by
  obtain ⟨u, -, rfl⟩ := hc.exists_term ht
  obtain ⟨m, -, hm⟩ := Option.map_eq_some_iff.mp hmatcher
  cases m with
  | literal text ignoreCase => exact nomatch hm
  | custom recognizer => exact nomatch hm
  | identifier keywords ignoreCase =>
    obtain ⟨rfl, rfl⟩ := Matcher.identifier.inj hm
    exact ⟨rfl, rfl⟩

/-- The key of a collected literal is a keyword if it is a word. -/
theorem mem_keywords_of_literal [Text.Xid] (hid : id ∈ c.cfg.terminals) (ht : c.terms[id]? = some t)
    (hliteral : t.isLiteral = true) (hword : isWord t.key.toList = true) :
    t.key ∈ c.keywords := by
  unfold Compiled.keywords keywordsOf
  refine List.mem_map_of_mem (List.mem_filter.mpr ⟨?_, ?_⟩)
  · exact List.mem_filterMap.mpr ⟨id, hid, ht⟩
  · simp [hliteral, hword]

/-- **The scanner tries a collected literal** for what its first character stands for. -/
theorem Collected.mem_candidates_iff [Text.Xid] (hc : c.Collected ts) (hid : id ∈ c.cfg.terminals)
    (ht : c.terms[id]? = some t) {text : String} {first : Char} {more : List Char}
    (hmatcher : t.matcher = some (.literal text c.ignoreCase))
    (htext : text.toList = first :: more) {ch : Char} :
    id ∈ c.scanner.candidates ch ↔ ch ∈ Scanner.variants c.ignoreCase first := by
  obtain ⟨u, hu, rfl⟩ := hc.exists_term ht
  obtain ⟨m, hm, hprepared⟩ := Option.map_eq_some_iff.mp hmatcher
  have hstarts : m.starts = some [String.singleton first] := by
    cases m with
    | identifier keywords ignoreCase => exact nomatch hprepared
    | custom recognizer => exact nomatch hprepared
    | literal raw ignoreCase =>
      obtain ⟨rfl, -⟩ := Matcher.literal.inj hprepared
      rw [Matcher.starts, htext]
      rfl
  rw [hc.scanner, Scanner.mem_candidates_iff]
  constructor
  · rintro ⟨s, hs, hstart, rfl⟩
    obtain ⟨-, v, hv, hvm, -⟩ := mem_scannables.mp hs
    rw [List.getElem?_map, hu] at hv
    obtain rfl := Option.some.inj hv
    obtain rfl : m = s.matcher := Option.some.inj (hm.symm.trans hvm)
    rcases hstart with hnone | hch
    · exact nomatch hstarts.symm.trans hnone
    · exact (mem_startChars hstarts).mp hch
  · intro hch
    refine ⟨⟨id, (u.normalize c.ignoreCase).priority, m⟩, mem_scannables.mpr ⟨hid, _, ?_, hm, rfl⟩,
      Or.inr ((mem_startChars hstarts).mpr hch), rfl⟩
    rw [List.getElem?_map, hu]
    rfl

end Compiled

end Lalr

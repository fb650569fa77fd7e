import Lalr.Proofs.Compiled.Keys
import Lalr.Proofs.Text.LetterCase

/-!
# Reserved words

A literal that is a word is a keyword, which no identifier should be mistaken for. Two things decide
about that: the literal is compared with the input character by character, and an identifier looks
the lowercase form of the whole word up in the keywords. Both find the same word
(`longestWord_of_literal`). So where the literal matches, an identifier matches just if the word
read is not, in lowercase, one of the keywords; and that can only be when case is ignored and the
word has a sigma where the final form is due (**`keyword_refused_iff`**).

When case is ignored, two things are needed of identifier characters: two that are the same up to
case are alike (`Xid.IgnoresCase`), and the lowercase form of a word is a word (`Xid.KeepsWords`).
Both hold in Unicode 17. When case counts, nothing is needed of them.

It does happen: the literal `ΑΣ` matches `ασ`, and the keyword is `ας` (`final_sigma_not_reserved`).
-/

namespace Lalr

open Text

namespace Matcher

/-- Texts that are the same up to case are equal, or have the same letters when case is ignored. -/
theorem SameText.cases {ignoreCase : Bool} {as bs : List Char} (h : SameText ignoreCase as bs) :
    as = bs ∨ ignoreCase = true ∧ SameLetters as bs := by
  cases ignoreCase with
  | false =>
    left
    refine List.forall₂_eq_eq_eq ▸ h.imp fun a b hab => ?_
    simpa [sameUpToCase] using hab
  | true =>
    right
    refine ⟨rfl, h.imp fun a b hab => ?_⟩
    rw [sameUpToCase, Bool.or_eq_true, beq_iff_eq, Bool.true_and, beq_iff_eq] at hab
    exact hab.elim (fun hab => hab ▸ rfl) id

/-- **What a literal that is a word finds is the longest word there.** -/
theorem longestWord_of_literal [Xid] {ignoreCase : Bool}
    (hcase : ignoreCase = true → Xid.IgnoresCase) {text rest front back : List Char}
    (hword : isWord text = true) (hrest : rest = front ++ back)
    (hsame : SameText ignoreCase text front)
    (hends : isWord text = true → continuesWord back = false) : LongestWord rest front back := by
  refine ⟨hrest, ?_, hends hword⟩
  rcases hsame.cases with rfl | ⟨hignore, hletters⟩
  · exact hword
  · rw [← isWord_same (hcase hignore) hletters, hword]

/-- An identifier finds the longest word at the position, unless it is a keyword. -/
theorem LongestWord.matchAt_identifier_iff [Xid] {input : String} {position : Nat}
    {rest front back : List Char} (h : LongestWord rest front back)
    (hrest : charsFrom input position = some rest) {keywords : List String} {ignoreCase : Bool}
    {found : Lexeme} :
    (Matcher.identifier keywords ignoreCase).matchAt input position = some found ↔
      foldCase ignoreCase (String.ofList front) ∉ keywords ∧
        found = { text := String.ofList front, value := some (String.ofList front),
                  category := .content } := by
  show (charsFrom input position).bind _ = _ ↔ _
  rw [hrest, Option.bind_some, Matcher.matchIdentifier_eq_some_iff]
  constructor
  · rintro ⟨front', back', h', hfree, rfl⟩
    obtain ⟨rfl, -⟩ := h.unique h'
    exact ⟨hfree, rfl⟩
  · rintro ⟨hfree, rfl⟩
    exact ⟨front, back, h, hfree, rfl⟩

end Matcher

namespace Compiled

variable {c : Compiled} {id id' : TermId} {t u : Term}

/-- The folded text of a collected literal that is a word is a keyword. -/
theorem Collected.foldCase_mem_keywords [Xid] {ts : List Term} (hc : c.Collected ts)
    (hkeeps : c.ignoreCase = true → Xid.KeepsWords)
    (hid : id ∈ c.cfg.terminals) (ht : c.terms[id]? = some t) (hliteral : t.isLiteral = true)
    {text : String} {ignoreCase : Bool} (hm : t.matcher = some (.literal text ignoreCase))
    (hword : isWord text.toList = true) :
    ignoreCase = c.ignoreCase ∧ foldCase c.ignoreCase text ∈ c.keywords := by
  obtain ⟨text', -, hkey, hmatcher⟩ := hc.literal ht hliteral
  obtain ⟨rfl, rfl⟩ := Matcher.literal.inj (Option.some.inj (hm.symm.trans hmatcher))
  refine ⟨rfl, hkey ▸ mem_keywords_of_literal hid ht hliteral ?_⟩
  rw [hkey]
  cases hignore : c.ignoreCase with
  | false => exact hword
  | true => exact hkeeps hignore text hword

/-- Folded texts that are the same up to case differ by a final sigma at most. -/
theorem final_sigma_of_foldCase_ne {ignoreCase : Bool} {text : String} {front : List Char}
    (hsame : Matcher.SameText ignoreCase text.toList front)
    (hne : foldCase ignoreCase text ≠ foldCase ignoreCase (String.ofList front)) :
    ignoreCase = true ∧ ∃ before s after, front = before ++ s :: after ∧ (s = 'σ' ∨ s = 'Σ') ∧
      meetsCased before.reverse = true ∧ meetsCased after = false := by
  rcases hsame.cases with htext | ⟨rfl, hletters⟩
  · exact absurd (congrArg _ ((String.ofList_toList).symm.trans (congrArg _ htext))) hne
  · have hlower : lowerBehind [] text.toList ≠ lowerBehind [] front := by
      intro heq
      refine hne ?_
      rw [foldCase_true, foldCase_true, lowercase, lowercase, String.toList_ofList, heq]
    obtain ⟨before, s, after, hfront, hs, hbefore, hafter⟩ :=
      exists_final_sigma hletters .nil hlower
    exact ⟨rfl, before, s, after, hfront, hs, by simpa using hbefore, hafter⟩

/-- **Keywords are reserved, up to the final sigma.** -/
theorem keyword_refused_iff [Xid] {ignoreCase : Bool} {commands : List Command}
    (hcase : ignoreCase = true → Xid.IgnoresCase) (hkeeps : ignoreCase = true → Xid.KeepsWords)
    (h : (Definition.ofCommands ignoreCase commands).compile = .ok c)
    (hid : id ∈ c.cfg.terminals) (ht : c.terms[id]? = some t) (hliteral : t.isLiteral = true)
    {text : String} {literalCase : Bool} (hm : t.matcher = some (.literal text literalCase))
    (hword : isWord text.toList = true)
    (hu : c.terms[id']? = some u) {keywords : List String} {identifierCase : Bool}
    (hi : u.matcher = some (.identifier keywords identifierCase))
    {input : String} {position : Nat} {lexeme : Lexeme}
    (hmatch : (Matcher.literal text literalCase).matchAt input position = some lexeme) :
    ((∃ found, (Matcher.identifier keywords identifierCase).matchAt input position = some found) ↔
      foldCase c.ignoreCase lexeme.text ∉ c.keywords) ∧
    ∀ found, (Matcher.identifier keywords identifierCase).matchAt input position = some found →
      found.text = lexeme.text ∧ c.ignoreCase = true ∧
      ∃ before s after, lexeme.text.toList = before ++ s :: after ∧ (s = 'σ' ∨ s = 'Σ') ∧
        meetsCased before.reverse = true ∧ meetsCased after = false := by
  obtain rfl := ignoreCase_of_compile h
  obtain ⟨ts, hc⟩ := exists_collected h
  obtain ⟨rfl, hkeyword⟩ := hc.foldCase_mem_keywords hkeeps hid ht hliteral hm hword
  obtain ⟨rfl, rfl⟩ := hc.identifier hu hi
  obtain ⟨rest, hrest, hread⟩ := Option.bind_eq_some_iff.mp hmatch
  obtain ⟨front, back, hsplit, hsame, hends, rfl⟩ := Matcher.matchLiteral_eq_some_iff.mp hread
  have hlongest := Matcher.longestWord_of_literal hcase hword hsplit hsame hends
  refine ⟨⟨?_, fun hfree => ⟨_, (hlongest.matchAt_identifier_iff hrest).mpr ⟨hfree, rfl⟩⟩⟩, ?_⟩
  · rintro ⟨found, hmatched⟩
    exact ((hlongest.matchAt_identifier_iff hrest).mp hmatched).1
  · intro found hmatched
    obtain ⟨hfree, rfl⟩ := (hlongest.matchAt_identifier_iff hrest).mp hmatched
    have hne : foldCase c.ignoreCase text ≠ foldCase c.ignoreCase (String.ofList front) := by
      intro heq
      exact hfree (heq ▸ hkeyword)
    rw [String.toList_ofList]
    exact ⟨rfl, final_sigma_of_foldCase_ne hsame hne⟩

/-- A grammar that ignores case, with the literal `ΑΣ` and identifiers. -/
def greek : List Command :=
  [.literal "ΑΣ", .terminal "name" (.identifier [] false), .nonterminal "S",
    .rule 5 ⟨[[.term 3], [.term 4]]⟩, .root 5]

/-- The grammar of the literal `ΑΣ`, compiled. -/
def greekCompiled : Compiled :=
  let d := Definition.ofCommands true greek
  d.compileCollection 5 (d.collect 5)

theorem compile_greek : (Definition.ofCommands true greek).compile = .ok greekCompiled :=
  Definition.compile_eq_ok (by decide) (by decide)

theorem exists_literal_greek : ∃ t, greekCompiled.terms[3]? = some t ∧ t.isLiteral = true ∧
    t.matcher = some (.literal "ΑΣ" true) :=
  ⟨_, rfl, rfl, rfl⟩

theorem keywords_greek : greekCompiled.keywords = ["ας"] := by decide +kernel

theorem exists_identifier_greek : ∃ u, greekCompiled.terms[4]? = some u ∧
    u.matcher = some (.identifier ["ας"] true) := by
  obtain ⟨u, keywords, hu, hi⟩ : ∃ u keywords, greekCompiled.terms[4]? = some u ∧
      u.matcher = some (.identifier keywords true) := ⟨_, _, rfl, rfl⟩
  obtain ⟨ts, hc⟩ := exists_collected compile_greek
  have hkeywords : keywords = ["ας"] := (hc.identifier hu hi).1.trans keywords_greek
  exact ⟨u, hu, by rw [hi, hkeywords]⟩

/-- **The word `ασ`** is matched by the literal `ΑΣ`, and by identifiers too. -/
theorem final_sigma_not_reserved :
    (Definition.ofCommands true greek).compile = .ok greekCompiled ∧
      3 ∈ greekCompiled.cfg.terminals ∧
      (∃ t, greekCompiled.terms[3]? = some t ∧ t.isLiteral = true ∧
        t.matcher = some (.literal "ΑΣ" true)) ∧
      isWord "ΑΣ".toList = true ∧
      (∃ u, greekCompiled.terms[4]? = some u ∧ u.matcher = some (.identifier ["ας"] true)) ∧
      (Matcher.literal "ΑΣ" true).matchAt "ασ" 0 =
        some { text := "ασ", value := none, category := .content } ∧
      (Matcher.identifier ["ας"] true).matchAt "ασ" 0 =
        some { text := "ασ", value := some "ασ", category := .content } := by
  refine ⟨compile_greek, by decide, exists_literal_greek, by decide,
    exists_identifier_greek, ?_, ?_⟩
  all_goals decide

theorem keyword_refused_iff_greek :
    (Definition.ofCommands true greek).compile = .ok greekCompiled ∧
      (Matcher.literal "ΑΣ" true).matchAt "αΣ" 0 =
        some { text := "αΣ", value := none, category := .content } ∧
      (Matcher.identifier ["ας"] true).matchAt "αΣ" 0 = none := by
  have hmatch : (Matcher.literal "ΑΣ" true).matchAt "αΣ" 0 =
      some { text := "αΣ", value := none, category := .content } := by decide
  obtain ⟨t, ht, hliteral, hm⟩ := exists_literal_greek
  obtain ⟨u, hu, hi⟩ := exists_identifier_greek
  obtain ⟨hiff, -⟩ := keyword_refused_iff (fun _ => ignoresCase_unicode17)
    (fun _ => keepsWords_unicode17) compile_greek (by decide) ht hliteral hm
    (by decide) hu hi hmatch
  refine ⟨compile_greek, hmatch, Option.eq_none_iff_forall_ne_some.mpr fun found hfound => ?_⟩
  exact hiff.mp ⟨found, hfound⟩ (by decide +kernel)

end Compiled

end Lalr

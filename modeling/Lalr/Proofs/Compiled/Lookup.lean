import Lalr.Proofs.Compiled.Matchers
import Lalr.Proofs.Text.LetterCase

/-!
# When the scanner tries a literal

A scanner saves itself the matching of terminals that cannot start with the next character. For a
literal it goes by the first character of the text and, when case is ignored, by the lowercase and
uppercase forms of it. The matcher of the literal, on the other hand, compares lowercase forms. So
where a literal matches, it is tried iff the character ahead is one of those forms
(**`literal_tried_iff`**). That is always so when case matters, and mostly when it does not; but the
Kelvin sign matches the literal `k`, which is not tried for it (`kelvin_not_tried`).
-/

namespace Lalr

open Text

namespace Compiled

variable {c : Compiled} {id : TermId} {t : Term}

/-- What a literal matches begins with the first character of its text, up to case. -/
theorem exists_first_of_matchAt [Xid] {text : String} {ignoreCase : Bool} {input : String}
    {position : Nat} {lexeme : Lexeme} (hne : text ≠ "")
    (h : (Matcher.literal text ignoreCase).matchAt input position = some lexeme) :
    ∃ first more ch rest, text.toList = first :: more ∧
      charsFrom input position = some (ch :: rest) ∧
      sameUpToCase ignoreCase first ch = true := by
  obtain ⟨chars, hchars, hmatch⟩ := Option.bind_eq_some_iff.mp h
  obtain ⟨front, back, rfl, hsame, -⟩ := Matcher.matchLiteral_eq_some_iff.mp hmatch
  cases htext : text.toList with
  | nil => exact absurd (String.toList_eq_nil_iff.mp htext) hne
  | cons first more =>
    rw [htext, Matcher.SameText, List.forall₂_cons_left_iff] at hsame
    obtain ⟨ch, front, hfirst, -, rfl⟩ := hsame
    exact ⟨first, more, ch, front ++ back, rfl, hchars, hfirst⟩

/-- Characters that are the same up to case stand for each other, unless one is one-way. -/
theorem mem_variants_of_same {ignoreCase : Bool} {first ch : Char}
    (hsame : sameUpToCase ignoreCase first ch = true)
    (h : ignoreCase = false ∨ ¬ IsOneWay first ∧ ¬ IsOneWay ch) :
    ch ∈ Scanner.variants ignoreCase first := by
  rw [sameUpToCase, Bool.or_eq_true, beq_iff_eq, Bool.and_eq_true, beq_iff_eq] at hsame
  unfold Scanner.variants
  rcases hsame with rfl | ⟨rfl, hlower⟩
  · split <;> exact List.mem_cons_self
  · obtain ⟨hfirst, hch⟩ := h.resolve_left (by decide)
    rw [if_pos rfl, List.mem_cons]
    exact mem_forms_of_same hfirst hch hlower

/-- **A literal that matches is tried just where the character ahead is a form of its first
one.** So it is always tried when case matters, and when neither character is one-way. -/
theorem literal_tried_iff [Xid] {ignoreCase : Bool} {commands : List Command}
    (h : (Definition.ofCommands ignoreCase commands).compile = .ok c)
    (hid : id ∈ c.cfg.terminals) (ht : c.terms[id]? = some t) (hliteral : t.isLiteral = true)
    {m : Matcher} (hm : t.matcher = some m) {input : String} {position : Nat} {lexeme : Lexeme}
    (hmatch : m.matchAt input position = some lexeme) :
    ∃ text first more ch rest, m = .literal text c.ignoreCase ∧ text.toList = first :: more ∧
      charsFrom input position = some (ch :: rest) ∧
      (id ∈ c.scanner.candidates ch ↔ ch ∈ Scanner.variants c.ignoreCase first) ∧
      (c.ignoreCase = false ∨ ¬ IsOneWay first ∧ ¬ IsOneWay ch →
        id ∈ c.scanner.candidates ch) := by
  obtain ⟨ts, hc⟩ := exists_collected h
  obtain ⟨text, hne, -, hmatcher⟩ := hc.literal ht hliteral
  obtain rfl : m = .literal text c.ignoreCase := Option.some.inj (hm.symm.trans hmatcher)
  obtain ⟨first, more, ch, rest, htext, hchars, hsame⟩ := exists_first_of_matchAt hne hmatch
  have htried : id ∈ c.scanner.candidates ch ↔ ch ∈ Scanner.variants c.ignoreCase first :=
    hc.mem_candidates_iff hid ht hmatcher htext
  exact ⟨text, first, more, ch, rest, rfl, htext, hchars, htried,
    fun hregular => htried.mpr (mem_variants_of_same hsame hregular)⟩

/-- A grammar that ignores case, with the literal `k`. -/
def letterK : List Command := [.literal "k", .nonterminal "S", .rule 4 (Expr.term 3), .root 4]

/-- The grammar of the literal `k`, compiled. -/
def letterKCompiled : Compiled :=
  let d := Definition.ofCommands true letterK
  d.compileCollection 4 (d.collect 4)

theorem compile_letterK : (Definition.ofCommands true letterK).compile = .ok letterKCompiled :=
  Definition.compile_eq_ok (by decide) (by decide)

theorem exists_literal_letterK : ∃ t, letterKCompiled.terms[3]? = some t ∧ t.isLiteral = true ∧
    t.matcher = some (.literal "k" true) :=
  ⟨_, rfl, rfl, rfl⟩

/-- **The Kelvin sign** matches the literal `k`, and the scanner does not try it there. -/
theorem kelvin_not_tried :
    (Definition.ofCommands true letterK).compile = .ok letterKCompiled ∧
      3 ∈ letterKCompiled.cfg.terminals ∧
      (∃ t, letterKCompiled.terms[3]? = some t ∧ t.isLiteral = true ∧
        t.matcher = some (.literal "k" true)) ∧
      (Matcher.literal "k" true).matchAt "\u212A" 0 =
        some { text := "\u212A", value := none, category := .content } ∧
      charsFrom "\u212A" 0 = some ['\u212A'] ∧
      3 ∉ letterKCompiled.scanner.candidates '\u212A' := by
  refine ⟨compile_letterK, by decide, exists_literal_letterK, ?_, ?_, ?_⟩
  all_goals decide

theorem literal_tried_iff_letterK :
    (Definition.ofCommands true letterK).compile = .ok letterKCompiled ∧
      (Matcher.literal "k" true).matchAt "K" 0 =
        some { text := "K", value := none, category := .content } ∧
      3 ∈ letterKCompiled.scanner.candidates 'K' := by
  have hmatch : (Matcher.literal "k" true).matchAt "K" 0 =
      some { text := "K", value := none, category := .content } := by decide
  obtain ⟨t, ht, hliteral, hm⟩ := exists_literal_letterK
  obtain ⟨text, first, more, ch, rest, hmatcher, htext, hchars, htried, -⟩ :=
    literal_tried_iff compile_letterK (by decide) ht hliteral hm hmatch
  obtain ⟨rfl, -⟩ := Matcher.literal.inj hmatcher
  obtain ⟨rfl, -⟩ := List.cons.inj (show 'k' :: [] = first :: more from htext)
  have hK : charsFrom "K" 0 = some ['K'] := by decide
  obtain ⟨rfl, -⟩ := List.cons.inj (Option.some.inj (hK.symm.trans hchars))
  exact ⟨compile_letterK, hmatch, htried.mpr (by decide)⟩

end Compiled

end Lalr

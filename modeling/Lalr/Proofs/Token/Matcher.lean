import Lalr.Token.Matcher
import Mathlib.Data.List.Forall2
import Mathlib.Data.List.TakeWhile

/-!
# What matchers match

What the two kinds of matchers find at the front of a text, without their loops:

* a literal finds as many characters as it has, each the same up to case; a literal that is a word
  finds them only where no longer word begins (**`matchLiteral_eq_some_iff`**). Reading ends between
  two characters of the input, and so no cut goes wrong (`readTo_eq_some_iff`, `tryLiteral_eq`).
  **`literal_exact`** says all of this of an input and a byte position;
* an identifier finds the longest word, if it is no keyword (**`matchIdentifier_eq_some_iff`**).
  There is only one (`LongestWord.unique`).
-/

namespace Lalr

open Text

namespace Matcher

variable {ignoreCase : Bool} {text rest front back : List Char}

/-- The texts are the same up to case, character by character. -/
abbrev SameText (ignoreCase : Bool) (as bs : List Char) : Prop :=
  List.Forall₂ (fun a b => sameUpToCase ignoreCase a b = true) as bs

/-! ## Literals -/

/-- **Reading ends behind a front part of the text** that is the same as what was expected, up to
case. -/
theorem readTo_eq_some_iff {offset stop : Nat} : readTo ignoreCase offset text rest = some stop ↔
    ∃ front back, rest = front ++ back ∧ SameText ignoreCase text front ∧
      stop = offset + byteLength front := by
  induction text generalizing offset rest with
  | nil =>
    rw [readTo, Option.some.injEq]
    constructor
    · rintro rfl
      exact ⟨[], rest, rfl, .nil, rfl⟩
    · rintro ⟨front, back, -, hsame, rfl⟩
      obtain rfl := List.forall₂_nil_left_iff.mp hsame
      rfl
  | cons expected more ih =>
    cases rest with
    | nil =>
      refine ⟨fun h => (nomatch h), ?_⟩
      rintro ⟨front, back, hrest, hsame, -⟩
      obtain ⟨rfl, -⟩ := List.append_eq_nil_iff.mp hrest.symm
      exact nomatch hsame
    | cons c rest =>
      rw [readTo]
      split
      · rename_i hc
        rw [ih]
        constructor
        · rintro ⟨front, back, rfl, hsame, rfl⟩
          exact ⟨c :: front, back, rfl, .cons hc hsame, by rw [byteLength_cons, Nat.add_assoc]⟩
        · rintro ⟨front', back, hrest, hsame, rfl⟩
          obtain ⟨d, front, -, hmore, rfl⟩ := List.forall₂_cons_left_iff.mp hsame
          obtain ⟨rfl, rfl⟩ := List.cons.inj hrest
          exact ⟨front, back, rfl, hmore, by rw [byteLength_cons, Nat.add_assoc]⟩
      · rename_i hc
        refine ⟨fun h => (nomatch h), ?_⟩
        rintro ⟨front', back, hrest, hsame, -⟩
        obtain ⟨d, front, hd, -, rfl⟩ := List.forall₂_cons_left_iff.mp hsame
        obtain ⟨rfl, -⟩ := List.cons.inj hrest
        exact absurd hd hc

/-- What a literal makes of a front part that is the same as its text, up to case. -/
theorem tryLiteral_append [Text.Xid] (back : List Char) (hsame : SameText ignoreCase text front) :
    tryLiteral text ignoreCase (front ++ back) =
      .ok (if isWord text && continuesWord back then none
        else some { text := String.ofList front, value := none, category := .content }) := by
  have hread : readTo ignoreCase 0 text (front ++ back) = some (byteLength front) :=
    readTo_eq_some_iff.mpr ⟨front, back, rfl, hsame, (Nat.zero_add _).symm⟩
  have hnext : continuesWord <$> sliceFrom (front ++ back) (byteLength front) =
      .ok (continuesWord back) := by
    rw [sliceFrom_append]
    rfl
  rw [tryLiteral, hread]
  dsimp only
  rw [hnext, sliceTo_append]
  cases isWord text with
  | false => rfl
  | true => cases continuesWord back <;> rfl

/-- **No cut goes wrong.** -/
theorem tryLiteral_eq [Text.Xid] (text : List Char) (ignoreCase : Bool) (rest : List Char) :
    tryLiteral text ignoreCase rest = .ok (matchLiteral text ignoreCase rest) := by
  have hok : ∃ found, tryLiteral text ignoreCase rest = .ok found := by
    cases hread : readTo ignoreCase 0 text rest with
    | none => exact ⟨none, by rw [tryLiteral, hread]⟩
    | some stop =>
      obtain ⟨front, back, rfl, hsame, -⟩ := readTo_eq_some_iff.mp hread
      exact ⟨_, tryLiteral_append back hsame⟩
  obtain ⟨found, hfound⟩ := hok
  rw [matchLiteral, hfound]

/-- **What a literal finds.** -/
theorem matchLiteral_eq_some_iff [Text.Xid] {lexeme : Lexeme} :
    matchLiteral text ignoreCase rest = some lexeme ↔
      ∃ front back, rest = front ++ back ∧ SameText ignoreCase text front ∧
        (isWord text = true → continuesWord back = false) ∧
        lexeme = { text := String.ofList front, value := none, category := .content } := by
  constructor
  · intro h
    cases hread : readTo ignoreCase 0 text rest with
    | none =>
      rw [matchLiteral, tryLiteral, hread] at h
      exact nomatch h
    | some stop =>
      obtain ⟨front, back, rfl, hsame, -⟩ := readTo_eq_some_iff.mp hread
      rw [matchLiteral, tryLiteral_append back hsame] at h
      dsimp only at h
      split at h
      · exact nomatch h
      · rename_i hword
        refine ⟨front, back, rfl, hsame, ?_, (Option.some.inj h).symm⟩
        intro htext
        simpa [htext] using hword
  · rintro ⟨front, back, rfl, hsame, hback, rfl⟩
    rw [matchLiteral, tryLiteral_append back hsame]
    dsimp only
    rw [if_neg]
    intro hword
    obtain ⟨htext, hcontinues⟩ := Bool.and_eq_true_iff.mp hword
    exact Bool.false_ne_true ((hback htext).symm.trans hcontinues)

theorem sameText_iff {as bs : List Char} : SameText ignoreCase as bs ↔
    List.Forall₂ (fun a b => a = b ∨ (ignoreCase = true ∧ lowerChar a = lowerChar b)) as bs := by
  simp only [SameText, sameUpToCase, Bool.or_eq_true, Bool.and_eq_true, beq_iff_eq]

theorem continuesWord_eq_false_iff [Text.Xid] : continuesWord back = false ↔
    ∀ c, back.head? = some c → isIdentContinue c = false := by
  cases back with
  | nil => exact ⟨fun _ c hc => (nomatch hc), fun _ => rfl⟩
  | cons c rest =>
    rw [continuesWord, List.head?_cons]
    constructor
    · rintro hc d ⟨⟩
      exact hc
    · exact fun hall => hall c rfl

/-- Where a literal matches, and what it matches. -/
theorem matchAt_literal_eq_some_iff [Text.Xid] {text input : String} {ignoreCase : Bool}
    {position : Nat} {lexeme : Lexeme} :
    (Matcher.literal text ignoreCase).matchAt input position = some lexeme ↔
      ∃ before front back : String,
        input = before ++ front ++ back ∧ before.utf8ByteSize = position ∧
        List.Forall₂ (fun a b => a = b ∨ (ignoreCase = true ∧ lowerChar a = lowerChar b))
          text.toList front.toList ∧
        (isWord text.toList = true →
          ∀ c, back.toList.head? = some c → isIdentContinue c = false) ∧
        lexeme = { text := front, value := none, category := .content } := by
  rw [matchAt, Option.bind_eq_some_iff]
  simp only [charsFrom_eq_some_iff, matchLiteral_eq_some_iff, sameText_iff,
    continuesWord_eq_false_iff]
  constructor
  · rintro ⟨_, ⟨before, rfl, hposition⟩, front, back, rfl, hsame, hback, rfl⟩
    refine ⟨before, String.ofList front, String.ofList back, ?_, hposition, ?_, ?_, rfl⟩
    · rw [String.ofList_append, String.append_assoc]
    · rwa [String.toList_ofList]
    · rwa [String.toList_ofList]
  · rintro ⟨before, front, back, rfl, hposition, hsame, hback, rfl⟩
    refine ⟨front.toList ++ back.toList, ⟨before, ?_, hposition⟩, front.toList, back.toList, rfl,
      hsame, hback, by rw [String.ofList_toList]⟩
    rw [String.ofList_append, String.ofList_toList, String.ofList_toList, String.append_assoc]

/-- **Literals are matched exactly**, for every text, input and byte position, whether case is
ignored or not. Behind every position between two characters the match and what follows it are cut
out between two characters, and at no other position is anything found. What is found stands at the
position: it has as many characters as the text, each the same or, when case is ignored, with the
same lowercase form, and if the text is a word then no character that continues identifiers follows.
The two need not have the same number of bytes. -/
theorem literal_exact [Text.Xid] :
    (∀ (text input : String) (ignoreCase : Bool) (position : Nat),
      (∀ rest, charsFrom input position = some rest →
        tryLiteral text.toList ignoreCase rest =
          .ok ((Matcher.literal text ignoreCase).matchAt input position)) ∧
      ∀ lexeme, (Matcher.literal text ignoreCase).matchAt input position = some lexeme ↔
        ∃ before front back : String,
          input = before ++ front ++ back ∧ before.utf8ByteSize = position ∧
          List.Forall₂ (fun a b => a = b ∨ (ignoreCase = true ∧ lowerChar a = lowerChar b))
            text.toList front.toList ∧
          (isWord text.toList = true →
            ∀ c, back.toList.head? = some c → isIdentContinue c = false) ∧
          lexeme = { text := front, value := none, category := .content }) ∧
    ∃ text input position lexeme, (Matcher.literal text true).matchAt input position = some lexeme ∧
      lexeme.text.utf8ByteSize ≠ text.utf8ByteSize := by
  have hiff := @matchAt_literal_eq_some_iff
  refine ⟨fun text input ignoreCase position => ⟨fun rest hrest => ?_, fun _ => hiff⟩, ?_⟩
  · rw [matchAt, hrest, Option.bind_some, tryLiteral_eq]
  · -- the sign for kelvin has three bytes
    have hkelvin : (Matcher.literal "k" true).matchAt "\u212A" 0 =
        some { text := "\u212A", value := none, category := .content } :=
      hiff.mpr ⟨"", "\u212A", "", rfl, rfl, .cons (Or.inr ⟨rfl, by decide⟩) .nil,
        fun _ c hc => (nomatch hc), rfl⟩
    exact ⟨"k", "\u212A", 0, _, hkelvin, by decide⟩

/-- The word `if` is found in other letter case, behind a character of two bytes. -/
theorem literal_exact_if :
    charsFrom "éIf." 2 = some ['I', 'f', '.'] ∧
      tryLiteral "if".toList true ['I', 'f', '.'] =
        .ok (some { text := "If", value := none, category := .content }) ∧
      ∃ before front back : String,
        "éIf." = before ++ front ++ back ∧ before.utf8ByteSize = 2 ∧
        List.Forall₂ (fun a b => a = b ∨ (true = true ∧ lowerChar a = lowerChar b))
          "if".toList front.toList ∧
        (isWord "if".toList = true →
          ∀ c, back.toList.head? = some c → isIdentContinue c = false) ∧
        ({ text := "If", value := none, category := .content } : Lexeme) =
          { text := front, value := none, category := .content } := by
  have hchars : charsFrom "éIf." 2 = some ['I', 'f', '.'] := by decide
  have hmatch : (Matcher.literal "if" true).matchAt "éIf." 2 =
      some { text := "If", value := none, category := .content } := by decide
  obtain ⟨hcuts, hfinds⟩ := literal_exact.1 "if" "éIf." true 2
  exact ⟨hchars, hmatch ▸ hcuts _ hchars, (hfinds _).mp hmatch⟩

/-! ## Identifiers -/

/-- `front` is the longest word that the text begins with, and `back` is what follows it. -/
structure LongestWord [Text.Xid] (rest front back : List Char) : Prop where
  split : rest = front ++ back
  word  : isWord front = true
  ends  : continuesWord back = false

theorem continuesWord_dropWhile [Text.Xid] (cs : List Char) :
    continuesWord (cs.dropWhile isIdentContinue) = false := by
  induction cs with
  | nil => rfl
  | cons c cs ih =>
    rw [List.dropWhile_cons]
    split
    · exact ih
    · rename_i hc
      exact Bool.not_eq_true _ ▸ hc

/-- The text begins with a word iff its first character starts one. -/
theorem longestWord_iff [Text.Xid] {c : Char} : LongestWord (c :: rest) front back ↔
    isIdentStart c = true ∧ front = c :: rest.takeWhile isIdentContinue ∧
      back = rest.dropWhile isIdentContinue := by
  constructor
  · rintro ⟨hsplit, hword, hends⟩
    cases front with
    | nil => exact nomatch hword
    | cons d front =>
      rw [List.cons_append] at hsplit
      obtain ⟨rfl, rfl⟩ := List.cons.inj hsplit
      obtain ⟨hstart, hall⟩ := Bool.and_eq_true_iff.mp hword
      have hback : back.takeWhile isIdentContinue = [] ∧ back.dropWhile isIdentContinue = back := by
        cases back with
        | nil => exact ⟨rfl, rfl⟩
        | cons e back =>
          have he : isIdentContinue e = false := hends
          simp [he]
      rw [List.takeWhile_append_of_pos (List.all_eq_true.mp hall),
        List.dropWhile_append_of_pos (List.all_eq_true.mp hall), hback.1, hback.2, List.append_nil]
      exact ⟨hstart, rfl, rfl⟩
  · rintro ⟨hstart, rfl, rfl⟩
    refine ⟨by simp, ?_, continuesWord_dropWhile rest⟩
    rw [isWord, Bool.and_eq_true, List.all_eq_true]
    exact ⟨hstart, fun d => List.mem_takeWhile_imp⟩

/-- **A text begins with at most one longest word.** -/
theorem LongestWord.unique [Text.Xid] {front' back' : List Char} (h : LongestWord rest front back)
    (h' : LongestWord rest front' back') : front' = front ∧ back' = back := by
  cases rest with
  | nil =>
    obtain ⟨rfl, -⟩ := List.append_eq_nil_iff.mp h.split.symm
    exact nomatch h.word
  | cons c rest =>
    obtain ⟨-, rfl, rfl⟩ := longestWord_iff.mp h
    obtain ⟨-, rfl, rfl⟩ := longestWord_iff.mp h'
    exact ⟨rfl, rfl⟩

/-- **What an identifier finds.** -/
theorem matchIdentifier_eq_some_iff [Text.Xid] {keywords : List String} {lexeme : Lexeme} :
    matchIdentifier keywords ignoreCase rest = some lexeme ↔
      ∃ front back, LongestWord rest front back ∧
        foldCase ignoreCase (String.ofList front) ∉ keywords ∧
        lexeme = { text := String.ofList front, value := some (String.ofList front),
                   category := .content } := by
  cases rest with
  | nil =>
    refine ⟨fun h => (nomatch h), ?_⟩
    rintro ⟨front, back, hlongest, -⟩
    obtain ⟨rfl, -⟩ := List.append_eq_nil_iff.mp hlongest.split.symm
    exact nomatch hlongest.word
  | cons c rest =>
    simp only [longestWord_iff]
    rw [matchIdentifier]
    split
    · rename_i hstart
      dsimp only
      split
      · rename_i hkeyword
        refine ⟨fun h => (nomatch h), ?_⟩
        rintro ⟨_, _, ⟨-, rfl, rfl⟩, hmem, -⟩
        exact absurd (List.contains_iff_mem.mp hkeyword) hmem
      · rename_i hkeyword
        constructor
        · intro h
          refine ⟨_, _, ⟨hstart, rfl, rfl⟩, ?_, (Option.some.inj h).symm⟩
          exact fun hmem => hkeyword (List.contains_iff_mem.mpr hmem)
        · rintro ⟨_, _, ⟨-, rfl, rfl⟩, -, rfl⟩
          rfl
    · rename_i hstart
      refine ⟨fun h => (nomatch h), ?_⟩
      rintro ⟨_, _, ⟨hstart', -⟩, -⟩
      exact absurd hstart' hstart

end Matcher

end Lalr

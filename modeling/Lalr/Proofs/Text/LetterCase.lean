import Lalr.Proofs.Text.CaseTables
import Mathlib.Data.List.Forall2
import Mathlib.Logic.Basic

/-!
# Ways to ignore case

Characters are the same up to case if their lowercase forms agree. There are two other ways to
ignore case, and either differs a little from this one.

* One may take a character for its lowercase and uppercase forms. But there are letters that
  nothing comes back to: the Kelvin sign has the lowercase form `k`, and `k` has the uppercase form
  `K` (`IsOneWay`). Apart from these the two ways agree (**`mem_forms_of_same`**).
* One may compare the lowercase forms of whole texts. Then a capital sigma at the end of a word
  becomes the final small sigma, so it differs from the other small sigma in this place. That is
  the only difference (**`exists_final_sigma`**).

Words are another matter, since what may stand in them is a parameter (`Xid`). It is required that a
letter and its lowercase form are alike (`Xid.IgnoresCase`) and that a word stays a word in
lowercase (`Xid.KeepsWords`), as Unicode says of its identifiers. The tables at hand are so
(`ignoresCase_unicode17`, `keepsWords_unicode17`).
-/

namespace Lalr.Text

/-- The lowercase form of the letter is another one, whose uppercase form is not this letter. -/
def IsOneWay (c : Char) : Prop := lowerChar c ≠ [c] ∧ ∀ l, lowerChar c = [l] → upperChar l ≠ [c]

theorem not_isOneWay_iff {c : Char} :
    ¬ IsOneWay c ↔ lowerChar c = [c] ∨ ∃ l, lowerChar c = [l] ∧ upperChar l = [c] := by
  simp only [IsOneWay, not_and_or, not_not, not_forall, exists_prop]

/-- **Letters with the same lowercase form are forms of each other**, unless one is one-way. -/
theorem mem_forms_of_same {a b : Char} (ha : ¬ IsOneWay a) (hb : ¬ IsOneWay b)
    (h : lowerChar a = lowerChar b) : b = a ∨ b ∈ lowerChar a ++ upperChar a := by
  rcases not_isOneWay_iff.mp hb with hb | ⟨l, hl, hb⟩
  · right
    rw [h, hb]
    exact List.mem_append_left _ List.mem_cons_self
  · rcases not_isOneWay_iff.mp ha with ha | ⟨l', hl', ha⟩
    · obtain rfl : l = a := (List.singleton_inj.mp (ha.symm.trans (h.trans hl))).symm
      right
      rw [hb]
      exact List.mem_append_right _ List.mem_cons_self
    · obtain rfl : l = l' := List.singleton_inj.mp (hl.symm.trans (h.symm.trans hl'))
      exact Or.inl (List.singleton_inj.mp (hb.symm.trans ha))

/-! ## Texts -/

/-- The texts have the same lowercase forms, character by character. -/
abbrev SameLetters (as bs : List Char) : Prop :=
  List.Forall₂ (fun a b => lowerChar a = lowerChar b) as bs

variable {as bs before before' : List Char}

theorem all_same {P : Char → Bool} (hP : ∀ a b, lowerChar a = lowerChar b → P a = P b)
    (h : SameLetters as bs) : as.all P = bs.all P := by
  induction h with
  | nil => rfl
  | cons hab _ ih => rw [List.all_cons, List.all_cons, hP _ _ hab, ih]

theorem meetsCased_same (h : SameLetters as bs) : meetsCased as = meetsCased bs := by
  induction h with
  | nil => rfl
  | @cons a b as bs hab _ ih =>
    unfold meetsCased
    rw [List.dropWhile_cons, List.dropWhile_cons, isCaseIgnorable_ignoresCase.eq_of_same hab]
    by_cases hb : isCaseIgnorable b = true
    · rw [if_pos hb, if_pos hb]
      exact ih
    · rw [if_neg hb, if_neg hb]
      exact isCased_ignoresCase.eq_of_same hab

/-- What a character becomes in the lowercase form of a text. -/
def lowerPiece (before : List Char) (c : Char) (rest : List Char) : List Char :=
  if c = 'Σ' then [smallSigma before rest] else lowerChar c

theorem lowerBehind_cons (before : List Char) (c : Char) (rest : List Char) :
    lowerBehind before (c :: rest) = lowerPiece before c rest ++ lowerBehind (c :: before) rest :=
  rfl

/-! ### The final sigma -/

theorem smallSigma_same (has : SameLetters as bs) (hbefore : SameLetters before before') :
    smallSigma before as = smallSigma before' bs := by
  unfold smallSigma
  rw [meetsCased_same has, meetsCased_same hbefore]

theorem final_of_smallSigma_ne (h : smallSigma before as ≠ 'σ') :
    meetsCased before = true ∧ meetsCased as = false := by
  unfold smallSigma at h
  split at h
  · rename_i hfinal
    simpa using hfinal
  · exact absurd rfl h

/-- Two characters with the same lowercase form become the same in a text, but for a final sigma. -/
theorem final_of_lowerPiece_ne {a b : Char} (hab : lowerChar a = lowerChar b)
    (has : SameLetters as bs) (hbefore : SameLetters before before')
    (hne : lowerPiece before a as ≠ lowerPiece before' b bs) :
    (b = 'σ' ∨ b = 'Σ') ∧ meetsCased before' = true ∧ meetsCased bs = false := by
  have hsigma : lowerChar 'Σ' = ['σ'] := rfl
  have hsame := smallSigma_same has hbefore
  unfold lowerPiece at hne
  split at hne
  · rename_i ha
    subst ha
    split at hne
    · exact absurd (congrArg (fun c => [c]) hsame) hne
    · have hb : lowerChar b = ['σ'] := hab.symm.trans hsigma
      rw [hb, hsame] at hne
      exact ⟨eq_sigma_of_lowerChar hb,
        final_of_smallSigma_ne fun heq => hne (congrArg (fun c => [c]) heq)⟩
  · split at hne
    · rename_i hb
      subst hb
      rw [hab, hsigma] at hne
      exact ⟨Or.inr rfl,
        final_of_smallSigma_ne fun heq => hne (congrArg (fun c => [c]) heq.symm)⟩
    · exact absurd hab hne

/-- **Only a final sigma tells texts with the same letters apart in lowercase.** -/
theorem exists_final_sigma (h : SameLetters as bs) (hbefore : SameLetters before before')
    (hne : lowerBehind before as ≠ lowerBehind before' bs) :
    ∃ front s back, bs = front ++ s :: back ∧ (s = 'σ' ∨ s = 'Σ') ∧
      meetsCased (front.reverse ++ before') = true ∧ meetsCased back = false := by
  induction h generalizing before before' with
  | nil => exact absurd rfl hne
  | @cons a b as bs hab h ih =>
    by_cases hpiece : lowerPiece before a as = lowerPiece before' b bs
    · rw [lowerBehind_cons, lowerBehind_cons, hpiece] at hne
      obtain ⟨front, s, back, rfl, hs, hfront, hback⟩ :=
        ih (.cons hab hbefore) fun heq => hne (congrArg _ heq)
      exact ⟨b :: front, s, back, rfl, hs, by simpa using hfront, hback⟩
    · obtain ⟨hb, hfront, hback⟩ := final_of_lowerPiece_ne hab h hbefore hpiece
      exact ⟨[], b, bs, rfl, hb, hfront, hback⟩

/-! ## Words -/

namespace Xid

/-- **Characters with the same lowercase form are alike** in identifiers. -/
structure IgnoresCase [Xid] : Prop where
  isStart    : ∀ a b, lowerChar a = lowerChar b → Xid.isStart a = Xid.isStart b
  isContinue : ∀ a b, lowerChar a = lowerChar b → Xid.isContinue a = Xid.isContinue b

/-- **The lowercase form of a word is a word.** -/
def KeepsWords [Xid] : Prop :=
  ∀ text : String, isWord text.toList = true → isWord (lowercase text).toList = true

end Xid

theorem isIdentStart_same [Xid] (hcase : Xid.IgnoresCase) {a b : Char}
    (h : lowerChar a = lowerChar b) : isIdentStart a = isIdentStart b := by
  have hunderscore : lowerChar '_' = ['_'] := by decide
  have heq : a = '_' ↔ b = '_' := by
    constructor
    · rintro rfl
      exact eq_underscore_of_lowerChar (h.symm.trans hunderscore)
    · rintro rfl
      exact eq_underscore_of_lowerChar (h.trans hunderscore)
  rw [isIdentStart, isIdentStart, hcase.isStart a b h, Bool.eq_iff_iff, Bool.or_eq_true,
    Bool.or_eq_true, beq_iff_eq, beq_iff_eq, heq]

/-- **Texts with the same letters are both words, or neither is.** -/
theorem isWord_same [Xid] (hcase : Xid.IgnoresCase) (h : SameLetters as bs) :
    isWord as = isWord bs := by
  cases h with
  | nil => rfl
  | cons hab h =>
    have hrest := all_same (P := isIdentContinue) hcase.isContinue h
    rw [isWord, isWord, isIdentStart_same hcase hab, hrest]

/-! ### The tables at hand -/

theorem ignoresCase_unicode17 : Xid.IgnoresCase where
  isStart _ _ := isStart_ignoresCase.eq_of_same
  isContinue _ _ := isContinue_ignoresCase.eq_of_same

/-- The sigmas may stand anywhere in a word. -/
theorem sigmas_in_words :
    ∀ c ∈ ['Σ', 'σ', 'ς'], isIdentStart c = true ∧ isIdentContinue c = true := by
  have hall : ['Σ', 'σ', 'ς'].all (fun c => isIdentStart c && isIdentContinue c) = true := by
    decide
  exact fun c hc => Bool.and_eq_true_iff.mp (List.all_eq_true.mp hall c hc)

theorem lowerPiece_cases (before : List Char) (c : Char) (rest : List Char) :
    (∃ l, lowerPiece before c rest = [l] ∧
      isIdentStart l = isIdentStart c ∧ isIdentContinue l = isIdentContinue c) ∨
    lowerPiece before c rest = ['i', '\u0307'] := by
  unfold lowerPiece
  split
  · rename_i hc
    subst hc
    left
    have hsmall : smallSigma before rest ∈ ['Σ', 'σ', 'ς'] := by
      unfold smallSigma
      split <;> simp
    obtain ⟨hstart, hcontinue⟩ := sigmas_in_words _ hsmall
    obtain ⟨hstart', hcontinue'⟩ := sigmas_in_words 'Σ' List.mem_cons_self
    exact ⟨_, rfl, hstart.trans hstart'.symm, hcontinue.trans hcontinue'.symm⟩
  · rcases lowerChar_cases c with ⟨-, hc⟩ | hc | ⟨-, -, l, hc, -⟩
    · exact Or.inr hc
    · exact Or.inl ⟨c, hc, rfl, rfl⟩
    · left
      by_cases hunderscore : c = '_'
      · subst hunderscore
        obtain rfl : '_' = l := List.singleton_inj.mp hc
        exact ⟨_, hc, rfl, rfl⟩
      · have hl : l ≠ '_' := fun hl => hunderscore (eq_underscore_of_lowerChar (hl ▸ hc))
        refine ⟨l, hc, ?_, isContinue_ignoresCase c l hc⟩
        rw [isIdentStart, isIdentStart, isStart_ignoresCase c l hc, beq_eq_false_iff_ne.mpr hl,
          beq_eq_false_iff_ne.mpr hunderscore]

theorem all_lowerBehind {cs : List Char} (h : cs.all isIdentContinue = true)
    (before : List Char) : (lowerBehind before cs).all isIdentContinue = true := by
  induction cs generalizing before with
  | nil => rfl
  | cons c cs ih =>
    obtain ⟨hc, hcs⟩ := Bool.and_eq_true_iff.mp h
    rw [lowerBehind_cons, List.all_append, ih hcs, Bool.and_true]
    rcases lowerPiece_cases before c cs with ⟨l, hpiece, -, hl⟩ | hpiece
    · rw [hpiece, List.all_cons, hl, hc]
      rfl
    · rw [hpiece]
      rfl

theorem isWord_lowerBehind {cs : List Char} (h : isWord cs = true) (before : List Char) :
    isWord (lowerBehind before cs) = true := by
  cases cs with
  | nil => exact h
  | cons c cs =>
    obtain ⟨hc, hcs⟩ := Bool.and_eq_true_iff.mp h
    have hrest := all_lowerBehind hcs (c :: before)
    rw [lowerBehind_cons]
    rcases lowerPiece_cases before c cs with ⟨l, hpiece, hl, -⟩ | hpiece
    · rw [hpiece, List.singleton_append, isWord, hl, hc, hrest]
      rfl
    · have hpair : isIdentStart 'i' = true ∧ isIdentContinue '\u0307' = true := ⟨rfl, rfl⟩
      rw [hpiece, List.cons_append, List.singleton_append, isWord, List.all_cons, hpair.1, hpair.2,
        hrest]
      rfl

theorem keepsWords_unicode17 : Xid.KeepsWords := by
  intro text hword
  rw [lowercase, String.toList_ofList]
  exact isWord_lowerBehind hword []

end Lalr.Text

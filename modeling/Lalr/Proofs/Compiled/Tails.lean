import Lalr.Proofs.Cfg.Tails
import Lalr.Proofs.Compiled.Firsts

/-!
# The tails of the items of a compiled grammar

An item offers the terminals that may begin its tail to the start items of the symbol behind its
dot, and passes its own lookaheads on to them if the tail may be empty. So a tail that is told wrong
is a wrong lookahead in every state with the item.

**`tails_exact`**: every complete definition compiles, and for every position of the dot in a
right-hand side the tail is nullable iff every symbol in it is, and a terminal may begin the tail iff
it is in the FIRST set of a symbol in it that only nullable ones precede there. Positions are counted
from 0, so the symbol behind the dot stands at the position of the dot, and the tail begins one
further. If the dot is before the last symbol or behind it, the tail is empty.
-/

namespace Lalr

namespace Compiled

open Definition

/-- **Tails are exact**, for every complete definition, every production of the compiled grammar and
every position of the dot. -/
theorem tails_exact [Text.Xid] {ignoreCase : Bool} {commands : List Command} {root : TermId}
    (h : (ofCommands ignoreCase commands).Complete root) :
    ∃ c, (ofCommands ignoreCase commands).compile = .ok c ∧
      ∀ number p, c.cfg.productions[number]? = some p → ∀ dot ≤ p.rhs.length,
        (c.cfg.tailNullable c.facts ⟨number, dot⟩ = true ↔
          ∀ i x, dot < i → p.rhs[i]? = some x → x ∈ c.facts.nullable) ∧
        ∀ t, t ∈ c.cfg.tailFirsts c.facts ⟨number, dot⟩ ↔
          ∃ i x, dot < i ∧ p.rhs[i]? = some x ∧ t ∈ c.facts.firstOf x ∧
            ∀ j y, dot < j → j < i → p.rhs[j]? = some y → y ∈ c.facts.nullable := by
  obtain ⟨c, hc⟩ := (wellFormed_ofCommands ignoreCase commands).exists_compile h
  have hg := (built_of_compile hc).augmented
  refine ⟨c, hc, fun number p hp dot _ => ?_⟩
  have htail : c.cfg.tail ⟨number, dot⟩ = p.rhs.drop (dot + 1) := Cfg.tail_eq hp
  rw [facts_of_compile hc, hg.tailNullable_facts, hg.tailFirsts_facts, htail]
  refine ⟨Facts.allNullable_drop_iff, fun t => ?_⟩
  rw [Facts.mem_firstOfSequence]
  simp only [mem_leading_drop_iff]
  constructor
  · rintro ⟨x, ⟨i, hi, hx, hbetween⟩, ht⟩
    exact ⟨i, x, hi, hx, ht, hbetween⟩
  · rintro ⟨i, x, hi, hx, ht, hbetween⟩
    exact ⟨x, ⟨i, hi, hx, hbetween⟩, ht⟩

/-- `S` is `x A d B` or `x A B`, `A` is `a` or nothing, and `B` is `b` or nothing. -/
def optionalParts : List Command :=
  [.literal "x", .literal "a", .literal "b", .literal "d", .nonterminal "A", .nonterminal "B",
    .nonterminal "S", .rule 7 ⟨[[.term 4], [.term TermId.empty]]⟩,
    .rule 8 ⟨[[.term 5], [.term TermId.empty]]⟩,
    .rule 9 ⟨[[.term 3, .term 7, .term 6, .term 8], [.term 3, .term 7, .term 8]]⟩, .root 9]

/-- The grammar of these, compiled. -/
def optionalPartsCompiled : Compiled :=
  let d := ofCommands false optionalParts
  d.compileCollection 9 (d.collect 9)

theorem complete_optionalParts : (ofCommands false optionalParts).Complete 9 :=
  (wellFormed_ofCommands false optionalParts).complete_iff.mpr
    ⟨by decide, by decide⟩

/-- Behind the `x` of `x A d B` may stand an `a` or a `d`, but no `b`, since the `d` is not
nullable; so neither is the whole, though it ends in `B`. -/
theorem tails_exact_optionalParts :
    (ofCommands false optionalParts).Complete 9 ∧
      optionalPartsCompiled.cfg.productions[1]? = some ⟨9, [3, 7, 6, 8], []⟩ ∧
      (optionalPartsCompiled.cfg.tailFirsts optionalPartsCompiled.facts ⟨1, 0⟩).toList = [4, 6] ∧
      (¬ ∀ i x, 0 < i → [3, 7, 6, 8][i]? = some x → x ∈ optionalPartsCompiled.facts.nullable) ∧
      ¬ ∃ i x, 0 < i ∧ [3, 7, 6, 8][i]? = some x ∧ 5 ∈ optionalPartsCompiled.facts.firstOf x ∧
        ∀ j y, 0 < j → j < i → [3, 7, 6, 8][j]? = some y →
          y ∈ optionalPartsCompiled.facts.nullable := by
  obtain ⟨c, hc, htails⟩ := tails_exact complete_optionalParts
  obtain rfl : optionalPartsCompiled = c :=
    Except.ok.inj ((compile_eq_ok (by decide) (by decide)).symm.trans hc)
  have hp : optionalPartsCompiled.cfg.productions[1]? = some ⟨9, [3, 7, 6, 8], []⟩ := by
    decide
  have hscan :
      (optionalPartsCompiled.cfg.tailFirsts optionalPartsCompiled.facts ⟨1, 0⟩).toList = [4, 6] ∧
        optionalPartsCompiled.cfg.tailNullable optionalPartsCompiled.facts ⟨1, 0⟩ = false := by
    decide
  obtain ⟨hnullable, hfirsts⟩ := htails 1 _ hp 0 (Nat.zero_le _)
  refine ⟨complete_optionalParts, hp, hscan.1, ?_, ?_⟩
  · intro hall
    exact Bool.false_ne_true (hscan.2.symm.trans (hnullable.mpr hall))
  · intro hb
    have hmem := (hfirsts 5).mpr hb
    rw [← TermSet.mem_toList, hscan.1] at hmem
    simp at hmem

end Compiled

end Lalr

import Lalr.Proofs.Compiled.Firsts

/-!
# The nullable nonterminals of a compiled grammar

**`nullable_exact`**: every complete definition compiles, the passes over its nonterminals come to
an end, and a nonterminal is then marked nullable iff the productions derive the empty word from it.
So neither a nonterminal that was dropped as not nullable nor one that the last pass left undecided
derives it.
-/

namespace Lalr

namespace Compiled

open Definition

/-- **Nullability is exact**, for every complete definition. It compiles; the passes end, with what
the compiled grammar says; and marked are those of its nonterminals that derive the empty word, and
nothing else. -/
theorem nullable_exact [Text.Xid] {ignoreCase : Bool} {commands : List Command} {root : TermId}
    (h : (ofCommands ignoreCase commands).Complete root) :
    ∃ c, (ofCommands ignoreCase commands).compile = .ok c ∧
      (∃ undecided, NullScan.Settles c.cfg ⟨∅, c.cfg.nonterminals⟩ ⟨c.facts.nullable, undecided⟩) ∧
      ∀ x, x ∈ c.facts.nullable ↔ x ∈ c.cfg.nonterminals ∧ c.cfg.Derives [x] [] := by
  obtain ⟨c, hc⟩ := (wellFormed_ofCommands ignoreCase commands).exists_compile h
  have hg := (built_of_compile hc).augmented
  have hnullable : c.facts.nullable = c.cfg.nullable := by rw [facts_of_compile hc]; rfl
  refine ⟨c, hc, ⟨c.cfg.nullScan.undecided, ?_⟩, fun x => ?_⟩
  · rw [hnullable]
    exact c.cfg.settles_nullScan
  · have hderives : c.cfg.Derives [x] [] ↔ x ∈ c.cfg.nullable := by
      rw [hg.derives_nil_iff, List.forall_mem_singleton]
    rw [hnullable, hderives]
    exact ⟨fun hx => ⟨c.cfg.inv_nullScan.nonterminal x hx, hx⟩, And.right⟩

/-- `S` is `A A` or `D x`, `A` is `B` or `A A`, `B` is `C C` or `x`, `C` is nothing, `D` has no
alternative, and `E` is only itself. -/
def silences : List Command :=
  [.literal "x", .nonterminal "S", .nonterminal "A", .nonterminal "B", .nonterminal "C",
    .nonterminal "D", .nonterminal "E", .rule 4 ⟨[[.term 5, .term 5], [.term 8, .term 3, .term 9]]⟩,
    .rule 5 ⟨[[.term 6], [.term 5, .term 5]]⟩, .rule 6 ⟨[[.term 7, .term 7], [.term 3]]⟩,
    .rule 7 ⟨[[.term TermId.empty]]⟩, .rule 8 ⟨[]⟩, .rule 9 ⟨[[.term 9]]⟩, .root 4]

/-- The silences, compiled. -/
def silencesCompiled : Compiled :=
  let d := ofCommands false silences
  d.compileCollection 4 (d.collect 4)

theorem complete_silences : (ofCommands false silences).Complete 4 :=
  (wellFormed_ofCommands false silences).complete_iff.mpr ⟨by decide, by decide⟩

/-- `S` derives the empty word, which only the fourth pass finds. `D` and `E` do not: `D` is dropped
by the first pass, and `E` is left by the last. -/
theorem nullable_exact_silences :
    (ofCommands false silences).Complete 4 ∧
      silencesCompiled.cfg.nullScan.undecided = [9] ∧
      silencesCompiled.cfg.Derives [4] [] ∧
      ¬ silencesCompiled.cfg.Derives [8] [] ∧ ¬ silencesCompiled.cfg.Derives [9] [] := by
  obtain ⟨c, hc, -, hnullable⟩ := nullable_exact complete_silences
  obtain rfl : silencesCompiled = c :=
    Except.ok.inj ((compile_eq_ok (by decide) (by decide)).symm.trans hc)
  have hnonterminals : 8 ∈ silencesCompiled.cfg.nonterminals ∧
      9 ∈ silencesCompiled.cfg.nonterminals := by decide
  have hnot : 8 ∉ silencesCompiled.facts.nullable ∧ 9 ∉ silencesCompiled.facts.nullable := by
    decide
  refine ⟨complete_silences, by decide, ?_, ?_, ?_⟩
  · exact ((hnullable 4).mp (by decide)).2
  · exact fun h => hnot.1 ((hnullable 8).mpr ⟨hnonterminals.1, h⟩)
  · exact fun h => hnot.2 ((hnullable 9).mpr ⟨hnonterminals.2, h⟩)

end Compiled

end Lalr

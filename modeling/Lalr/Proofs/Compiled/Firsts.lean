import Lalr.Proofs.Cfg.Facts
import Lalr.Proofs.Compiled.Failure

/-!
# The FIRST sets of a compiled grammar

A definition is complete if it has a root and the root reaches no nonterminal without a rule. Such
a definition compiles (`WellFormed.exists_compile`), and the passes that find its FIRST sets come to
an end.

**`firsts_exact`**: the FIRST set of a symbol of the grammar has exactly the terminals that begin
something the symbol derives, in any number of steps. What follows the terminal need not derive a
word: it may have nonterminals that never do.
-/

namespace Lalr

namespace Definition

variable {d : Definition} {root : TermId} {c : Compiled}

/-- The definition has the root, and every nonterminal that the root reaches has a rule. -/
structure Complete (d : Definition) (root : TermId) : Prop where
  root_eq : d.root = some root
  rules   : ∀ id, d.Reaches root id → d.lacksRule (.term id) = false

theorem WellFormed.complete_iff (hd : d.WellFormed) :
    d.Complete root ↔ d.root = some root ∧ (d.collect root).withoutRule = [] := by
  constructor
  · intro h
    refine ⟨h.root_eq, List.eq_nil_iff_forall_not_mem.mpr fun id hid => ?_⟩
    obtain ⟨hreaches, hlacks⟩ := ((hd.allMissing_collect h.root_eq).mem_iff id).mp hid
    rw [h.rules id hreaches] at hlacks
    exact Bool.false_ne_true hlacks
  · rintro ⟨hroot, hnone⟩
    refine ⟨hroot, fun id hreaches => Bool.eq_false_iff.mpr fun hlacks => ?_⟩
    have hid := ((hd.allMissing_collect hroot).mem_iff id).mpr ⟨hreaches, hlacks⟩
    rw [hnone] at hid
    exact List.not_mem_nil hid

/-- **A complete definition compiles.** -/
theorem WellFormed.exists_compile [Text.Xid] (hd : d.WellFormed) (h : d.Complete root) :
    ∃ c, d.compile = .ok c := by
  obtain ⟨hroot, hnone⟩ := hd.complete_iff.mp h
  exact ⟨_, compile_eq_ok hroot (by rw [hnone]; rfl)⟩

/-- The terminals of the grammar are those of its symbols that are terminals. -/
theorem mem_terminals_iff_of_compile [Text.Xid] (h : d.compile = .ok c) {x : TermId}
    (hx : c.cfg.HasSymbol x) :
    x ∈ c.cfg.terminals ↔ c.isTerminal x = true := by
  obtain ⟨root, -, rfl⟩ := compile_ok h
  rw [isTerminal_compileCollection]
  constructor
  · exact fun hx => (Collection.mem_terminals.mp hx).2
  · intro hterminal
    refine hx.resolve_right fun hx => ?_
    rw [(Collection.mem_nonterminals.mp hx).2] at hterminal
    exact Bool.false_ne_true hterminal

/-- The facts are those of the grammar. -/
theorem facts_of_compile [Text.Xid] (h : d.compile = .ok c) : c.facts = c.cfg.facts := by
  obtain ⟨root, -, rfl⟩ := compile_ok h
  rfl

end Definition

namespace Compiled

open Definition

/-- **FIRST sets are exact**, for every complete definition. It compiles; the passes over FIRST sets
end, with the ones of the compiled grammar; and the set of a symbol has the terminals that begin
what the symbol derives, and nothing else. -/
theorem firsts_exact [Text.Xid] {ignoreCase : Bool} {commands : List Command} {root : TermId}
    (h : (ofCommands ignoreCase commands).Complete root) :
    ∃ c, (ofCommands ignoreCase commands).compile = .ok c ∧
      (c.cfg.firstGraph c.facts.nullable).Settles (c.cfg.firstScan c.facts.nullable).sets
        c.facts.firsts ∧
      ∀ x, c.cfg.HasSymbol x → ∀ t,
        t ∈ c.facts.firstOf x ↔ c.isTerminal t = true ∧ ∃ w, c.cfg.Derives [x] (t :: w) := by
  obtain ⟨c, hc⟩ := (wellFormed_ofCommands ignoreCase commands).exists_compile h
  have hg := (built_of_compile hc).augmented
  have hfacts := facts_of_compile hc
  refine ⟨c, hc, ?_, fun x hx t => ?_⟩
  · rw [hfacts]
    exact hg.settles_firsts
  · rw [hfacts, hg.mem_firstOf_iff_derives]
    refine and_congr_left ?_
    rintro ⟨w, hw⟩
    have hsymbols : ∀ y ∈ [x], c.cfg.HasSymbol y := List.forall_mem_singleton.mpr hx
    exact mem_terminals_iff_of_compile hc (hg.hasSymbol_of_derives hw hsymbols t List.mem_cons_self)

/-- `S` is `S + N` or `N`, `N` is `A d C`, `A` is `-` or nothing, and `C` is only itself. -/
def signed : List Command :=
  [.literal "-", .literal "d", .literal "+", .nonterminal "S", .nonterminal "N", .nonterminal "A",
    .nonterminal "C", .rule 6 ⟨[[.term 6, .term 5, .term 7], [.term 7]]⟩,
    .rule 7 ⟨[[.term 8, .term 4, .term 9]]⟩, .rule 8 ⟨[[.term 3], [.term TermId.empty]]⟩,
    .rule 9 ⟨[[.term 9]]⟩, .root 6]

/-- Signed sums, compiled. -/
def signedCompiled : Compiled :=
  let d := ofCommands false signed
  d.compileCollection 6 (d.collect 6)

theorem complete_signed : (ofCommands false signed).Complete 6 :=
  (wellFormed_ofCommands false signed).complete_iff.mpr ⟨by decide, by decide⟩

/-- `d` begins `S`, behind an `A` that is nothing and before a `C` that never ends; `+` does not. -/
theorem firsts_exact_signed :
    (ofCommands false signed).Complete 6 ∧ signedCompiled.cfg.HasSymbol 6 ∧
      (∃ w, signedCompiled.cfg.Derives [6] (4 :: w)) ∧
      ¬ ∃ w, signedCompiled.cfg.Derives [6] (5 :: w) := by
  obtain ⟨c, hc, -, hfirsts⟩ := firsts_exact complete_signed
  obtain rfl : signedCompiled = c :=
    Except.ok.inj ((compile_eq_ok (by decide) (by decide)).symm.trans hc)
  have hsymbol : signedCompiled.cfg.HasSymbol 6 := Or.inr (by decide)
  refine ⟨complete_signed, hsymbol, ?_, ?_⟩
  · exact ((hfirsts 6 hsymbol 4).mp (by decide)).2
  · intro hplus
    exact absurd ((hfirsts 6 hsymbol 5).mpr ⟨by decide, hplus⟩) (by decide)

end Compiled

end Lalr

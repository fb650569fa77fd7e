import Lalr.Proofs.Automaton.Validity
import Lalr.Proofs.Compiled.Choice

/-!
# The lookaheads of a compiled grammar

**`lookaheads_exact`**: in a state that symbols lead to, along the targets of the action records,
the lookaheads of an item are the ones foreseen for some symbols that lead there. All canonical
LR(1) lookaheads are among them, and there are no others if every nonterminal opens. The final
state has the end of input after the completed augmented root, whether or not symbols lead to it.

The condition cannot be dropped. In the grammar `endless` the rest of the root's first alternative
never opens, so no canonical item is closed over its front; the automaton still offers `y` to what
is read before `y` there (`lookahead_not_canonical_endless`).
-/

namespace Lalr

namespace Compiled

variable {c : Compiled} {q : StateId} {x : TermId}

/-- The state that symbols lead to from the initial state, along the targets of the records. -/
def stateAfter (c : Compiled) (xs : List TermId) : Option StateId :=
  xs.foldlM (fun q x => (c.records.find? q x).bind Record.target) StateId.initial

/-- The targets of the records are the moves of the automaton. -/
theorem Built.target_eq_goto (hb : c.Built) :
    (c.records.find? q x).bind Record.target = c.cfg.goto? q x := by
  cases hfind : c.records.find? q x with
  | none =>
    cases hgoto : c.cfg.goto? q x with
    | none => rfl
    | some target =>
      have hposed : (c.disputeAt q x).IsPosed := by
        left
        show (c.cfg.goto? q x).isSome = true
        rw [hgoto]
        rfl
      rw [hb.find?_iff.mpr ⟨hposed, rfl⟩] at hfind
      exact absurd hfind (by simp)
  | some r =>
    obtain ⟨-, rfl⟩ := hb.find?_iff.mp hfind
    rw [Dispute.resolve_fst]
    rfl

theorem Built.stateAfter_eq (hb : c.Built) (xs : List TermId) :
    c.stateAfter xs = c.cfg.stateAfter xs := by
  unfold stateAfter Cfg.stateAfter
  congr 1
  funext q x
  exact hb.target_eq_goto

theorem Built.mem_lookaheadsOf_iff (hb : c.Built) {s : State} {item : Item} {a : TermId}
    (hs : c.automaton.states[q]? = some s) (hi : item ∈ s.items) :
    a ∈ c.automaton.lookaheadsOf q item ↔ c.cfg.Lookahead q item a := by
  rw [hb.automaton] at hs ⊢
  apply hb.augmented.mem_lookaheadsOf_iff
  rw [Cfg.itemsOf_eq hs]
  exact hi

/-- The final state has the completed augmented root, followed by the end of input. -/
theorem Built.final_state (hb : c.Built) : ∃ s, c.automaton.states[StateId.final]? = some s ∧
    s.items = [⟨ProductionId.root, 1⟩] ∧
    ∀ a, a ∈ c.automaton.lookaheadsOf StateId.final ⟨ProductionId.root, 1⟩ ↔ a = TermId.eof := by
  have hitems := hb.augmented.itemsOf_final
  obtain ⟨s, hs⟩ : ∃ s, c.cfg.states[StateId.final]? = some s :=
    ⟨_, Cfg.state_eq_some_iff.mpr ⟨_, c.cfg.kernels_final, rfl⟩⟩
  rw [Cfg.itemsOf_eq hs] at hitems
  have hs' : c.automaton.states[StateId.final]? = some s := by
    rw [hb.automaton]
    exact hs
  refine ⟨s, hs', hitems, ?_⟩
  intro a
  have hmem : (⟨ProductionId.root, 1⟩ : Item) ∈ s.items := by
    rw [hitems]
    exact List.mem_singleton_self _
  rw [hb.mem_lookaheadsOf_iff hs' hmem, hb.augmented.lookahead_root_iff, Cfg.itemsOf_eq hs]
  exact and_iff_left hmem

/-- **The lookaheads of an item are the ones foreseen for symbols that lead to its state**, for
every definition that compiles. Canonical lookaheads are among them, and are all of them if every
nonterminal opens. In the final state, led to or not, the end of input is the only one. -/
theorem lookaheads_exact [Text.Xid] {ignoreCase : Bool} {commands : List Command}
    (h : (Definition.ofCommands ignoreCase commands).compile = .ok c) :
    (∀ q s item a, (∃ xs, c.stateAfter xs = some q) → c.automaton.states[q]? = some s →
      item ∈ s.items →
      (a ∈ c.automaton.lookaheadsOf q item ↔
        ∃ xs, c.stateAfter xs = some q ∧ c.cfg.Foreseen xs item a) ∧
      ((∃ xs, c.stateAfter xs = some q ∧ c.cfg.Canonical xs item a) →
        a ∈ c.automaton.lookaheadsOf q item) ∧
      (c.cfg.Opening → (a ∈ c.automaton.lookaheadsOf q item ↔
        ∃ xs, c.stateAfter xs = some q ∧ c.cfg.Canonical xs item a))) ∧
    ∃ s, c.automaton.states[StateId.final]? = some s ∧ s.items = [⟨ProductionId.root, 1⟩] ∧
      ∀ a, a ∈ c.automaton.lookaheadsOf StateId.final ⟨ProductionId.root, 1⟩ ↔
        a = TermId.eof := by
  have hb := Definition.built_of_compile h
  have hg := hb.augmented
  refine ⟨?_, hb.final_state⟩
  intro q s item a hled hs hi
  simp only [hb.stateAfter_eq] at hled ⊢
  have hforeseen := (hb.mem_lookaheadsOf_iff hs hi).trans (hg.lookahead_iff_foreseen (a := a) hled)
  refine ⟨hforeseen, ?_, ?_⟩
  · rintro ⟨xs, hxs, hcanonical⟩
    exact hforeseen.mpr ⟨xs, hxs, hcanonical.foreseen hg⟩
  · intro hopening
    rw [hforeseen]
    refine exists_congr fun xs => and_congr_right ?_
    intro _
    exact ⟨fun h => h.canonical hg hopening, fun h => h.foreseen hg⟩

/-- `S` is `L = R` or `R`, `L` is `* R` or `x`, and `R` is `L`. -/
def assignments : List Command :=
  [.literal "=", .literal "*", .literal "x", .nonterminal "S", .nonterminal "L", .nonterminal "R",
    .rule 6 ⟨[[.term 7, .term 3, .term 8], [.term 8]]⟩, .rule 7 ⟨[[.term 4, .term 8], [.term 5]]⟩,
    .rule 8 ⟨[[.term 7]]⟩, .root 6]

/-- Assignments, compiled. -/
def assignmentsCompiled : Compiled :=
  let d := Definition.ofCommands false assignments
  d.compileCollection 6 (d.collect 6)

theorem compile_assignments :
    (Definition.ofCommands false assignments).compile = .ok assignmentsCompiled :=
  Definition.compile_eq_ok (by decide) (by decide)

theorem opening_assignments : assignmentsCompiled.cfg.Opening := by
  rw [(Definition.built_of_compile compile_assignments).augmented.opening_iff]
  decide

/-- Behind `* L` the equals sign is a canonical lookahead of the completed `R`. -/
theorem lookaheads_exact_assignments :
    (Definition.ofCommands false assignments).compile = .ok assignmentsCompiled ∧
      assignmentsCompiled.cfg.Opening ∧ ∃ xs, assignmentsCompiled.stateAfter xs = some 8 ∧
        assignmentsCompiled.cfg.Canonical xs ⟨5, 1⟩ 3 := by
  have hitems : (assignmentsCompiled.automaton.states[8]?).map State.items = some [⟨5, 1⟩] := by
    decide
  obtain ⟨s, hs, hitems⟩ := Option.map_eq_some_iff.mp hitems
  have hexact := (lookaheads_exact compile_assignments).1 8 s ⟨5, 1⟩ 3 ⟨[4, 7], by decide⟩
    hs (by rw [hitems]; exact List.mem_singleton_self _)
  exact ⟨compile_assignments, opening_assignments,
    (hexact.2.2 opening_assignments).mp (by decide)⟩

/-! ## A rest that never opens -/

/-- `S` is `A C` or `x`, `A` is `B y`, `B` is `z`, and `C` is only itself. -/
def endless : List Command :=
  [.literal "x", .literal "y", .literal "z", .nonterminal "S", .nonterminal "A", .nonterminal "B",
    .nonterminal "C", .rule 6 ⟨[[.term 7, .term 9], [.term 3]]⟩, .rule 7 ⟨[[.term 8, .term 4]]⟩,
    .rule 8 ⟨[[.term 5]]⟩, .rule 9 ⟨[[.term 9]]⟩, .root 6]

/-- The endless grammar, compiled. -/
def endlessCompiled : Compiled :=
  let d := Definition.ofCommands false endless
  d.compileCollection 6 (d.collect 6)

theorem compile_endless : (Definition.ofCommands false endless).compile = .ok endlessCompiled :=
  Definition.compile_eq_ok (by decide) (by decide)

/-- Nothing terminal comes first in what begins with `C`. -/
theorem not_first_endless {u : List TermId} {t : TermId} :
    ¬ endlessCompiled.cfg.First (9 :: u) t := by
  rintro ⟨ht, w, hw⟩
  have hloop : ∀ p ∈ endlessCompiled.cfg.productions, p.lhs = 9 → p.rhs.head? = some 9 := by
    decide
  obtain ⟨w', hw'⟩ := hw.head_eq hloop
  obtain ⟨rfl, -⟩ := List.cons.inj hw'
  exact absurd ht (by decide)

/-- No canonical item is one of `A` or of `B`. -/
theorem canonical_endless {xs : List TermId} {item : Item} {a : TermId}
    (h : endlessCompiled.cfg.Canonical xs item a) :
    item.production ≠ 3 ∧ item.production ≠ 5 := by
  -- `A` stands only before `C`, and `B` only in the production of `A`.
  have hbehind : ∀ item ∈ endlessCompiled.cfg.items,
      (endlessCompiled.cfg.next item = some 7 → endlessCompiled.cfg.tail item = [9]) ∧
      (endlessCompiled.cfg.next item = some 8 → item.production = 3) := by
    decide
  induction h with
  | start => decide
  | @close _ item i p _ _ _ hp hx hb ih =>
    have hitem := hbehind item (Cfg.mem_items_of_next hx)
    refine ⟨?_, ?_⟩
    · rintro rfl
      have hlhs : p.lhs = 7 := by
        have hA : endlessCompiled.cfg.productions[3]? = some ⟨7, [8, 4], []⟩ := by decide
        rw [← Option.some.inj (hA.symm.trans hp)]
      rw [hitem.1 (hlhs ▸ hx)] at hb
      exact not_first_endless hb
    · rintro rfl
      have hlhs : p.lhs = 8 := by
        have hB : endlessCompiled.cfg.productions[5]? = some ⟨8, [5], []⟩ := by decide
        rw [← Option.some.inj (hB.symm.trans hp)]
      exact ih.1 (hitem.2 (hlhs ▸ hx))
  | advance _ _ ih => exact ih

theorem lookahead_endless :
    4 ∈ endlessCompiled.automaton.lookaheadsOf StateId.initial ⟨5, 0⟩ := by
  decide

/-- In the initial state `y` is a lookahead of the start of `B`, and for no symbols is the canonical
item with it valid. -/
theorem lookahead_not_canonical_endless :
    (Definition.ofCommands false endless).compile = .ok endlessCompiled ∧
      endlessCompiled.stateAfter [] = some StateId.initial ∧
      (∃ s, endlessCompiled.automaton.states[StateId.initial]? = some s ∧ ⟨5, 0⟩ ∈ s.items) ∧
      4 ∈ endlessCompiled.automaton.lookaheadsOf StateId.initial ⟨5, 0⟩ ∧
      ∀ xs, ¬ endlessCompiled.cfg.Canonical xs ⟨5, 0⟩ 4 := by
  have hitems : (endlessCompiled.automaton.states[StateId.initial]?).map State.items =
      some [⟨0, 0⟩, ⟨1, 0⟩, ⟨2, 0⟩, ⟨3, 0⟩, ⟨5, 0⟩] := by
    decide
  obtain ⟨s, hs, hitems⟩ := Option.map_eq_some_iff.mp hitems
  refine ⟨compile_endless, rfl, ⟨s, hs, ?_⟩, lookahead_endless, ?_⟩
  · simp [hitems]
  · intro xs h
    exact (canonical_endless h).2 rfl

end Compiled

end Lalr

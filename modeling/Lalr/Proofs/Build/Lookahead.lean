import Lalr.Build.Lookahead
import Lalr.Proofs.Automaton.Lookahead
import Lalr.Proofs.Build.States
import Lalr.Proofs.Propagation

/-!
# Lookaheads miss nothing

What the items of a state hand out is looked up by item, by occurrence and by the moves of the
state, and all of these are there: an item is one of the grammar, a state moves over every symbol behind a
dot, and what takes over the lookaheads of an occurrence is an occurrence (`targets_eq`). So no edge
leads out of the occurrences, and passing lookaheads on never meets a number that is none
(`spread_eq`). Together this is the automaton (**`automaton_eq`**).
-/

namespace Lalr

open Build

/-! ## Propagation -/

namespace Spreading

variable {graph : Graph} {n : Nat}

/-- There is a set for each of `n` nodes, and only these wait. -/
structure InRange (n : Nat) (s : Spreading) : Prop where
  size    : s.sets.size = n
  pending : ∀ node ∈ s.pending.waiting, node < n

theorem InRange.absorb {s : Spreading} (h : s.InRange n) (terms : TermSet) {node : Nat}
    (hnode : node < n) : (s.absorb terms node).InRange n := by
  refine ⟨(size_absorb terms s node).trans h.size, ?_⟩
  unfold Spreading.absorb
  split
  · exact h.pending
  · dsimp only
    split
    · exact h.pending
    · intro i hi
      rcases Worklist.mem_push.mp hi with hi | rfl
      · exact h.pending i hi
      · exact hnode

end Spreading

namespace Build

theorem occurrenceAt_eq {occurrences : List Occurrence} {o : Occurrence} (h : o ∈ occurrences) :
    occurrenceAt occurrences o = .ok (occurrences.idxOf o) :=
  if_pos (List.idxOf_lt_length_of_mem h)

end Build

namespace Workspace

variable {w : Workspace} {root : TermId} {q : StateId} {s : State}

/-! ## What items hand out -/

theorem Agrees.mem_items (h : w.Agrees root) (hs : w.cfg.states[q]? = some s) {item : Item}
    (hitem : item ∈ s.items) : item ∈ w.cfg.items :=
  h.augmented.items_of_state (Cfg.itemsOf_eq hs ▸ hitem)

end Workspace

end Lalr

import Lalr.Build.Basic
import Lalr.Compiled.Basic
import Lalr.Proofs.Automaton.States

/-!
# Look-ups that find what they look for

A stage that looks things up comes to what it would be without misses, if every look-up finds
something. For loops that is shown once: over a list (`mapM_eq`, `foldlM_eq` and the like) it is
enough to know every round, and for a loop that changes things an invariant of the rounds before.

What makes look-ups find something is that the tables agree (`Workspace.Agrees`): there are as many
terms as the grammar counts, the symbols of the grammar are terms of the right kind, and there is a
flag for each production.
-/

namespace Lalr

namespace Build

variable {α β : Type}

@[simp] theorem ok_bind (x : α) (f : α → Stage β) : ((Except.ok x : Stage α) >>= f) = f x := rfl

@[simp] theorem pure_eq_ok (x : α) : (pure x : Stage α) = .ok x := rfl

@[simp] theorem found_some (miss : Miss) (x : α) : found miss (some x) = .ok x := rfl

/-- Every place of a list has an entry. -/
theorem exists_entry {xs : List α} {i : Nat} (h : i < xs.length) : ∃ x, xs[i]? = some x :=
  ⟨_, List.getElem?_eq_getElem h⟩

theorem change_eq {miss : Miss} {xs : List α} {i : Nat} {f : α → α} (h : i < xs.length) :
    change miss xs i f = .ok (xs.modify i f) := if_pos h

theorem mapM_eq {f : α → Stage β} {g : α → β} {xs : List α} (h : ∀ x ∈ xs, f x = .ok (g x)) :
    xs.mapM f = .ok (xs.map g) := by
  induction xs with
  | nil => rfl
  | cons x xs ih =>
    rw [List.mapM_cons, h x List.mem_cons_self, ih fun y hy => h y (List.mem_cons_of_mem x hy)]
    rfl

theorem collectSome_eq {f : α → Stage (Option β)} {g : α → Option β} {xs : List α}
    (h : ∀ x ∈ xs, f x = .ok (g x)) : collectSome f xs = .ok (xs.filterMap g) := by
  rw [collectSome, mapM_eq h, ok_bind, pure_eq_ok, List.filterMap_map]
  rfl

theorem forM_eq {f : α → Stage Unit} {xs : List α} (h : ∀ x ∈ xs, f x = .ok ()) :
    xs.forM f = .ok () := by
  induction xs with
  | nil => rfl
  | cons x xs ih =>
    show (f x >>= fun _ => xs.forM f) = _
    rw [h x List.mem_cons_self]
    exact ih fun y hy => h y (List.mem_cons_of_mem x hy)

variable {terms : List Term} {id : TermId}

theorem termAt_eq {t : Term} (h : terms[id]? = some t) : termAt terms id = .ok t := by
  rw [termAt, h, found_some]

theorem exists_termAt (h : id < terms.length) : ∃ t, termAt terms id = .ok t := by
  obtain ⟨t, ht⟩ := exists_entry h
  exact ⟨t, termAt_eq ht⟩

end Build

namespace Workspace

open Build

/-- **The tables agree.** -/
structure Agrees (w : Workspace) (root : TermId) : Prop where
  augmented : w.cfg.Augmented root
  length    : w.terms.length = w.cfg.termCount
  kinds     : ∀ x, x ∈ w.cfg.terminals ∨ x ∈ w.cfg.nonterminals →
    isTerminalAt w.terms x = .ok (decide (x ∈ w.cfg.terminals))
  flags     : w.hasTerminals = w.cfg.productions.map w.cfg.hasTerminals

variable {w : Workspace} {root : TermId}

namespace Agrees

/-- A symbol of the grammar is a term. -/
theorem lt_length (h : w.Agrees root) {x : TermId}
    (hx : x ∈ w.cfg.terminals ∨ x ∈ w.cfg.nonterminals) : x < w.terms.length :=
  h.length ▸ h.augmented.lt_termCount x hx

end Agrees

/-! ## Productions and items -/

theorem production_eq {i : ProductionId} {p : Production} (h : w.cfg.productions[i]? = some p) :
    w.production i = .ok p := by
  rw [production, h, found_some]

variable {item : Item}

/-- A production has an item at every position. -/
theorem itemAt_eq (h : item ∈ w.cfg.items) :
    w.itemAt item.production item.position = .ok item := by
  obtain ⟨p, hp, hposition⟩ := Cfg.mem_items_iff.mp h
  rw [itemAt, production_eq hp, ok_bind, if_pos hposition]
  rfl

theorem productionOf_eq {p : Production} (hp : w.cfg.productions[item.production]? = some p)
    (hposition : item.position ≤ p.rhs.length) : w.productionOf item = .ok p := by
  rw [productionOf, hp, found_some, ok_bind, if_pos hposition]
  rfl

theorem next_eq (h : item ∈ w.cfg.items) : w.next item = .ok (w.cfg.next item) := by
  obtain ⟨p, hp, hposition⟩ := Cfg.mem_items_iff.mp h
  rw [next, productionOf_eq hp hposition, ok_bind, Cfg.next, hp]
  rfl

/-- The item behind the next symbol is there. -/
theorem itemAt_advance {x : TermId} (h : w.cfg.next item = some x) :
    w.itemAt item.production (item.position + 1) = .ok item.advance :=
  itemAt_eq (Cfg.advance_mem_items h)

theorem mem_items_of_mem_startItems {x : TermId} {start : Item}
    (h : start ∈ w.cfg.startItems x) : start ∈ w.cfg.items := by
  obtain ⟨i, hi, rfl⟩ := List.mem_map.mp h
  obtain ⟨p, hp, -⟩ := Cfg.mem_productionsOf.mp hi
  exact Cfg.mem_items_iff.mpr ⟨p, hp, Nat.zero_le _⟩

theorem startItems_eq {x : TermId} (hx : x < w.terms.length) :
    w.startItems x = .ok (w.cfg.startItems x) := by
  obtain ⟨t, ht⟩ := exists_termAt hx
  rw [startItems, ht, ok_bind]
  refine mapM_eq fun i hi => ?_
  exact itemAt_eq (mem_items_of_mem_startItems (List.mem_map_of_mem hi))

end Workspace

end Lalr

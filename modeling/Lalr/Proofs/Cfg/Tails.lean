import Lalr.Proofs.Cfg.Facts

/-!
# What the tails of items say

The tail of an item is what follows the symbol behind its dot. The items of a production are visited
from the last to the first, and what has been gathered by then is carried from one to the next, so
the tail of an item is not computed from its own symbols alone. The invariant is that what was
gathered is what is known of the symbols behind the one in turn (`TailScan.visit_eq`); with it, the
scan finds for every position of the dot what its own symbols say (**`tailScan_tails`**).

* **`tailOf_eq`**: the tail of an item has the FIRST set of the symbols that follow, and says
  whether all of them are nullable.
* `mem_leading_drop_iff` and `Facts.allNullable_drop_iff` say both by the positions of the symbols
  in the right-hand side.
-/

namespace Lalr

/-- A symbol leads what begins at position `n` iff it stands there or later and only nullable ones
stand between. -/
theorem mem_leading_drop_iff {nullable : TermSet} {u : List TermId} {n : Nat} {x : TermId} :
    x ∈ leading nullable (u.drop n) ↔ ∃ i, n ≤ i ∧ u[i]? = some x ∧
      ∀ j y, n ≤ j → j < i → u[j]? = some y → y ∈ nullable := by
  rw [mem_leading_iff]
  constructor
  · rintro ⟨left, right, hdrop, hleft⟩
    have hget : ∀ k, u[n + k]? = (left ++ x :: right)[k]? := fun k => by
      rw [← hdrop, List.getElem?_drop]
    refine ⟨n + left.length, Nat.le_add_right n _, by simp [hget], ?_⟩
    intro j y hn hj hy
    obtain ⟨k, rfl⟩ := Nat.exists_eq_add_of_le hn
    have hk : k < left.length := by omega
    rw [hget, List.getElem?_append_left hk] at hy
    exact hleft y (List.mem_of_getElem? hy)
  · rintro ⟨i, hn, hx, hbetween⟩
    obtain ⟨k, rfl⟩ := Nat.exists_eq_add_of_le hn
    rw [← List.getElem?_drop] at hx
    obtain ⟨hk, hx⟩ := List.getElem?_eq_some_iff.mp hx
    refine ⟨(u.drop n).take k, (u.drop n).drop (k + 1), ?_, ?_⟩
    · rw [← hx, ← List.drop_eq_getElem_cons hk, List.take_append_drop]
    · intro y hy
      obtain ⟨j, hj⟩ := List.mem_iff_getElem?.mp hy
      have hlt : j < k := by
        have := (List.getElem?_eq_some_iff.mp hj).1
        rw [List.length_take] at this
        omega
      rw [List.getElem?_take_of_lt hlt, List.getElem?_drop] at hj
      exact hbetween (n + j) y (Nat.le_add_right n j) (by omega) hj

/-! ## Tails of sequences -/

variable {g : Cfg} {facts : Facts}

/-- What begins at position `n` is nullable iff every symbol that stands there or later is. -/
theorem Facts.allNullable_drop_iff {u : List TermId} {n : Nat} :
    facts.allNullable (u.drop n) = true ↔
      ∀ i x, n ≤ i → u[i]? = some x → x ∈ facts.nullable := by
  rw [allNullable, List.all_eq_true]
  simp only [decide_eq_true_eq]
  constructor
  · intro hall i x hn hx
    obtain ⟨k, rfl⟩ := Nat.exists_eq_add_of_le hn
    exact hall x (List.mem_of_getElem? (List.getElem?_drop.trans hx))
  · intro hall x hx
    obtain ⟨k, hk⟩ := List.mem_iff_getElem?.mp hx
    rw [List.getElem?_drop] at hk
    exact hall (n + k) x (Nat.le_add_right n k) hk

/-- What is known of a sequence of symbols. -/
def Facts.tailOfSequence (facts : Facts) (u : List TermId) : Tail :=
  ⟨facts.firstOfSequence u, facts.allNullable u⟩

theorem Facts.tailOfSequence_nil : facts.tailOfSequence [] = Tail.nothing := rfl

/-- One more symbol in front is taken into account as the scan does. -/
theorem Facts.tailOfSequence_cons (hterminals : ∀ t ∈ g.terminals, t ∉ facts.nullable)
    (x : TermId) (u : List TermId) :
    facts.tailOfSequence (x :: u) = (facts.tailOfSequence u).cons g facts x := by
  by_cases hx : x ∈ facts.nullable
  · have hsilent : ¬ (x ∈ g.terminals ∨ x ∉ facts.nullable) := by
      rintro (hterminal | hnot)
      · exact hterminals x hterminal hx
      · exact hnot hx
    have hfirsts : facts.firstOfSequence (x :: u) = facts.firstOfSequence u ∪ facts.firstOf x := by
      ext t
      rw [TermSet.mem_union, mem_firstOfSequence, mem_firstOfSequence, leading, if_pos hx]
      simp only [List.mem_cons, exists_eq_or_imp]
      exact or_comm
    rw [Tail.cons, if_neg hsilent, tailOfSequence, hfirsts]
    simp [tailOfSequence, allNullable, hx]
  · have hfirsts : facts.firstOfSequence (x :: u) = facts.firstOf x := by
      ext t
      simp [mem_firstOfSequence, leading, hx]
    rw [Tail.cons, if_pos (Or.inr hx), tailOfSequence, hfirsts]
    simp [allNullable, hx]

/-! ## The scan -/

namespace TailScan

variable {rhs : List TermId}

/-- **One visit.** If what was gathered is known of the symbols behind the one in turn, the item
gets the tail of its own symbols, and that is what has been gathered then. -/
theorem visit_eq (hterminals : ∀ t ∈ g.terminals, t ∉ facts.nullable) {position : Nat}
    {s : TailScan} (hs : s.gathered = facts.tailOfSequence (rhs.drop (position + 2))) :
    visit g facts rhs position s =
      ⟨facts.tailOfSequence (rhs.drop (position + 1)),
        facts.tailOfSequence (rhs.drop (position + 1)) :: s.tails⟩ := by
  unfold visit
  split
  · rename_i hnone
    have hlength := List.getElem?_eq_none_iff.mp hnone
    rw [List.drop_eq_nil_of_le hlength]
    rw [List.drop_eq_nil_of_le (Nat.le_succ_of_le hlength)] at hs
    rw [hs, Facts.tailOfSequence_nil]
  · rename_i x hx
    obtain ⟨hlt, rfl⟩ := List.getElem?_eq_some_iff.mp hx
    rw [List.drop_eq_getElem_cons hlt, Facts.tailOfSequence_cons hterminals, hs]

/-- **The visits from the last item back** to the one at `position`. -/
theorem foldr_visit (hterminals : ∀ t ∈ g.terminals, t ∉ facts.nullable) (count : Nat) :
    ∀ position, position + count = rhs.length + 1 →
      (List.range' position count).foldr (visit g facts rhs) ⟨Tail.nothing, []⟩ =
        ⟨facts.tailOfSequence (rhs.drop (position + 1)),
          (List.range' position count).map fun i => facts.tailOfSequence (rhs.drop (i + 1))⟩ := by
  induction count with
  | zero =>
    intro position hlast
    rw [List.drop_eq_nil_of_le (by omega), Facts.tailOfSequence_nil]
    rfl
  | succ count ih =>
    intro position hlast
    have hrest := ih (position + 1) (by omega)
    rw [List.range'_succ, List.foldr_cons, hrest, visit_eq hterminals rfl, List.map_cons]

end TailScan

/-! ## The items of a grammar -/

namespace Cfg

/-- **The scan finds the tail of every item** of a production, by position of the dot. -/
theorem tailScan_tails (hterminals : ∀ t ∈ g.terminals, t ∉ facts.nullable) (p : Production) :
    (g.tailScan facts p).tails =
      (List.range (p.rhs.length + 1)).map fun i => facts.tailOfSequence (p.rhs.drop (i + 1)) := by
  rw [tailScan, List.range_eq_range', TailScan.foldr_visit hterminals _ 0 (Nat.zero_add _)]

/-- **The tail of an item is what is known of the symbols that follow.** -/
theorem tailOf_eq (hterminals : ∀ t ∈ g.terminals, t ∉ facts.nullable) (item : Item) :
    g.tailOf facts item = facts.tailOfSequence (g.tail item) := by
  unfold tailOf tail
  cases g.productions[item.production]? with
  | none => rfl
  | some p =>
    simp only [Option.bind_some, tailScan_tails hterminals, List.getElem?_map]
    by_cases hdot : item.position < p.rhs.length + 1
    · rw [List.getElem?_range hdot]
      rfl
    · rw [List.getElem?_eq_none (by simpa using hdot), List.drop_eq_nil_of_le (by omega)]
      rfl

namespace Augmented

variable {root : TermId} {item : Item}

theorem tailFirsts_facts (h : g.Augmented root) :
    g.tailFirsts g.facts item = g.facts.firstOfSequence (g.tail item) :=
  congrArg Tail.firsts (g.tailOf_eq h.not_mem_nullable item)

theorem tailNullable_facts (h : g.Augmented root) :
    g.tailNullable g.facts item = g.facts.allNullable (g.tail item) :=
  congrArg Tail.nullable (g.tailOf_eq h.not_mem_nullable item)

theorem tailNullable_iff (h : g.Augmented root) :
    g.tailNullable g.facts item = true ↔ g.Derives (g.tail item) [] := by
  rw [h.tailNullable_facts]
  exact h.allNullable_facts

end Augmented

end Cfg

end Lalr

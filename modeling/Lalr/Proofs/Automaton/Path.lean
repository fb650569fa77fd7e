import Lalr.Proofs.Automaton.States

/-!
# Paths of the automaton

The states on the stack of a parser lie on a path from the initial state. `Cfg.Path g states xs`
says so, with the last state and the last symbol first, as on the stack.

An item of the last state has its dot behind symbols that the path spells last
(**`Path.of_item`**): going back over them leads to a state that has the start item.
-/

namespace Lalr

namespace Cfg

/-- The states lie on a path from the initial state that spells the symbols. -/
inductive Path (g : Cfg) : List StateId → List TermId → Prop
  | initial : Path g [StateId.initial] []
  | step {q q' : StateId} {states : List StateId} {x : TermId} {xs : List TermId}
      (h : Path g (q :: states) xs) (hq : g.goto? q x = some q') :
      Path g (q' :: q :: states) (x :: xs)

variable {g : Cfg} {root : TermId}

theorem Path.length_eq {states : List StateId} {xs : List TermId} (h : g.Path states xs) :
    states.length = xs.length + 1 := by
  induction h with
  | initial => rfl
  | step _ _ ih => rw [List.length_cons, ih, List.length_cons]

/-- A path has a last state. -/
theorem Path.exists_cons {states : List StateId} {xs : List TermId} (h : g.Path states xs) :
    ∃ q rest, states = q :: rest := by
  cases h with
  | initial => exact ⟨_, _, rfl⟩
  | step _ _ => exact ⟨_, _, rfl⟩

/-- Taking back the symbols read last. -/
theorem Path.drop : ∀ {xs ys : List TermId} {states : List StateId},
    g.Path states (xs ++ ys) → g.Path (states.drop xs.length) ys
  | [], _, _, h => h
  | _ :: _, _, _, h => by
    cases h with
    | step h _ =>
      rw [List.length_cons, List.drop_succ_cons]
      exact Path.drop h

/-- Symbols lead along one path only. -/
theorem Path.unique {states states' : List StateId} {xs : List TermId} (h : g.Path states xs)
    (h' : g.Path states' xs) : states = states' := by
  induction h generalizing states' with
  | initial =>
    cases h'
    rfl
  | step _ hq ih =>
    cases h' with
    | step h' hq' =>
      obtain ⟨rfl, rfl⟩ := List.cons.inj (ih h')
      rw [Option.some.inj (hq.symm.trans hq')]

/-- In the initial state no dot has moved. -/
theorem position_of_mem_initial {item : Item} (hi : item ∈ g.itemsOf StateId.initial) :
    item.position = 0 := by
  rw [itemsOf_eq_closure g.kernels_initial] at hi
  rcases closure_cases (List.nodup_singleton _) hi with hi | ⟨_, _, _, _, _, hpos⟩
  · rw [List.mem_singleton.mp hi]
  · exact hpos

/-- **What stands before the dot is what the path spells last.** -/
theorem Path.of_item (h : g.Augmented root) {i : ProductionId} {p : Production}
    (hp : g.productions[i]? = some p) : ∀ {n : Nat} {q : StateId} {states : List StateId}
    {xs : List TermId}, g.Path (q :: states) xs → (⟨i, n⟩ : Item) ∈ g.itemsOf q →
    n ≤ xs.length ∧ (xs.take n).reverse = p.rhs.take n ∧
      ∃ q' states', (q :: states).drop n = q' :: states' ∧ g.Path (q' :: states') (xs.drop n) ∧
        Item.start i ∈ g.itemsOf q'
  | 0, q, states, xs, hpath, hi => ⟨Nat.zero_le _, rfl, q, states, rfl, hpath, hi⟩
  | n + 1, q, states, xs, hpath, hi => by
    cases hpath with
    | initial => exact absurd (position_of_mem_initial hi) (Nat.succ_ne_zero n)
    | step hpath hq =>
      rename_i x xs
      rcases h.items_goto_cases hq hi with ⟨item, hitem, hx, heq⟩ | hpos
      · obtain ⟨rfl, rfl⟩ : i = item.production ∧ n = item.position := by
          simpa [Item.advance] using heq
        obtain ⟨hle, htake, q', states', hdrop, hpath', hstart⟩ := Path.of_item h hp hpath hitem
        obtain ⟨p', hp', hget⟩ := next_eq_some_iff.mp hx
        obtain rfl : p = p' := Option.some.inj (hp.symm.trans hp')
        refine ⟨Nat.succ_le_succ hle, ?_, q', states', hdrop, hpath', hstart⟩
        rw [List.take_succ_cons, List.reverse_cons, htake, List.take_add_one, hget]
        rfl
      · exact absurd hpos (Nat.succ_ne_zero n)

/-- **Behind a completed item the path spells its production last**, and goes on from where that
began. -/
theorem Path.of_complete (h : g.Augmented root) {i : ProductionId} {p : Production}
    (hp : g.productions[i]? = some p) {q : StateId} {states : List StateId} {xs : List TermId}
    (hpath : g.Path (q :: states) xs) (hi : (⟨i, p.rhs.length⟩ : Item) ∈ g.itemsOf q) :
    ∃ ys q' states', xs = p.rhs.reverse ++ ys ∧ (q :: states).drop p.rhs.length = q' :: states' ∧
      g.Path (q' :: states') ys := by
  obtain ⟨-, htake, q', states', hdrop, hpath', -⟩ := hpath.of_item h hp hi
  refine ⟨xs.drop p.rhs.length, q', states', ?_, hdrop, hpath'⟩
  rw [List.take_length, List.reverse_eq_iff] at htake
  rw [← htake, List.take_append_drop]

/-- Only the initial state starts the augmented root. -/
theorem Path.eq_initial (h : g.Augmented root) {q : StateId} {states : List StateId}
    {xs : List TermId} (hpath : g.Path (q :: states) xs)
    (hi : (⟨ProductionId.root, 0⟩ : Item) ∈ g.itemsOf q) :
    q = StateId.initial ∧ states = [] ∧ xs = [] := by
  cases hpath with
  | initial => exact ⟨rfl, rfl, rfl⟩
  | step _ hq => exact absurd hi (h.root_start_not_mem_goto hq)

/-- The augmented root is complete behind the root and nowhere else. -/
theorem Path.of_root_complete (h : g.Augmented root) {q : StateId} {states : List StateId}
    {xs : List TermId} (hpath : g.Path (q :: states) xs)
    (hi : (⟨ProductionId.root, 1⟩ : Item) ∈ g.itemsOf q) :
    states = [StateId.initial] ∧ xs = [root] ∧ g.goto? StateId.initial root = some q := by
  obtain ⟨hle, htake, q', states', hdrop, hpath', hstart⟩ := hpath.of_item h h.root_production hi
  obtain ⟨rfl, rfl, hnil⟩ := hpath'.eq_initial h hstart
  cases hpath with
  | initial => exact absurd (position_of_mem_initial hi) Nat.one_ne_zero
  | step hpath hq =>
    simp only [List.drop_succ_cons, List.drop_zero] at hdrop hnil
    obtain ⟨rfl, rfl⟩ := List.cons.inj hdrop
    subst hnil
    obtain rfl := by simpa using htake
    exact ⟨rfl, rfl, hq⟩

end Cfg

end Lalr

import Lalr.Propagation
import Mathlib.Data.List.Perm.Subperm
import Mathlib.Logic.Relation

/-!
# Propagation reaches the least fixed point

`propagate` visits waiting nodes until its fuel is used up. What has to be shown is that the fuel
is never the reason to stop, and that the sets it stops with are right.

* **Fuel.** `Spreading.load` counts the waiting nodes and, for every node, the terms it may still
  win. A visit takes one node off the worklist, and every node it puts back has won a term; so a
  visit lowers the load, and the load at the start is at most the fuel. So the loop, which knows
  nothing of fuel (`Spreading.Settles`), comes to an end (`settles_propagate`).
* **Sets.** The invariant `Spreading.Inv` says that a node holds what it held at the start, that
  all it holds comes from some node it can be reached from, and that a node which is not waiting
  has passed its set on.

Results:
* **`mem_propagate_iff`**: a node ends with exactly the terms of the initial sets of the nodes it
  can be reached from.
* **`propagation_least`**: the loop ends for every graph, with the least sets above the initial ones
  that the graph keeps; so it has nothing left to do when it starts again from these.
-/

namespace Lalr

/-! ## Sizes of sets -/

namespace TermSet

theorem nodup_toList (s : TermSet) : s.toList.Nodup :=
  s.sorted.imp fun h => Nat.ne_of_lt h

theorem size_le_of_subset {s t : TermSet} (h : ∀ x ∈ s, x ∈ t) : s.size ≤ t.size :=
  (s.nodup_toList.subperm h).length_le

theorem eq_of_subset_of_size_le {s t : TermSet} (h : ∀ x ∈ s, x ∈ t) (hsize : t.size ≤ s.size) :
    s = t := by
  have hperm : s.toList.Perm t.toList := (s.nodup_toList.subperm h).perm_of_length_le hsize
  exact TermSet.ext fun x => hperm.mem_iff

theorem size_lt_of_subset_of_ne {s t : TermSet} (h : ∀ x ∈ s, x ∈ t) (hne : t ≠ s) :
    s.size < t.size := by
  by_contra hle
  exact hne (eq_of_subset_of_size_le h (Nat.not_lt.mp hle)).symm

end TermSet

theorem total_map_le {α : Type} {f : α → Nat} {bound : Nat} :
    ∀ (xs : List α), (∀ x ∈ xs, f x ≤ bound) → total (xs.map f) ≤ xs.length * bound
  | [], _ => by simp
  | x :: xs, h => by
    have hx := h x List.mem_cons_self
    have ih := total_map_le xs fun y hy => h y (List.mem_cons_of_mem x hy)
    simp only [List.map_cons, total_cons, List.length_cons, Nat.add_mul, Nat.one_mul]
    omega

/-! ## One absorption -/

namespace Spreading

/-- The set of a node, empty for a number that is none. -/
def setOf (s : Spreading) (node : Nat) : TermSet := s.sets[node]?.getD ∅

/-- The waiting nodes, and the terms all nodes may still win of `k` terms. -/
def load (k : Nat) (s : Spreading) : Nat :=
  s.pending.size + total (s.sets.toList.map fun set => k - set.size)

theorem lt_size_of_mem_setOf {s : Spreading} {node : Nat} {t : TermId} (h : t ∈ s.setOf node) :
    node < s.sets.size := by
  by_contra hge
  rw [setOf, Array.getElem?_eq_none (Nat.not_lt.mp hge)] at h
  exact TermSet.not_mem_empty t h

@[simp] theorem size_absorb (terms : TermSet) (s : Spreading) (node : Nat) :
    (s.absorb terms node).sets.size = s.sets.size := by
  unfold absorb
  split
  · rfl
  · dsimp only
    split <;> simp

theorem mem_setOf_absorb {terms : TermSet} {s : Spreading} {node i : Nat} {t : TermId} :
    t ∈ (s.absorb terms node).setOf i ↔
      t ∈ s.setOf i ∨ (i = node ∧ node < s.sets.size ∧ t ∈ terms) := by
  unfold absorb
  split
  · rename_i hnode
    have hge := Array.getElem?_eq_none_iff.mp hnode
    exact ⟨Or.inl, fun h => h.elim id fun h => absurd h.2.1 (Nat.not_lt.mpr hge)⟩
  · rename_i old hnode
    have hlt : node < s.sets.size := (Array.getElem?_eq_some_iff.mp hnode).1
    have hold : s.setOf node = old := by rw [setOf, hnode]; rfl
    dsimp only
    split
    · rename_i hsame
      refine ⟨Or.inl, fun h => h.elim id ?_⟩
      rintro ⟨rfl, -, ht⟩
      rw [hold, ← hsame]
      exact TermSet.mem_union.mpr (Or.inr ht)
    · by_cases hi : i = node
      · subst hi
        have hnew : t ∈ old ∪ terms ↔ t ∈ old ∨ t ∈ terms := TermSet.mem_union
        simp only [setOf, Array.getElem?_setIfInBounds_self_of_lt hlt, Option.getD_some] at hold ⊢
        rw [hnew, hold]
        simp [hlt]
      · have hne : node ≠ i := fun h => hi h.symm
        simp only [setOf, Array.getElem?_setIfInBounds_ne hne, hi, false_and, or_false]

theorem mem_pending_absorb {terms : TermSet} {s : Spreading} {node i : Nat}
    (h : i ∈ s.pending.waiting) : i ∈ (s.absorb terms node).pending.waiting := by
  unfold absorb
  split
  · exact h
  · dsimp only
    split
    · exact h
    · exact Worklist.mem_push.mpr (Or.inl h)

/-- A node whose set has changed waits. -/
theorem setOf_absorb_eq_or (terms : TermSet) (s : Spreading) (node i : Nat) :
    (s.absorb terms node).setOf i = s.setOf i ∨ i ∈ (s.absorb terms node).pending.waiting := by
  by_cases hi : i = node
  · unfold absorb
    split
    · exact Or.inl rfl
    · dsimp only
      split
      · exact Or.inl rfl
      · exact Or.inr (Worklist.mem_push.mpr (Or.inr hi))
  · refine Or.inl (TermSet.ext ?_)
    intro t
    rw [mem_setOf_absorb]
    simp [hi]

theorem load_absorb_le {k : Nat} {terms : TermSet} {s : Spreading} {node : Nat}
    (hterms : ∀ old, s.sets[node]? = some old → (old ∪ terms).size ≤ k) :
    (s.absorb terms node).load k ≤ s.load k := by
  unfold absorb
  split
  · exact Nat.le_refl _
  · rename_i old hnode
    dsimp only
    split
    · exact Nat.le_refl _
    · rename_i hgrown
      have hlt : old.size < (old ∪ terms).size :=
        TermSet.size_lt_of_subset_of_ne (fun x hx => TermSet.mem_union.mpr (Or.inl hx)) hgrown
      have hbound := hterms old hnode
      have hpush := s.pending.size_push_le node
      have hset := total_map_set (fun set : TermSet => k - set.size) (old ∪ terms) s.sets.toList
        node old (by simpa using hnode)
      simp only [load, Array.toList_setIfInBounds]
      omega

/-! ## The invariant -/

/-- What holds between two visits: the sets lie between the initial ones and what can be reached,
and whoever is not waiting has passed its set on. -/
structure Inv (graph : Graph) (initial : Array TermSet) (s : Spreading) : Prop where
  size    : s.sets.size = initial.size
  above   : ∀ i, ∀ t ∈ initial[i]?.getD ∅, t ∈ s.setOf i
  reached : ∀ i, ∀ t ∈ s.setOf i, ∃ j, t ∈ initial[j]?.getD ∅ ∧
    Relation.ReflTransGen (fun a b => b ∈ graph.targets a) j i
  passed  : ∀ i < initial.size, i ∈ s.pending.waiting ∨
    ∀ j ∈ graph.targets i, ∀ t ∈ s.setOf i, t ∈ s.setOf j

variable {graph : Graph} {initial : Array TermSet}

/-- The terms of a node are among those of the initial sets. -/
theorem Inv.setOf_subset {s : Spreading} (h : s.Inv graph initial) {i : Nat} {t : TermId}
    (ht : t ∈ s.setOf i) : t ∈ TermSet.unions initial.toList := by
  obtain ⟨j, hj, -⟩ := h.reached i t ht
  cases hset : initial[j]? with
  | none =>
    rw [hset] at hj
    exact absurd hj (TermSet.not_mem_empty t)
  | some set =>
    rw [hset] at hj
    exact TermSet.mem_unions.mpr ⟨set, Array.mem_toList_iff.mpr (Array.mem_of_getElem? hset), hj⟩

/-- What a visit to `node` does target by target: the sets of the targets so far hold `terms`,
sets only grow, and a set that has grown makes its node wait. -/
theorem foldl_absorb_spec (terms : TermSet) :
    ∀ (targets : List Nat) (s : Spreading), (∀ j ∈ targets, j < s.sets.size) →
      let r := targets.foldl (absorb terms) s
      r.sets.size = s.sets.size ∧
      (∀ i t, t ∈ r.setOf i ↔ t ∈ s.setOf i ∨ (i ∈ targets ∧ t ∈ terms)) ∧
      (∀ i ∈ s.pending.waiting, i ∈ r.pending.waiting) ∧
      (∀ i, r.setOf i = s.setOf i ∨ i ∈ r.pending.waiting)
  | [], s, _ => by simp
  | node :: targets, s, hrange => by
    have hnode : node < s.sets.size := hrange node List.mem_cons_self
    obtain ⟨hsize, hmem, hpend, hchange⟩ := foldl_absorb_spec terms targets
      (s.absorb terms node)
      (fun j hj => by rw [size_absorb]; exact hrange j (List.mem_cons_of_mem node hj))
    rw [List.foldl_cons]
    refine ⟨by rw [hsize, size_absorb], ?_, ?_, ?_⟩
    · intro i t
      rw [hmem, mem_setOf_absorb, List.mem_cons]
      grind
    · intro i hi
      exact hpend i (mem_pending_absorb hi)
    · intro i
      rcases hchange i with h | h
      · rcases setOf_absorb_eq_or terms s node i with h' | h'
        · exact Or.inl (h.trans h')
        · exact Or.inr (hpend i h')
      · exact Or.inr h

theorem load_foldl_absorb_le {k : Nat} {terms whole : TermSet} (hk : whole.size ≤ k)
    (hterms : ∀ t ∈ terms, t ∈ whole) :
    ∀ (targets : List Nat) (s : Spreading), (∀ i, ∀ t ∈ s.setOf i, t ∈ whole) →
      (targets.foldl (absorb terms) s).load k ≤ s.load k
  | [], _, _ => Nat.le_refl _
  | node :: targets, s, hs => by
    refine Nat.le_trans (load_foldl_absorb_le hk hterms targets (s.absorb terms node) ?_) ?_
    · intro i t ht
      rcases mem_setOf_absorb.mp ht with ht | ⟨-, -, ht⟩
      · exact hs i t ht
      · exact hterms t ht
    · refine load_absorb_le fun old hold => Nat.le_trans (TermSet.size_le_of_subset ?_) hk
      intro t ht
      rcases TermSet.mem_union.mp ht with ht | ht
      · exact hs node t (by rw [setOf, hold]; exact ht)
      · exact hterms t ht

/-- **A visit keeps the invariant.** -/
theorem Inv.visit (hrange : ∀ i, ∀ j ∈ graph.targets i, j < initial.size) {s : Spreading}
    (h : s.Inv graph initial) {node : Nat} {pending : Worklist Nat}
    (hpop : s.pending.pop = some (node, pending)) :
    (visit graph { s with pending } node).Inv graph initial := by
  have hwait : s.pending.waiting = node :: pending.waiting := Worklist.waiting_of_pop hpop
  obtain ⟨hsize, hmem, hpend, hchange⟩ := foldl_absorb_spec (s.setOf node)
    (graph.targets node) { s with pending } (fun j hj => by rw [h.size]; exact hrange node j hj)
  refine ⟨hsize.trans h.size, ?_, ?_, ?_⟩
  · intro i t ht
    exact (hmem i t).mpr (Or.inl (h.above i t ht))
  · intro i t ht
    rcases (hmem i t).mp ht with ht | ⟨hi, ht⟩
    · exact h.reached i t ht
    · obtain ⟨j, hj, hpath⟩ := h.reached node t ht
      exact ⟨j, hj, hpath.tail hi⟩
  · intro i hi
    rcases hchange i with hsame | hwaits
    · -- the set of `i` is as before: it waited already, or it is `node`, or it had passed it on
      have hsame' : ∀ t, t ∈ (Spreading.visit graph { s with pending } node).setOf i ↔
          t ∈ s.setOf i := fun t => Eq.to_iff (congrArg (t ∈ ·) hsame)
      rcases h.passed i hi with hi | hi
      · rw [hwait] at hi
        rcases List.mem_cons.mp hi with rfl | hi
        · exact Or.inr fun j hj t ht => (hmem j t).mpr (Or.inr ⟨hj, (hsame' t).mp ht⟩)
        · exact Or.inl (hpend i hi)
      · refine Or.inr fun j hj t ht => (hmem j t).mpr (Or.inl ?_)
        exact hi j hj t ((hsame' t).mp ht)
    · exact Or.inl hwaits

theorem load_visit_lt {s : Spreading} (h : s.Inv graph initial) {node : Nat}
    {pending : Worklist Nat} (hpop : s.pending.pop = some (node, pending)) :
    (visit graph { s with pending } node).load (TermSet.unions initial.toList).size <
      s.load (TermSet.unions initial.toList).size := by
  have hwait : s.pending.waiting = node :: pending.waiting := Worklist.waiting_of_pop hpop
  have hfold : (visit graph { s with pending } node).load (TermSet.unions initial.toList).size ≤
      ({ s with pending } : Spreading).load (TermSet.unions initial.toList).size :=
    load_foldl_absorb_le (Nat.le_refl _) (fun t ht => h.setOf_subset (i := node) ht)
      (graph.targets node) { s with pending } (fun i t ht => h.setOf_subset (i := i) ht)
  have hless : ({ s with pending } : Spreading).load (TermSet.unions initial.toList).size + 1 =
      s.load (TermSet.unions initial.toList).size := by
    simp only [load, Worklist.size, hwait, List.length_cons]
    omega
  omega

/-! ## The loop -/

/-- Visits, for as long as a node waits, end with the result. -/
inductive Settles (graph : Graph) : Spreading → Array TermSet → Prop
  | done {s : Spreading} (h : s.pending.pop = none) : Settles graph s s.sets
  | visit {s : Spreading} {node : Nat} {pending : Worklist Nat} {result : Array TermSet}
      (h : s.pending.pop = some (node, pending))
      (hrest : Settles graph (visit graph { s with pending } node) result) :
      Settles graph s result

/-- **A run with fuel for its load ends because no node waits**, and not for want of fuel. -/
theorem settles_run (hrange : ∀ i, ∀ j ∈ graph.targets i, j < initial.size) :
    ∀ (fuel : Nat) (s : Spreading), s.Inv graph initial →
      s.load (TermSet.unions initial.toList).size ≤ fuel →
      Settles graph s (s.run graph fuel).sets
  | 0, s, _, hload => by
    have hnone : s.pending.size = 0 := by
      unfold load at hload
      omega
    exact .done (Worklist.pop_eq_none_iff.mpr (List.length_eq_zero_iff.mp hnone))
  | fuel + 1, s, h, hload => by
    unfold run
    split
    · rename_i hpop
      exact .done hpop
    · rename_i node pending hpop
      have hlt := load_visit_lt h hpop
      exact .visit hpop (settles_run hrange fuel _ (h.visit hrange hpop) (by omega))

/-- **The invariant at the end**: nothing waits, so every node has passed its set on. -/
theorem Settles.exists_inv (hrange : ∀ i, ∀ j ∈ graph.targets i, j < initial.size)
    {s : Spreading} {result : Array TermSet} (h : Settles graph s result)
    (hs : s.Inv graph initial) :
    ∃ last : Spreading, last.sets = result ∧ last.Inv graph initial ∧
      last.pending.waiting = [] := by
  induction h with
  | done hpop => exact ⟨_, rfl, hs, Worklist.pop_eq_none_iff.mp hpop⟩
  | visit hpop _ ih => exact ih (hs.visit hrange hpop)

end Spreading

/-! ## The start -/

theorem Worklist.mem_foldl_push {α : Type} [DecidableEq α] {y : α} :
    ∀ {xs : List α} {w : Worklist α},
      y ∈ (xs.foldl Worklist.push w).waiting ↔ y ∈ w.waiting ∨ y ∈ xs
  | [], _ => by simp
  | x :: xs, w => by
    rw [List.foldl_cons, Worklist.mem_foldl_push, Worklist.mem_push, List.mem_cons, or_assoc]

theorem Worklist.size_foldl_push_le {α : Type} [DecidableEq α] :
    ∀ (xs : List α) (w : Worklist α), (xs.foldl Worklist.push w).size ≤ w.size + xs.length
  | [], _ => Nat.le_refl _
  | x :: xs, w => by
    have ih := Worklist.size_foldl_push_le xs (w.push x)
    have hx := w.size_push_le x
    rw [List.foldl_cons, List.length_cons]
    omega

namespace Spreading

theorem inv_start (graph : Graph) (initial : Array TermSet) :
    (start initial).Inv graph initial := by
  refine ⟨rfl, fun i t ht => ht, fun i t ht => ⟨i, ht, Relation.ReflTransGen.refl⟩, ?_⟩
  intro i hi
  exact Or.inl (Worklist.mem_foldl_push.mpr (Or.inr (List.mem_range.mpr hi)))

theorem load_start_le (initial : Array TermSet) :
    (start initial).load (TermSet.unions initial.toList).size ≤
      initial.size + initial.size * (TermSet.unions initial.toList).size := by
  have hpend := Worklist.size_foldl_push_le (List.range initial.size) Worklist.empty
  have hsets := total_map_le (f := fun set : TermSet =>
    (TermSet.unions initial.toList).size - set.size) initial.toList
    fun set _ => Nat.sub_le _ _
  have hempty : (Worklist.empty : Worklist Nat).size = 0 := rfl
  rw [List.length_range, hempty, Nat.zero_add] at hpend
  rw [Array.length_toList] at hsets
  exact Nat.add_le_add hpend hsets

end Spreading

/-! ## The fixed point -/

section FixedPoint

variable {graph : Graph} {initial : Array TermSet}
  (hrange : ∀ i, ∀ j ∈ graph.targets i, j < initial.size)
include hrange

/-- **The loop ends**, with the propagated sets. -/
theorem settles_propagate :
    Spreading.Settles graph (Spreading.start initial) (propagate graph initial) :=
  Spreading.settles_run hrange _ _ (Spreading.inv_start graph initial)
    (Spreading.load_start_le initial)

theorem propagate_spec : ∃ s : Spreading, s.sets = propagate graph initial ∧
    s.Inv graph initial ∧ s.pending.waiting = [] :=
  (settles_propagate hrange).exists_inv hrange (Spreading.inv_start graph initial)

@[simp] theorem size_propagate : (propagate graph initial).size = initial.size := by
  obtain ⟨s, hs, h, -⟩ := propagate_spec hrange
  rw [← hs, h.size]

/-- **A node ends with exactly the terms of the initial sets it can be reached from.** -/
theorem mem_propagate_iff {i : Nat} {t : TermId} :
    t ∈ (propagate graph initial)[i]?.getD ∅ ↔ ∃ j, t ∈ initial[j]?.getD ∅ ∧
      Relation.ReflTransGen (fun a b => b ∈ graph.targets a) j i := by
  obtain ⟨s, hs, h, hdone⟩ := propagate_spec hrange
  rw [← hs]
  refine ⟨h.reached i t, ?_⟩
  rintro ⟨j, hj, hpath⟩
  induction hpath with
  | refl => exact h.above j t hj
  | @tail a b hja hab ih =>
    have ha : a < initial.size := h.size ▸ Spreading.lt_size_of_mem_setOf ih
    rcases h.passed a ha with hwait | hpassed
    · rw [hdone] at hwait
      exact absurd hwait List.not_mem_nil
    · exact hpassed b hab t ih

/-- What is reached from what can be reached can be reached at once. -/
theorem propagate_propagate :
    propagate graph (propagate graph initial) = propagate graph initial := by
  have hsize := size_propagate hrange
  have hagain : ∀ i, ∀ j ∈ graph.targets i, j < (propagate graph initial).size :=
    fun i j hj => hsize.symm ▸ hrange i j hj
  have hsets : ∀ i : Nat, (propagate graph (propagate graph initial))[i]?.getD ∅ =
      (propagate graph initial)[i]?.getD ∅ := by
    intro i
    ext t
    rw [mem_propagate_iff hagain, mem_propagate_iff hrange]
    constructor
    · rintro ⟨j, hj, hpath⟩
      obtain ⟨k, hk, hpath'⟩ := (mem_propagate_iff hrange).mp hj
      exact ⟨k, hk, hpath'.trans hpath⟩
    · rintro ⟨j, hj, hpath⟩
      exact ⟨j, (mem_propagate_iff hrange).mpr ⟨j, hj, Relation.ReflTransGen.refl⟩, hpath⟩
  refine Array.ext (size_propagate hagain) fun i hi hi' => ?_
  have hset := hsets i
  rwa [Array.getElem?_eq_getElem hi, Array.getElem?_eq_getElem hi', Option.getD_some,
    Option.getD_some] at hset

end FixedPoint

/-- **Propagation is a least fixed point**, for all initial sets and every graph that does not lead
out of their nodes. The loop ends. A node then has the terms of the initial sets of all nodes that
it can be reached from, its own included. Whatever sets are above the initial ones and hold in every
target what its source holds are above these, and propagating these again changes nothing. -/
theorem propagation_least {graph : Graph} {initial : Array TermSet}
    (hrange : ∀ i, ∀ j ∈ graph.targets i, j < initial.size) :
    Spreading.Settles graph (Spreading.start initial) (propagate graph initial) ∧
    (propagate graph initial).size = initial.size ∧
    (∀ i t, t ∈ (propagate graph initial)[i]?.getD ∅ ↔ ∃ j, t ∈ initial[j]?.getD ∅ ∧
      Relation.ReflTransGen (fun a b => b ∈ graph.targets a) j i) ∧
    (∀ sets : Array TermSet, (∀ i : Nat, ∀ t ∈ initial[i]?.getD ∅, t ∈ sets[i]?.getD ∅) →
      (∀ i, ∀ j ∈ graph.targets i, ∀ t ∈ sets[i]?.getD ∅, t ∈ sets[j]?.getD ∅) →
      ∀ i : Nat, ∀ t ∈ (propagate graph initial)[i]?.getD ∅, t ∈ sets[i]?.getD ∅) ∧
    propagate graph (propagate graph initial) = propagate graph initial := by
  refine ⟨settles_propagate hrange, size_propagate hrange, fun i t => mem_propagate_iff hrange, ?_,
    propagate_propagate hrange⟩
  intro sets habove hkept i t ht
  obtain ⟨j, hj, hpath⟩ := (mem_propagate_iff hrange).mp ht
  induction hpath with
  | refl => exact habove j t hj
  | @tail a b hja hab ih =>
    exact hkept a b hab t (ih ((mem_propagate_iff hrange).mpr ⟨j, hj, hja⟩))

/-- A ring of three nodes, of which the last is its own target too, and a node that leads into
it. -/
def ring : Graph := #[[1], [2], [0, 2], [0]]

/-- Every node but the second starts with a term of its own. -/
def ringSets : Array TermSet :=
  #[TermSet.singleton 5, ∅, TermSet.singleton 7, TermSet.singleton 9]

/-- The second node gets the term of the fourth from some node that leads to it, and no way leads
from the first to the fourth, since its term does not get there. -/
theorem propagation_least_ring :
    (∀ i, ∀ j ∈ ring.targets i, j < ringSets.size) ∧
      (propagate ring ringSets).toList.map TermSet.toList = [[5, 7, 9], [5, 7, 9], [5, 7, 9], [9]] ∧
      (∃ j, 9 ∈ ringSets[j]?.getD ∅ ∧
        Relation.ReflTransGen (fun a b => b ∈ ring.targets a) j 1) ∧
      ¬ Relation.ReflTransGen (fun a b => b ∈ ring.targets a) 0 3 := by
  have hrange : ∀ i, ∀ j ∈ ring.targets i, j < ringSets.size := by
    intro i j hj
    by_cases hi : i < 4
    · exact (by decide : ∀ i < 4, ∀ j ∈ ring.targets i, j < ringSets.size) i hi j hj
    · rw [Graph.targets, Array.getElem?_eq_none (Nat.not_lt.mp hi)] at hj
      exact absurd hj List.not_mem_nil
  obtain ⟨-, -, hmem, -, -⟩ := propagation_least hrange
  refine ⟨hrange, by decide, (hmem 1 9).mp (by decide), fun hpath => ?_⟩
  exact absurd ((hmem 3 5).mpr ⟨0, by decide, hpath⟩) (by decide)

end Lalr

import Lalr.Automaton.Lookahead
import Lalr.Proofs.Automaton.States
import Lalr.Proofs.Cfg.Tails

/-!
# The lookaheads as an inductive relation

`Cfg.Lookahead g q item t` says by rules which lookaheads an item of a state has: the end of input
follows the augmented root, an item offers the terminals that may begin what follows the symbol
behind its dot to the start items of that symbol, passes its own lookaheads on to them if what
follows may be empty, and keeps its lookaheads when its dot moves.

**`mem_lookaheadsOf_iff`**: the lookaheads that the automaton computes are exactly these. The
computed graph numbers the occurrences, so the two sides are compared through the number of each
(`seeds_eq`, `targetGraph_eq`).
-/

namespace Lalr

namespace Cfg

/-- The lookaheads of an item in a state, by rules. -/
inductive Lookahead (g : Cfg) : StateId → Item → TermId → Prop
  | initial : Lookahead g StateId.initial ⟨ProductionId.root, 0⟩ TermId.eof
  | final : Lookahead g StateId.final ⟨ProductionId.root, 1⟩ TermId.eof
  /-- What follows the symbol behind the dot begins with `t`. -/
  | follow {q : StateId} {item : Item} {i : ProductionId} {p : Production} {t : TermId}
      {w : List TermId} (hi : item ∈ g.itemsOf q) (hp : g.productions[i]? = some p)
      (hx : g.next item = some p.lhs) (ht : t ∈ g.terminals)
      (hd : g.Derives (g.tail item) (t :: w)) : Lookahead g q (Item.start i) t
  /-- What follows the symbol behind the dot may be empty. -/
  | inherit {q : StateId} {item : Item} {i : ProductionId} {p : Production} {t : TermId}
      (h : Lookahead g q item t) (hi : item ∈ g.itemsOf q) (hp : g.productions[i]? = some p)
      (hx : g.next item = some p.lhs) (hd : g.Derives (g.tail item) []) :
      Lookahead g q (Item.start i) t
  | move {q q' : StateId} {item : Item} {x t : TermId} (h : Lookahead g q item t)
      (hi : item ∈ g.itemsOf q) (hx : g.next item = some x) (hq : g.goto? q x = some q') :
      Lookahead g q' item.advance t

end Cfg

namespace Automaton

variable {g : Cfg} {root : TermId}

/-! ## Occurrences and their numbers -/

theorem mem_listOccurrences {o : Occurrence} :
    o ∈ listOccurrences g.states ↔ o.item ∈ g.itemsOf o.state := by
  simp only [listOccurrences, List.mem_flatMap, List.mem_map, Prod.exists,
    List.mem_zipIdx_iff_getElem?]
  constructor
  · rintro ⟨s, q, hs, item, hi, rfl⟩
    rw [Cfg.itemsOf_eq hs]
    exact hi
  · intro h
    cases hs : g.states[o.state]? with
    | none => simp [Cfg.itemsOf, hs] at h
    | some s =>
      rw [Cfg.itemsOf_eq hs] at h
      exact ⟨s, o.state, hs, o.item, h, rfl⟩

/-- What is listed item by item and state by state is listed occurrence by occurrence. -/
theorem flatMap_items_eq {β : Type} (states : List State) (f : StateId → State → Item → β)
    (f' : Occurrence → β)
    (hf : ∀ q s item, states[q]? = some s → f' ⟨q, item⟩ = f q s item) :
    (states.zipIdx.flatMap fun (s, q) => s.items.map (f q s)) =
      (listOccurrences states).map f' := by
  rw [listOccurrences, List.map_flatMap, List.flatMap_def, List.flatMap_def]
  congr 1
  refine List.map_congr_left ?_
  rintro ⟨s, q⟩ hs
  have hs := List.mem_zipIdx_iff_getElem?.mp hs
  rw [List.map_map]
  exact List.map_congr_left fun item _ => (hf q s item hs).symm

/-- The lookaheads an occurrence starts with. -/
def seedAt (g : Cfg) (o : Occurrence) : TermSet :=
  match g.states[o.state]? with
  | some s => seed g (offers g g.facts s) o.state s o.item
  | none => ∅

/-- The occurrences that take over the lookaheads of an occurrence. -/
def targetsAt (g : Cfg) (o : Occurrence) : List Occurrence :=
  match g.states[o.state]? with
  | some s => targets g g.facts o.state s o.item
  | none => []

theorem seeds_eq (g : Cfg) :
    seeds g g.facts g.states = ((listOccurrences g.states).map (seedAt g)).toArray := by
  unfold seeds
  congr 1
  refine flatMap_items_eq g.states (fun q s item => seed g (offers g g.facts s) q s item) _ ?_
  intro q s item hs
  simp only [seedAt, hs]

theorem targetGraph_eq (g : Cfg) :
    targetGraph g g.facts g.states (listOccurrences g.states) =
      ((listOccurrences g.states).map fun o =>
        (targetsAt g o).map (listOccurrences g.states).idxOf).toArray := by
  unfold targetGraph
  congr 1
  refine flatMap_items_eq g.states
    (fun q s item => (targets g g.facts q s item).map (listOccurrences g.states).idxOf) _ ?_
  intro q s item hs
  simp only [targetsAt, hs]

/-! ## What an occurrence starts with -/

theorem head_items_initial (g : Cfg) {s : State} (hs : g.states[StateId.initial]? = some s) :
    s.items.head? = some ⟨ProductionId.root, 0⟩ := by
  obtain ⟨rest, hrest⟩ := g.exists_closure_eq [⟨ProductionId.root, 0⟩]
  rw [← Cfg.itemsOf_eq hs, Cfg.itemsOf_eq_closure g.kernels_initial, hrest]
  rfl

theorem head_items_final (g : Cfg) {s : State} (hs : g.states[StateId.final]? = some s) :
    s.items.head? = some ⟨ProductionId.root, 1⟩ := by
  obtain ⟨rest, hrest⟩ := g.exists_closure_eq [⟨ProductionId.root, 1⟩]
  rw [← Cfg.itemsOf_eq hs, Cfg.itemsOf_eq_closure g.kernels_final, hrest]
  rfl

theorem mem_offers (h : g.Augmented root) {s : State} {x : TermId} {set : TermSet} :
    (x, set) ∈ offers g g.facts s ↔
      ∃ item ∈ s.items, g.next item = some x ∧ set = g.facts.firstOfSequence (g.tail item) := by
  simp only [offers, List.mem_filterMap, Option.map_eq_some_iff, Prod.mk.injEq, h.tailFirsts_facts]
  constructor
  · rintro ⟨item, hi, _, hx, rfl, rfl⟩
    exact ⟨item, hi, hx, rfl⟩
  · rintro ⟨item, hi, hx, rfl⟩
    exact ⟨item, hi, x, hx, rfl, rfl⟩

theorem mem_seed (h : g.Augmented root) {q : StateId} {s : State} {item : Item} {t : TermId} :
    t ∈ seed g (offers g g.facts s) q s item ↔
      (t = TermId.eof ∧ (q = StateId.initial ∨ q = StateId.final) ∧
        s.items.head? = some item) ∨
      (item.position = 0 ∧ ∃ item' ∈ s.items, ∃ x, g.lhs? item = some x ∧
        g.next item' = some x ∧ t ∈ g.facts.firstOfSequence (g.tail item')) := by
  have hended : (t ∈ if ((q == StateId.initial || q == StateId.final) &&
      s.items.head? == some item) = true then TermSet.singleton TermId.eof else ∅) ↔
      t = TermId.eof ∧ (q = StateId.initial ∨ q = StateId.final) ∧
        s.items.head? = some item := by
    split
    · rename_i hc
      simp only [Bool.and_eq_true, Bool.or_eq_true, beq_iff_eq] at hc
      rw [TermSet.mem_singleton]
      exact ⟨fun ht => ⟨ht, hc⟩, fun ht => ht.1⟩
    · rename_i hc
      simp only [Bool.and_eq_true, Bool.or_eq_true, beq_iff_eq] at hc
      exact ⟨fun ht => absurd ht (TermSet.not_mem_empty t), fun ht => absurd ht.2 hc⟩
  have hoffered : t ∈ TermSet.unions
      (((offers g g.facts s).filter fun o => g.lhs? item == some o.1).map Prod.snd) ↔
      ∃ item' ∈ s.items, ∃ x, g.lhs? item = some x ∧ g.next item' = some x ∧
        t ∈ g.facts.firstOfSequence (g.tail item') := by
    simp only [TermSet.mem_unions, List.mem_map, List.mem_filter, Prod.exists, beq_iff_eq]
    constructor
    · rintro ⟨_, ⟨x, _, ⟨ho, hl⟩, rfl⟩, ht⟩
      obtain ⟨item', hi', hx, rfl⟩ := (mem_offers h).mp ho
      exact ⟨item', hi', x, hl, hx, ht⟩
    · rintro ⟨item', hi', x, hl, hx, ht⟩
      exact ⟨_, ⟨x, _, ⟨(mem_offers h).mpr ⟨item', hi', hx, rfl⟩, hl⟩, rfl⟩, ht⟩
  unfold seed
  dsimp only
  split
  · rename_i hpos
    rw [TermSet.mem_union, hended, hoffered]
    simp only [beq_iff_eq] at hpos
    simp [hpos]
  · rename_i hpos
    rw [hended]
    simp only [beq_iff_eq] at hpos
    simp [hpos]

/-- What an occurrence starts with are lookaheads of it. -/
theorem lookahead_of_mem_seedAt (h : g.Augmented root) {o : Occurrence}
    (ho : o.item ∈ g.itemsOf o.state) {t : TermId} (ht : t ∈ seedAt g o) :
    g.Lookahead o.state o.item t := by
  obtain ⟨q, item⟩ := o
  unfold seedAt at ht
  split at ht
  · rename_i s hs
    rcases (mem_seed h).mp ht with ⟨rfl, hq, hhead⟩ | ⟨hpos, item', hi', x, hl, hx, ht⟩
    · rcases hq with rfl | rfl
      · obtain rfl : (⟨ProductionId.root, 0⟩ : Item) = item :=
          Option.some.inj ((head_items_initial g hs).symm.trans hhead)
        exact .initial
      · obtain rfl : (⟨ProductionId.root, 1⟩ : Item) = item :=
          Option.some.inj ((head_items_final g hs).symm.trans hhead)
        exact .final
    · obtain ⟨p, hp, rfl⟩ := Option.map_eq_some_iff.mp hl
      have hterm := h.terminal_of_mem_firstOfSequence ht
      obtain ⟨w, hw⟩ := (h.derives_cons_iff hterm).mpr ht
      have hstart : item = Item.start item.production := by
        rw [Item.start, ← hpos]
      dsimp only
      rw [hstart]
      exact .follow (by rw [Cfg.itemsOf_eq hs]; exact hi') hp hx hterm hw
  · exact absurd ht (TermSet.not_mem_empty t)

theorem mem_targetsAt (h : g.Augmented root) {o o' : Occurrence}
    (ho : o.item ∈ g.itemsOf o.state) :
    o' ∈ targetsAt g o ↔
      (∃ i p, g.productions[i]? = some p ∧ g.next o.item = some p.lhs ∧
        g.Derives (g.tail o.item) [] ∧ o' = ⟨o.state, Item.start i⟩) ∨
      (∃ x q', g.next o.item = some x ∧ g.goto? o.state x = some q' ∧
        o' = ⟨q', o.item.advance⟩) := by
  obtain ⟨q, item⟩ := o
  unfold targetsAt
  cases hs : g.states[q]? with
  | none => simp [Cfg.itemsOf, hs] at ho
  | some s =>
    have hgoto : ∀ x, g.goto? q x = s.moves.lookup x := fun x => by rw [Cfg.goto?, hs]; rfl
    unfold targets
    dsimp only
    cases hx : g.next item with
    | none => simp
    | some x =>
      simp only [List.mem_append, Option.mem_toList, Option.map_eq_some_iff, ← hgoto,
        Option.some.injEq]
      refine or_congr ?_ ?_
      · by_cases hnull : g.Derives (g.tail item) []
        · rw [if_pos (h.tailNullable_iff.mpr hnull)]
          simp only [Cfg.startItems, List.mem_map, Cfg.mem_productionsOf]
          constructor
          · rintro ⟨_, ⟨i, ⟨p, hp, rfl⟩, rfl⟩, rfl⟩
            exact ⟨i, p, hp, rfl, hnull, rfl⟩
          · rintro ⟨i, p, hp, rfl, -, rfl⟩
            exact ⟨_, ⟨i, ⟨p, hp, rfl⟩, rfl⟩, rfl⟩
        · rw [if_neg fun hc => hnull (h.tailNullable_iff.mp hc)]
          simp [hnull]
      · constructor
        · rintro ⟨q', hq', rfl⟩
          exact ⟨x, q', rfl, hq', rfl⟩
        · rintro ⟨_, q', rfl, hq', rfl⟩
          exact ⟨q', hq', rfl⟩

theorem targetsAt_mem_itemsOf (h : g.Augmented root) {o o' : Occurrence}
    (ho : o.item ∈ g.itemsOf o.state) (ht : o' ∈ targetsAt g o) :
    o'.item ∈ g.itemsOf o'.state := by
  rcases (mem_targetsAt h ho).mp ht with ⟨i, p, hp, hx, -, rfl⟩ | ⟨x, q', hx, hq', rfl⟩
  · exact h.itemsOf_step ho hp hx
  · exact h.advance_mem_of_goto hq' ho hx

/-! ## The computed lookaheads -/

theorem getD_seeds {j : Nat} {t : TermId} :
    t ∈ (seeds g g.facts g.states)[j]?.getD ∅ ↔
      ∃ o, (listOccurrences g.states)[j]? = some o ∧ t ∈ seedAt g o := by
  rw [seeds_eq, List.getElem?_toArray, List.getElem?_map]
  cases (listOccurrences g.states)[j]? with
  | none => simp
  | some o => simp

theorem mem_targets_targetGraph {j k : Nat} :
    k ∈ (targetGraph g g.facts g.states (listOccurrences g.states)).targets j ↔
      ∃ o, (listOccurrences g.states)[j]? = some o ∧
        ∃ o' ∈ targetsAt g o, k = (listOccurrences g.states).idxOf o' := by
  rw [targetGraph_eq, Graph.targets, List.getElem?_toArray, List.getElem?_map]
  cases (listOccurrences g.states)[j]? with
  | none => simp
  | some o => simp [eq_comm]

/-- One occurrence spreads its lookaheads to another. -/
def Spreads (g : Cfg) (o o' : Occurrence) : Prop :=
  o.item ∈ g.itemsOf o.state ∧ o' ∈ targetsAt g o

/-- The edges between the numbers of occurrences. -/
abbrev Edge (g : Cfg) (j k : Nat) : Prop :=
  k ∈ (targetGraph g g.facts g.states (listOccurrences g.states)).targets j

theorem spreads_of_edges (h : g.Augmented root) {j k : Nat}
    (hpath : Relation.ReflTransGen (Edge g) j k) {o o' : Occurrence}
    (ho : (listOccurrences g.states)[j]? = some o)
    (ho' : (listOccurrences g.states)[k]? = some o') :
    Relation.ReflTransGen (Spreads g) o o' := by
  induction hpath generalizing o' with
  | refl =>
    obtain rfl : o = o' := Option.some.inj (ho.symm.trans ho')
    exact Relation.ReflTransGen.refl
  | tail _ hedge ih =>
    obtain ⟨o₁, ho₁, o₂, ho₂, rfl⟩ := mem_targets_targetGraph.mp hedge
    have ho₁' := mem_listOccurrences.mp (List.mem_of_getElem? ho₁)
    have ho₂' := mem_listOccurrences.mpr (targetsAt_mem_itemsOf h ho₁' ho₂)
    obtain rfl : o₂ = o' := Option.some.inj ((List.getElem?_idxOf ho₂').symm.trans ho')
    exact (ih ho₁).tail ⟨ho₁', ho₂⟩

theorem edges_of_spreads {o o' : Occurrence} (hpath : Relation.ReflTransGen (Spreads g) o o') :
    Relation.ReflTransGen (Edge g) ((listOccurrences g.states).idxOf o)
      ((listOccurrences g.states).idxOf o') := by
  induction hpath with
  | refl => exact Relation.ReflTransGen.refl
  | @tail b c _ hedge ih =>
    refine ih.tail (mem_targets_targetGraph.mpr ⟨b, ?_, c, hedge.2, rfl⟩)
    exact List.getElem?_idxOf (mem_listOccurrences.mpr hedge.1)

theorem edge_in_range (h : g.Augmented root) (j k : Nat) (hedge : Edge g j k) :
    k < (seeds g g.facts g.states).size := by
  obtain ⟨o, ho, o', ho', rfl⟩ := mem_targets_targetGraph.mp hedge
  have ho := mem_listOccurrences.mp (List.mem_of_getElem? ho)
  have ho' := targetsAt_mem_itemsOf h ho ho'
  rw [seeds_eq, List.size_toArray, List.length_map]
  exact List.idxOf_lt_length_of_mem (mem_listOccurrences.mpr ho')

/-- A lookahead of an occurrence is one that some occurrence starts with and spreads to it. -/
theorem mem_lookaheadsOf_iff_spreads (h : g.Augmented root) {q : StateId} {item : Item}
    (hi : item ∈ g.itemsOf q) {t : TermId} :
    t ∈ (ofCfg g g.facts).lookaheadsOf q item ↔ ∃ o, o.item ∈ g.itemsOf o.state ∧
      t ∈ seedAt g o ∧ Relation.ReflTransGen (Spreads g) o ⟨q, item⟩ := by
  have hmem : (⟨q, item⟩ : Occurrence) ∈ listOccurrences g.states := mem_listOccurrences.mpr hi
  have heq : (ofCfg g g.facts).lookaheadsOf q item =
      (propagate (targetGraph g g.facts g.states (listOccurrences g.states))
        (seeds g g.facts g.states))[(listOccurrences g.states).idxOf ⟨q, item⟩]?.getD ∅ := rfl
  rw [heq, mem_propagate_iff (edge_in_range h)]
  constructor
  · rintro ⟨j, hj, hpath⟩
    obtain ⟨o, ho, ht⟩ := getD_seeds.mp hj
    exact ⟨o, mem_listOccurrences.mp (List.mem_of_getElem? ho), ht,
      spreads_of_edges h hpath ho (List.getElem?_idxOf hmem)⟩
  · rintro ⟨o, ho, ht, hpath⟩
    have ho' := List.getElem?_idxOf (mem_listOccurrences.mpr ho)
    exact ⟨_, getD_seeds.mpr ⟨o, ho', ht⟩, edges_of_spreads hpath⟩

end Automaton

namespace Cfg

variable {g : Cfg} {root : TermId}

theorem Lookahead.mem_itemsOf (h : g.Augmented root) {q : StateId} {item : Item} {t : TermId}
    (hl : g.Lookahead q item t) : item ∈ g.itemsOf q := by
  induction hl with
  | initial =>
    rw [itemsOf_eq_closure g.kernels_initial]
    exact kernel_subset_closure (List.mem_singleton_self _)
  | final =>
    rw [itemsOf_eq_closure g.kernels_final]
    exact kernel_subset_closure (List.mem_singleton_self _)
  | follow hi hp hx => exact h.itemsOf_step hi hp hx
  | inherit _ hi hp hx => exact h.itemsOf_step hi hp hx
  | move _ hi hx hq => exact h.advance_mem_of_goto hq hi hx

/-- Lookaheads are terminals. -/
theorem Lookahead.terminal (h : g.Augmented root) {q : StateId} {item : Item} {t : TermId}
    (hl : g.Lookahead q item t) : t ∈ g.terminals := by
  induction hl with
  | initial => exact h.eof_mem
  | final => exact h.eof_mem
  | follow _ _ _ ht => exact ht
  | inherit _ _ _ _ _ ih => exact ih
  | move _ _ _ _ ih => exact ih

end Cfg

namespace Automaton

variable {g : Cfg} {root : TermId}

/-- The first item of each of the two root states starts with the end of input. -/
theorem eof_mem_seedAt (h : g.Augmented root) {q : StateId} {item : Item} {s : State}
    (hs : g.states[q]? = some s) (hq : q = StateId.initial ∨ q = StateId.final)
    (hhead : s.items.head? = some item) : TermId.eof ∈ seedAt g ⟨q, item⟩ := by
  simp only [seedAt, hs]
  exact (mem_seed h).mpr (Or.inl ⟨rfl, hq, hhead⟩)

/-- An item that starts a production starts with what may follow it. -/
theorem mem_seedAt_of_follow (h : g.Augmented root) {q : StateId} {item : Item}
    {i : ProductionId} {p : Production} {t : TermId} {w : List TermId} (hi : item ∈ g.itemsOf q)
    (hp : g.productions[i]? = some p) (hx : g.next item = some p.lhs) (ht : t ∈ g.terminals)
    (hd : g.Derives (g.tail item) (t :: w)) : t ∈ seedAt g ⟨q, Item.start i⟩ := by
  cases hs : g.states[q]? with
  | none => simp [Cfg.itemsOf, hs] at hi
  | some s =>
    rw [Cfg.itemsOf_eq hs] at hi
    simp only [seedAt, hs]
    refine (mem_seed h).mpr (Or.inr ⟨rfl, item, hi, p.lhs, ?_, hx, ?_⟩)
    · simp [Cfg.lhs?, Item.start, hp]
    · exact (h.derives_cons_iff ht).mp ⟨w, hd⟩

/-- Lookaheads spread. -/
theorem lookahead_of_spreads (h : g.Augmented root) {o o' : Occurrence} {t : TermId}
    (hl : g.Lookahead o.state o.item t) (hpath : Relation.ReflTransGen (Spreads g) o o') :
    g.Lookahead o'.state o'.item t := by
  induction hpath with
  | refl => exact hl
  | tail _ hedge ih =>
    rcases (mem_targetsAt h hedge.1).mp hedge.2 with
      ⟨i, p, hp, hx, hd, rfl⟩ | ⟨x, q', hx, hq', rfl⟩
    · exact .inherit ih hedge.1 hp hx hd
    · exact .move ih hedge.1 hx hq'

/-- Every lookahead has spread from where some occurrence starts with it. -/
theorem exists_seedAt_of_lookahead (h : g.Augmented root) {q : StateId} {item : Item} {t : TermId}
    (hl : g.Lookahead q item t) : ∃ o, o.item ∈ g.itemsOf o.state ∧ t ∈ seedAt g o ∧
      Relation.ReflTransGen (Spreads g) o ⟨q, item⟩ := by
  -- Two rules of lookaheads are one more edge; the others are seeds.
  induction hl with
  | initial =>
    have hs := Cfg.state_eq_some_iff.mpr ⟨_, g.kernels_initial, rfl⟩
    exact ⟨_, Cfg.Lookahead.mem_itemsOf h .initial,
      eof_mem_seedAt h hs (Or.inl rfl) (head_items_initial g hs), .refl⟩
  | final =>
    have hs := Cfg.state_eq_some_iff.mpr ⟨_, g.kernels_final, rfl⟩
    exact ⟨_, Cfg.Lookahead.mem_itemsOf h .final,
      eof_mem_seedAt h hs (Or.inr rfl) (head_items_final g hs), .refl⟩
  | follow hi hp hx ht hd =>
    exact ⟨_, h.itemsOf_step hi hp hx, mem_seedAt_of_follow h hi hp hx ht hd, .refl⟩
  | inherit _ hi hp hx hd ih =>
    obtain ⟨o, ho, ht, hpath⟩ := ih
    refine ⟨o, ho, ht, hpath.tail ⟨hi, ?_⟩⟩
    exact (mem_targetsAt h hi).mpr (Or.inl ⟨_, _, hp, hx, hd, rfl⟩)
  | move _ hi hx hq ih =>
    obtain ⟨o, ho, ht, hpath⟩ := ih
    refine ⟨o, ho, ht, hpath.tail ⟨hi, ?_⟩⟩
    exact (mem_targetsAt h hi).mpr (Or.inr ⟨_, _, hx, hq, rfl⟩)

end Automaton

namespace Cfg

variable {g : Cfg} {root : TermId}

/-- **The computed lookaheads are those of the rules.** -/
theorem Augmented.mem_lookaheadsOf_iff (h : g.Augmented root) {q : StateId} {item : Item}
    (hi : item ∈ g.itemsOf q) {t : TermId} :
    t ∈ (Automaton.ofCfg g g.facts).lookaheadsOf q item ↔ g.Lookahead q item t := by
  rw [Automaton.mem_lookaheadsOf_iff_spreads h hi]
  constructor
  · rintro ⟨o, ho, ht, hpath⟩
    exact Automaton.lookahead_of_spreads h (Automaton.lookahead_of_mem_seedAt h ho ht) hpath
  · exact Automaton.exists_seedAt_of_lookahead h

end Cfg

end Lalr

import Lalr.Proofs.Compiled.Lookaheads

/-!
# The canonical LR(0) collection

The states of a compiled grammar are the canonical collection of LR(0) item sets. What that means is
said here without the way they are computed (`Cfg.CanonicalCollection`), from two notions of the
textbook: an item is in the **closure** of a kernel (`Cfg.InClosure`), and a state **moves** over a
symbol to the items that have their dot advanced over it.

**`states_canonical`**: for every definition that compiles, the search for the states comes to an
end, and so does closing each of them; and what they find is the canonical collection.
-/

namespace Lalr

namespace Cfg

/-- The LR(0) closure of a kernel: with a nonterminal behind a dot, its productions start. -/
inductive InClosure (g : Cfg) (kernel : List Item) : Item → Prop
  | kernel {item : Item} (h : item ∈ kernel) : InClosure g kernel item
  | start {item : Item} {i : ProductionId} {p : Production} (h : InClosure g kernel item)
      (hp : g.productions[i]? = some p) (hx : g.next item = some p.lhs) :
      InClosure g kernel (Item.start i)

/-- The states, with the targets of their moves, are the canonical LR(0) collection of a grammar
whose augmented root stands above `root`. -/
structure CanonicalCollection (g : Cfg) (root : TermId) (states : List State)
    (target : StateId → TermId → Option StateId) : Prop where
  initial : states[StateId.initial]?.map State.kernel = some [⟨ProductionId.root, 0⟩]
  final   : states[StateId.final]?.map State.kernel = some [⟨ProductionId.root, 1⟩]
  /-- A kernel is a strictly increasing list of items. -/
  increasing : ∀ s ∈ states, s.kernel.Pairwise (· < ·)
  /-- No two states have the same kernel. -/
  distinct : (states.map State.kernel).Nodup
  /-- No item occurs twice in a state. -/
  nodup : ∀ s ∈ states, s.items.Nodup
  /-- The items of a state are the closure of its kernel. -/
  closure : ∀ s ∈ states, ∀ item, item ∈ s.items ↔ g.InClosure s.kernel item
  /-- A state moves over exactly the symbols behind its dots. -/
  moves : ∀ q s x, states[q]? = some s →
    ((target q x).isSome ↔ ∃ item ∈ s.items, g.next item = some x)
  /-- The kernel moved to has exactly these dots advanced. -/
  moved : ∀ q s x q', states[q]? = some s → target q x = some q' →
    ∃ s', states[q']? = some s' ∧
      ∀ i, i ∈ s'.kernel ↔ ∃ item ∈ s.items, g.next item = some x ∧ i = item.advance
  /-- Every state but perhaps the final one is reached from the initial state. -/
  reached : ∀ q < states.length, q ≠ StateId.final →
    ∃ xs : List TermId, xs.foldlM target StateId.initial = some q
  /-- The final state is reached iff the initial state expects the root at its start only. -/
  final_reached : ∀ s, states[StateId.initial]? = some s →
    ((∃ xs : List TermId, xs.foldlM target StateId.initial = some StateId.final) ↔
      ∀ item ∈ s.items, g.next item = some root → item = ⟨ProductionId.root, 0⟩)

variable {g : Cfg} {root : TermId}

theorem mem_closure_iff_inClosure {kernel : List Item} (h : kernel.Nodup) {item : Item} :
    item ∈ g.closure kernel ↔ g.InClosure kernel item := by
  constructor
  · intro hi
    refine Reach.induction (P := g.InClosure kernel) (fun _ hi => .kernel hi) ?_
      ((mem_closure_iff h).mp hi)
    intro i j _ hclosure hj
    obtain ⟨_, p, hx, hp, rfl, hpos⟩ := mem_expand.mp hj
    have hstart : j = Item.start j.production := by rw [Item.start, ← hpos]
    rw [hstart]
    exact .start hclosure hp hx
  · intro hi
    induction hi with
    | kernel hi => exact kernel_subset_closure hi
    | start _ hp hx ih => exact closure_step h ih hx hp rfl

/-- The final state is moved to over the root iff nothing else is behind the root. -/
theorem Augmented.goto_final_iff (h : g.Augmented root) :
    g.goto? StateId.initial root = some StateId.final ↔
      ∀ item ∈ g.itemsOf StateId.initial, g.next item = some root →
        item = ⟨ProductionId.root, 0⟩ := by
  have hstart : (⟨ProductionId.root, 0⟩ : Item) ∈ g.itemsOf StateId.initial := by
    rw [itemsOf_eq_closure g.kernels_initial]
    exact kernel_subset_closure (List.mem_singleton_self _)
  have hnext : g.next ⟨ProductionId.root, 0⟩ = some root := by
    rw [next, h.root_production]
    rfl
  rw [h.goto_iff, g.kernels_final, Option.some.injEq]
  constructor
  · rintro ⟨-, hkernel⟩ item hi hx
    have hmem : item.advance ∈ g.moved (g.itemsOf StateId.initial) root :=
      mem_moved.mpr ⟨item, hi, hx, rfl⟩
    rw [← hkernel, List.mem_singleton] at hmem
    cases item
    simpa [Item.advance] using hmem
  · intro honly
    refine ⟨⟨_, hstart, hnext⟩, ?_⟩
    refine eq_of_pairwise_of_mem_iff Item.lt_irrefl Item.lt_trans (List.pairwise_singleton _ _)
      (pairwise_moved _ _) fun i => ?_
    rw [List.mem_singleton, mem_moved]
    constructor
    · rintro rfl
      exact ⟨_, hstart, hnext, rfl⟩
    · rintro ⟨item, hi, hx, rfl⟩
      rw [honly item hi hx]
      rfl

/-- The final state is reached over the root or not at all. -/
theorem Augmented.stateAfter_final_iff (h : g.Augmented root) :
    (∃ xs, g.stateAfter xs = some StateId.final) ↔
      g.goto? StateId.initial root = some StateId.final := by
  constructor
  · rintro ⟨xs, hxs⟩
    obtain ⟨states, hpath⟩ := exists_path hxs
    have hcomplete : (⟨ProductionId.root, 1⟩ : Item) ∈ g.itemsOf StateId.final := by
      rw [h.itemsOf_final]
      exact List.mem_singleton_self _
    exact (hpath.of_root_complete h hcomplete).2.2
  · intro hgoto
    exact ⟨[root], stateAfter_append_iff.mpr ⟨_, stateAfter_nil_iff.mpr rfl, hgoto⟩⟩

theorem kernel_of_state {q : StateId} {s : State} (hs : g.states[q]? = some s) :
    g.kernels[q]? = some s.kernel ∧ s.items = g.closure s.kernel := by
  obtain ⟨kernel, hk, rfl⟩ := state_eq_some_iff.mp hs
  exact ⟨hk, rfl⟩

theorem map_kernel_states (g : Cfg) : g.states.map State.kernel = g.kernels := by
  rw [states_eq, List.map_map]
  exact List.map_id _

/-- **The states of the automaton are the canonical collection.** -/
theorem Augmented.canonicalCollection (h : g.Augmented root) :
    g.CanonicalCollection root g.states g.goto? := by
  have hstate : ∀ s ∈ g.states, s.kernel ∈ g.kernels ∧ s.items = g.closure s.kernel := by
    intro s hs
    obtain ⟨q, hq⟩ := List.mem_iff_getElem?.mp hs
    obtain ⟨hk, hitems⟩ := kernel_of_state hq
    exact ⟨List.mem_of_getElem? hk, hitems⟩
  have hincreasing : ∀ s ∈ g.states, s.kernel.Pairwise (· < ·) := fun s hs =>
    (h.isKernelOf_of_mem_kernels (hstate s hs).1).1
  refine ⟨?_, ?_, hincreasing, ?_, ?_, ?_, ?_, ?_, ?_, ?_⟩
  · rw [← List.getElem?_map, map_kernel_states]
    exact g.kernels_initial
  · rw [← List.getElem?_map, map_kernel_states]
    exact g.kernels_final
  · rw [map_kernel_states]
    exact g.nodup_kernels
  · intro s hs
    rw [(hstate s hs).2]
    exact nodup_closure (nodup_of_pairwise_lt (hincreasing s hs))
  · intro s hs item
    rw [(hstate s hs).2]
    exact mem_closure_iff_inClosure (nodup_of_pairwise_lt (hincreasing s hs))
  · intro q s x hs
    rw [← itemsOf_eq hs, Option.isSome_iff_exists]
    constructor
    · rintro ⟨q', hq'⟩
      exact (h.goto_iff.mp hq').1
    · rintro ⟨item, hi, hx⟩
      exact h.exists_goto hi hx
  · intro q s x q' hs hq'
    have hk := (h.goto_iff.mp hq').2
    rw [itemsOf_eq hs] at hk
    exact ⟨_, state_eq_some_iff.mpr ⟨_, hk, rfl⟩, fun i => mem_moved⟩
  · intro q hq hne
    obtain ⟨hk, -⟩ := kernel_of_state (List.getElem?_eq_getElem hq)
    exact h.exists_stateAfter hk hne
  · intro s hs
    rw [← itemsOf_eq hs, ← h.goto_final_iff]
    exact h.stateAfter_final_iff

end Cfg

namespace Compiled

variable {c : Compiled}

/-- **The states are the canonical LR(0) collection**, for every definition that compiles. Its
discovery comes to an end, and so does the closing of every kernel on the way. -/
theorem states_canonical [Text.Xid] {ignoreCase : Bool} {commands : List Command}
    (h : (Definition.ofCommands ignoreCase commands).compile = .ok c) :
    Discovers c.cfg.movedKernels 0 [[⟨ProductionId.root, 0⟩], [⟨ProductionId.root, 1⟩]]
        (c.automaton.states.map State.kernel) ∧
      (∀ s ∈ c.automaton.states, Discovers c.cfg.expand 0 s.kernel s.items) ∧
      c.cfg.CanonicalCollection c.root c.automaton.states
        fun q x => (c.records.find? q x).bind Record.target := by
  have hb := Definition.built_of_compile h
  have htarget : (fun q x => (c.records.find? q x).bind Record.target) = c.cfg.goto? :=
    funext₂ fun q x => hb.target_eq_goto
  have hstates : c.automaton.states = c.cfg.states := by rw [hb.automaton]; rfl
  rw [htarget, hstates, Cfg.map_kernel_states]
  refine ⟨hb.augmented.discovers_kernels, ?_, hb.augmented.canonicalCollection⟩
  intro s hs
  obtain ⟨q, hq⟩ := List.mem_iff_getElem?.mp hs
  obtain ⟨hk, hitems⟩ := Cfg.kernel_of_state hq
  rw [hitems]
  exact Cfg.discovers_closure (hb.augmented.nodup_kernel hk)

theorem states_canonical_assignments :
    (Definition.ofCommands false assignments).compile = .ok assignmentsCompiled ∧
      Discovers assignmentsCompiled.cfg.movedKernels 0
        [[⟨ProductionId.root, 0⟩], [⟨ProductionId.root, 1⟩]]
        (assignmentsCompiled.automaton.states.map State.kernel) ∧
      (∀ s ∈ assignmentsCompiled.automaton.states,
        Discovers assignmentsCompiled.cfg.expand 0 s.kernel s.items) ∧
      assignmentsCompiled.cfg.CanonicalCollection 6 assignmentsCompiled.automaton.states
        fun q x => (assignmentsCompiled.records.find? q x).bind Record.target :=
  ⟨compile_assignments, states_canonical compile_assignments⟩

end Compiled

end Lalr

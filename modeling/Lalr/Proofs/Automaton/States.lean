import Lalr.Automaton.Basic
import Lalr.Proofs.Cfg.Derivation
import Lalr.Proofs.Discovery
import Mathlib.Data.List.Basic
import Mathlib.Data.List.Sort
import Mathlib.Data.List.Sublists

/-!
# The states of the LR(0) automaton

What the rest of the theory needs to know of the states, so that it never looks into `discover`:

* `mem_items_iff`: the items of the grammar; every item of every state is one
  (`items_of_state`).
* `closure_cases`, `closure_step`: a closure holds its kernel and the start items of what stands
  behind the dots, and nothing else.
* **`goto_iff`**: a state moves over a symbol iff the symbol is behind one of its dots, and it
  leads to the state whose kernel has these dots advanced.
* `items_goto_cases`: an item of a state moved to had its dot moved, or starts a production.

Both discoveries have the fuel they need: a closure adds start items only, one per production, and
a kernel, being increasing, is one of the sublists of the list of all items.
-/

namespace Lalr

namespace Cfg

variable {g : Cfg} {root : TermId}

/-! ## Items -/

theorem mem_productionsOf {i : ProductionId} {x : TermId} :
    i ∈ g.productionsOf x ↔ ∃ p, g.productions[i]? = some p ∧ p.lhs = x := by
  simp only [productionsOf, List.mem_map, List.mem_filter, Prod.exists, beq_iff_eq,
    List.mem_zipIdx_iff_getElem?]
  constructor
  · rintro ⟨p, j, ⟨hj, hx⟩, rfl⟩
    exact ⟨p, hj, hx⟩
  · rintro ⟨p, hi, hx⟩
    exact ⟨p, i, ⟨hi, hx⟩, rfl⟩

theorem next_eq_some_iff {item : Item} {x : TermId} :
    g.next item = some x ↔
      ∃ p, g.productions[item.production]? = some p ∧ p.rhs[item.position]? = some x := by
  simp only [next, Option.bind_eq_some_iff]

theorem tail_eq {item : Item} {p : Production} (h : g.productions[item.production]? = some p) :
    g.tail item = p.rhs.drop (item.position + 1) := by
  simp only [tail, h]

/-- What is left of a production behind the dot. -/
theorem drop_of_next {item : Item} {p : Production} {x : TermId}
    (hp : g.productions[item.production]? = some p) (hx : g.next item = some x) :
    p.rhs.drop item.position = x :: g.tail item := by
  obtain ⟨p', hp', hget⟩ := next_eq_some_iff.mp hx
  obtain rfl := Option.some.inj (hp.symm.trans hp')
  obtain ⟨hlt, rfl⟩ := List.getElem?_eq_some_iff.mp hget
  rw [tail_eq hp, List.drop_eq_getElem_cons hlt]

theorem mem_items_iff {item : Item} :
    item ∈ g.items ↔
      ∃ p, g.productions[item.production]? = some p ∧ item.position ≤ p.rhs.length := by
  simp only [items, List.mem_flatMap, List.mem_map, List.mem_range, Prod.exists,
    List.mem_zipIdx_iff_getElem?]
  constructor
  · rintro ⟨p, i, hp, n, hn, rfl⟩
    exact ⟨p, hp, Nat.lt_succ_iff.mp hn⟩
  · rintro ⟨p, hp, hn⟩
    exact ⟨p, item.production, hp, item.position, Nat.lt_succ_iff.mpr hn, rfl⟩

theorem advance_mem_items {item : Item} {x : TermId} (h : g.next item = some x) :
    item.advance ∈ g.items := by
  obtain ⟨p, hp, hx⟩ := next_eq_some_iff.mp h
  exact mem_items_iff.mpr ⟨p, hp, (List.getElem?_eq_some_iff.mp hx).1⟩

theorem mem_items_of_next {item : Item} {x : TermId} (h : g.next item = some x) :
    item ∈ g.items := by
  obtain ⟨p, hp, hx⟩ := next_eq_some_iff.mp h
  exact mem_items_iff.mpr ⟨p, hp, Nat.le_of_lt (List.getElem?_eq_some_iff.mp hx).1⟩

/-- Items are listed in increasing order: production by production, and in each by the dot. -/
theorem pairwise_items (g : Cfg) : g.items.Pairwise (· < ·) := by
  unfold items
  rw [List.pairwise_flatMap]
  constructor
  · rintro ⟨p, i⟩ _
    rw [List.pairwise_map]
    exact List.pairwise_lt_range.imp fun h => Or.inr ⟨rfl, h⟩
  · have hlt : (g.productions.zipIdx).Pairwise fun a b => a.2 < b.2 := by
      have := List.pairwise_lt_range' (s := 0) (n := g.productions.length)
      rw [← List.zipIdx_map_snd, List.pairwise_map] at this
      exact this
    refine hlt.imp ?_
    intro a b hab x hx y hy
    obtain ⟨_, _, rfl⟩ := List.mem_map.mp hx
    obtain ⟨_, _, rfl⟩ := List.mem_map.mp hy
    exact Or.inl hab

theorem length_items (g : Cfg) : g.items.length = g.itemCount := by
  have hsum : ∀ (ps : List Production) (n : Nat),
      ((ps.zipIdx n).flatMap fun pi =>
        (List.range (pi.1.rhs.length + 1)).map (Item.mk pi.2)).length =
        total (ps.map fun p => p.rhs.length + 1) := by
    intro ps
    induction ps with
    | nil => simp
    | cons p ps ih =>
      intro n
      simp only [List.zipIdx_cons, List.flatMap_cons, List.length_append, List.length_map,
        List.length_range, List.map_cons, total_cons]
      rw [ih (n + 1)]
  exact hsum g.productions 0

/-! ## Closures -/

theorem mem_expand {item i : Item} :
    i ∈ g.expand item ↔ ∃ x p, g.next item = some x ∧
      g.productions[i.production]? = some p ∧ p.lhs = x ∧ i.position = 0 := by
  unfold expand
  split
  · rename_i x hx
    simp only [startItems, List.mem_map, mem_productionsOf, hx, Option.some.injEq]
    constructor
    · rintro ⟨_, ⟨p, hp, rfl⟩, rfl⟩
      exact ⟨p.lhs, p, rfl, hp, rfl, rfl⟩
    · rintro ⟨_, p, rfl, hp, hlhs, hpos⟩
      exact ⟨i.production, ⟨p, hp, hlhs⟩, by rw [Item.start, ← hpos]⟩
  · rename_i hx
    simp [hx]

/-- What a closure can hold: its kernel, and the start item of each production. -/
theorem expand_closed {kernel : List Item} :
    ∀ x ∈ kernel ++ (List.range g.productions.length).map Item.start, ∀ y ∈ g.expand x,
      y ∈ kernel ++ (List.range g.productions.length).map Item.start := by
  intro x _ y hy
  obtain ⟨_, p, -, hp, -, hpos⟩ := mem_expand.mp hy
  refine List.mem_append_right _ (List.mem_map.mpr ⟨y.production, ?_, by rw [Item.start, ← hpos]⟩)
  exact List.mem_range.mpr (List.getElem?_eq_some_iff.mp hp).1

theorem mem_closure_iff {kernel : List Item} (h : kernel.Nodup) {item : Item} :
    item ∈ g.closure kernel ↔ Reach g.expand kernel item :=
  mem_discover_iff _ expand_closed h (fun _ hx => List.mem_append_left _ hx) (by simp)

/-- Closing a kernel comes to an end. -/
theorem discovers_closure {kernel : List Item} (h : kernel.Nodup) :
    Discovers g.expand 0 kernel (g.closure kernel) :=
  discovers_discover _ expand_closed h (fun _ hx => List.mem_append_left _ hx) (by simp)

theorem nodup_closure {kernel : List Item} (h : kernel.Nodup) : (g.closure kernel).Nodup :=
  nodup_discover _ _ h

theorem kernel_subset_closure {kernel : List Item} {item : Item} (h : item ∈ kernel) :
    item ∈ g.closure kernel :=
  mem_discover_of_mem _ _ h

/-- The kernel comes first. -/
theorem exists_closure_eq (g : Cfg) (kernel : List Item) :
    ∃ rest, g.closure kernel = kernel ++ rest :=
  exists_discoverFrom_eq _ _ _ _

theorem closure_step {kernel : List Item} (h : kernel.Nodup) {item : Item}
    (hi : item ∈ g.closure kernel) {x : TermId} (hx : g.next item = some x) {i : ProductionId}
    {p : Production} (hp : g.productions[i]? = some p) (hlhs : p.lhs = x) :
    Item.start i ∈ g.closure kernel := by
  rw [mem_closure_iff h] at hi ⊢
  exact hi.step (mem_expand.mpr ⟨x, p, hx, hp, hlhs, rfl⟩)

/-- An item of a closure is in the kernel or starts a production of a symbol behind a dot. -/
theorem closure_cases {kernel : List Item} (h : kernel.Nodup) {i : Item}
    (hi : i ∈ g.closure kernel) :
    i ∈ kernel ∨ ∃ item ∈ g.closure kernel, ∃ p, g.next item = some p.lhs ∧
      g.productions[i.production]? = some p ∧ i.position = 0 := by
  rw [mem_closure_iff h] at hi
  obtain ⟨k, hk, hpath⟩ := hi
  cases hpath with
  | refl => exact Or.inl hk
  | @tail j _ hkj hji =>
    obtain ⟨x, p, hx, hp, rfl, hpos⟩ := mem_expand.mp hji
    exact Or.inr ⟨j, (mem_closure_iff h).mpr ⟨k, hk, hkj⟩, p, hx, hp, hpos⟩

theorem closure_subset_items {kernel : List Item} (h : kernel.Nodup)
    (hitems : ∀ i ∈ kernel, i ∈ g.items) {i : Item} (hi : i ∈ g.closure kernel) :
    i ∈ g.items := by
  rcases closure_cases h hi with hi | ⟨_, _, p, _, hp, hpos⟩
  · exact hitems i hi
  · exact mem_items_iff.mpr ⟨p, hp, by omega⟩

/-! ## Moves -/

theorem mem_movable {items : List Item} {x : TermId} :
    x ∈ g.movable items ↔ ∃ item ∈ items, g.next item = some x := by
  simp [movable]

theorem mem_moved {items : List Item} {x : TermId} {i : Item} :
    i ∈ g.moved items x ↔ ∃ item ∈ items, g.next item = some x ∧ i = item.advance := by
  rw [moved, mem_sortDistinct Item.trichotomous]
  simp only [List.mem_map, List.mem_filter, beq_iff_eq]
  constructor
  · rintro ⟨item, ⟨hi, hx⟩, rfl⟩
    exact ⟨item, hi, hx, rfl⟩
  · rintro ⟨item, hi, hx, rfl⟩
    exact ⟨item, ⟨hi, hx⟩, rfl⟩

theorem pairwise_moved (items : List Item) (x : TermId) : (g.moved items x).Pairwise (· < ·) :=
  pairwise_sortDistinct Item.trichotomous Item.lt_trans _

theorem nodup_of_pairwise_lt {kernel : List Item} (h : kernel.Pairwise (· < ·)) : kernel.Nodup := by
  refine h.imp ?_
  intro a b hab
  rintro rfl
  exact Item.lt_irrefl a hab

theorem mem_movedKernels {kernel k : List Item} :
    k ∈ g.movedKernels kernel ↔
      ∃ x ∈ g.movable (g.closure kernel), k = g.moved (g.closure kernel) x := by
  simp only [movedKernels, List.mem_map]
  exact ⟨fun ⟨x, hx, hk⟩ => ⟨x, hx, hk.symm⟩, fun ⟨x, hx, hk⟩ => ⟨x, hx, hk.symm⟩⟩

/-! ## Kernels -/

/-- An increasing list of items of the grammar. -/
def IsKernelOf (g : Cfg) (kernel : List Item) : Prop :=
  kernel.Pairwise (· < ·) ∧ ∀ i ∈ kernel, i ∈ g.items

theorem isKernelOf_iff_sublist {kernel : List Item} :
    g.IsKernelOf kernel ↔ kernel.Sublist g.items := by
  constructor
  · rintro ⟨hsorted, hitems⟩
    have : Std.Antisymm (fun a b : Item => a < b) :=
      ⟨fun a b hab hba => absurd (Item.lt_trans a b a hab hba) (Item.lt_irrefl a)⟩
    exact List.sublist_of_subperm_of_pairwise ((nodup_of_pairwise_lt hsorted).subperm hitems)
      hsorted g.pairwise_items
  · exact fun h => ⟨g.pairwise_items.sublist h, fun i hi => h.subset hi⟩

theorem isKernelOf_moved (items : List Item) (x : TermId) : g.IsKernelOf (g.moved items x) := by
  refine ⟨pairwise_moved items x, ?_⟩
  intro i hi
  obtain ⟨item, -, hx, rfl⟩ := mem_moved.mp hi
  exact advance_mem_items hx

theorem mem_sublists_items {kernel : List Item} :
    kernel ∈ g.items.sublists ↔ g.IsKernelOf kernel := by
  rw [List.mem_sublists, isKernelOf_iff_sublist]

theorem movedKernels_closed :
    ∀ k ∈ g.items.sublists, ∀ k' ∈ g.movedKernels k, k' ∈ g.items.sublists := by
  intro k _ k' hk'
  obtain ⟨x, -, rfl⟩ := mem_movedKernels.mp hk'
  exact mem_sublists_items.mpr (isKernelOf_moved _ x)

namespace Augmented

theorem root_item_mem (h : g.Augmented root) {n : Nat} (hn : n ≤ 1) :
    (⟨ProductionId.root, n⟩ : Item) ∈ g.items :=
  mem_items_iff.mpr ⟨_, h.root_production, hn⟩

/-- The kernels that discovery starts from. -/
theorem isKernelOf_start (h : g.Augmented root) {k : List Item}
    (hk : k ∈ [[⟨ProductionId.root, 0⟩], [⟨ProductionId.root, 1⟩]]) : g.IsKernelOf k := by
  rcases List.mem_pair.mp hk with rfl | rfl
  · exact ⟨List.pairwise_singleton _ _, by simpa using h.root_item_mem (Nat.zero_le 1)⟩
  · exact ⟨List.pairwise_singleton _ _, by simpa using h.root_item_mem (Nat.le_refl 1)⟩

/-- **Kernels are discovered completely**, since there is fuel for every sublist of the items. -/
theorem mem_kernels_iff (h : g.Augmented root) {kernel : List Item} :
    kernel ∈ g.kernels ↔
      Reach g.movedKernels [[⟨ProductionId.root, 0⟩], [⟨ProductionId.root, 1⟩]] kernel :=
  mem_discover_iff g.items.sublists movedKernels_closed (by simp)
    (fun _ hk => mem_sublists_items.mpr (h.isKernelOf_start hk))
    (by rw [List.length_sublists, length_items]; exact Nat.le_refl _)

/-- Discovering the kernels comes to an end. -/
theorem discovers_kernels (h : g.Augmented root) :
    Discovers g.movedKernels 0 [[⟨ProductionId.root, 0⟩], [⟨ProductionId.root, 1⟩]] g.kernels :=
  discovers_discover g.items.sublists movedKernels_closed (by simp)
    (fun _ hk => mem_sublists_items.mpr (h.isKernelOf_start hk))
    (by rw [List.length_sublists, length_items]; exact Nat.le_refl _)

theorem isKernelOf_of_mem_kernels (h : g.Augmented root) {kernel : List Item}
    (hk : kernel ∈ g.kernels) : g.IsKernelOf kernel := by
  refine Reach.induction (P := g.IsKernelOf) (fun _ hk => h.isKernelOf_start hk) ?_
    (h.mem_kernels_iff.mp hk)
  intro k k' _ _ hk'
  obtain ⟨x, -, rfl⟩ := mem_movedKernels.mp hk'
  exact isKernelOf_moved _ x

end Augmented

theorem nodup_kernels (g : Cfg) : g.kernels.Nodup := nodup_discover _ _ (by simp)

/-- States with the same kernel are the same. -/
theorem eq_of_kernel {q q' : StateId} {kernel : List Item} (hq : g.kernels[q]? = some kernel)
    (hq' : g.kernels[q']? = some kernel) : q = q' := by
  have hlt := (List.getElem?_eq_some_iff.mp hq).1
  exact (List.getElem?_inj hlt g.nodup_kernels).mp (hq.trans hq'.symm)

/-! ## States -/

theorem states_eq (g : Cfg) : g.states = g.kernels.map (g.stateOf g.kernels) := rfl

theorem state_eq_some_iff {q : StateId} {s : State} :
    g.states[q]? = some s ↔
      ∃ kernel, g.kernels[q]? = some kernel ∧ s = g.stateOf g.kernels kernel := by
  rw [states_eq, List.getElem?_map, Option.map_eq_some_iff]
  exact ⟨fun ⟨k, hk, hs⟩ => ⟨k, hk, hs.symm⟩, fun ⟨k, hk, hs⟩ => ⟨k, hk, hs.symm⟩⟩

/-- The state reached by moving over a symbol. -/
def goto? (g : Cfg) (q : StateId) (x : TermId) : Option StateId :=
  g.states[q]?.bind (·.moves.lookup x)

/-- The items of a state, none for a number that is no state. -/
def itemsOf (g : Cfg) (q : StateId) : List Item := (g.states[q]?.map State.items).getD []

theorem itemsOf_eq {q : StateId} {s : State} (h : g.states[q]? = some s) :
    g.itemsOf q = s.items := by
  rw [itemsOf, h]
  rfl

theorem itemsOf_eq_closure {q : StateId} {kernel : List Item} (h : g.kernels[q]? = some kernel) :
    g.itemsOf q = g.closure kernel :=
  itemsOf_eq (state_eq_some_iff.mpr ⟨kernel, h, rfl⟩)

theorem exists_kernel_of_mem_itemsOf {q : StateId} {item : Item} (h : item ∈ g.itemsOf q) :
    ∃ kernel, g.kernels[q]? = some kernel ∧ g.itemsOf q = g.closure kernel := by
  unfold itemsOf at h
  cases hs : g.states[q]? with
  | none =>
    rw [hs] at h
    exact absurd h List.not_mem_nil
  | some s =>
    obtain ⟨kernel, hk, -⟩ := state_eq_some_iff.mp hs
    exact ⟨kernel, hk, itemsOf_eq_closure hk⟩

theorem kernels_initial (g : Cfg) :
    g.kernels[StateId.initial]? = some [⟨ProductionId.root, 0⟩] := by
  obtain ⟨new, hnew⟩ := exists_discoverFrom_eq g.movedKernels (Nat.pow 2 g.itemCount) 0
    [[⟨ProductionId.root, 0⟩], [⟨ProductionId.root, 1⟩]]
  rw [kernels, discover, hnew]
  rfl

theorem kernels_final (g : Cfg) :
    g.kernels[StateId.final]? = some [⟨ProductionId.root, 1⟩] := by
  obtain ⟨new, hnew⟩ := exists_discoverFrom_eq g.movedKernels (Nat.pow 2 g.itemCount) 0
    [[⟨ProductionId.root, 0⟩], [⟨ProductionId.root, 1⟩]]
  rw [kernels, discover, hnew]
  rfl

namespace Augmented

theorem nodup_kernel (h : g.Augmented root) {q : StateId} {kernel : List Item}
    (hk : g.kernels[q]? = some kernel) : kernel.Nodup :=
  nodup_of_pairwise_lt (h.isKernelOf_of_mem_kernels (List.mem_of_getElem? hk)).1

/-- No item occurs twice in a state. -/
theorem nodup_itemsOf (h : g.Augmented root) (q : StateId) : (g.itemsOf q).Nodup := by
  by_cases hitems : g.itemsOf q = []
  · rw [hitems]
    exact List.nodup_nil
  · obtain ⟨item, hi⟩ := List.exists_mem_of_ne_nil _ hitems
    obtain ⟨kernel, hk, hclosure⟩ := exists_kernel_of_mem_itemsOf hi
    rw [hclosure]
    exact nodup_closure (h.nodup_kernel hk)

/-- Every item of every state is an item of the grammar. -/
theorem items_of_state (h : g.Augmented root) {q : StateId} {item : Item}
    (hi : item ∈ g.itemsOf q) : item ∈ g.items := by
  obtain ⟨kernel, hk, hitems⟩ := exists_kernel_of_mem_itemsOf hi
  rw [hitems] at hi
  exact closure_subset_items (h.nodup_kernel hk)
    (h.isKernelOf_of_mem_kernels (List.mem_of_getElem? hk)).2 hi

/-- States are closed: with a nonterminal behind a dot, its productions start there. -/
theorem itemsOf_step (h : g.Augmented root) {q : StateId} {item : Item}
    (hi : item ∈ g.itemsOf q) {i : ProductionId} {p : Production}
    (hp : g.productions[i]? = some p) (hx : g.next item = some p.lhs) :
    Item.start i ∈ g.itemsOf q := by
  obtain ⟨kernel, hk, hitems⟩ := exists_kernel_of_mem_itemsOf hi
  rw [hitems] at hi ⊢
  exact closure_step (h.nodup_kernel hk) hi hx hp rfl

/-- **A state moves over a symbol iff the symbol stands behind one of its dots**, and it leads to
the state whose kernel has exactly these dots advanced. -/
theorem goto_iff (h : g.Augmented root) {q q' : StateId} {x : TermId} :
    g.goto? q x = some q' ↔ (∃ item ∈ g.itemsOf q, g.next item = some x) ∧
      g.kernels[q']? = some (g.moved (g.itemsOf q) x) := by
  unfold goto?
  cases hs : g.states[q]? with
  | none => simp [itemsOf, hs]
  | some s =>
    obtain ⟨kernel, hk, rfl⟩ := state_eq_some_iff.mp hs
    have hitems := itemsOf_eq_closure hk
    rw [Option.bind_some, hitems]
    show ((g.movable (g.closure kernel)).map
      fun x => (x, g.kernels.idxOf (g.moved (g.closure kernel) x))).lookup x = some q' ↔ _
    rw [lookup_map_pair]
    by_cases hx : x ∈ g.movable (g.closure kernel)
    · rw [if_pos hx, Option.some.injEq]
      have hmem : g.moved (g.closure kernel) x ∈ g.kernels :=
        h.mem_kernels_iff.mpr ((h.mem_kernels_iff.mp (List.mem_of_getElem? hk)).step
          (mem_movedKernels.mpr ⟨x, hx, rfl⟩))
      constructor
      · rintro rfl
        exact ⟨mem_movable.mp hx, List.getElem?_idxOf hmem⟩
      · intro hq'
        obtain ⟨hlt, hget⟩ := List.getElem?_eq_some_iff.mp hq'.2
        rw [← hget, (g.nodup_kernels).idxOf_getElem]
    · rw [if_neg hx]
      simp only [reduceCtorEq, false_iff, not_and]
      exact fun he => absurd (mem_movable.mpr he) hx

theorem exists_goto (h : g.Augmented root) {q : StateId} {item : Item} {x : TermId}
    (hi : item ∈ g.itemsOf q) (hx : g.next item = some x) : ∃ q', g.goto? q x = some q' := by
  obtain ⟨kernel, hk, hitems⟩ := exists_kernel_of_mem_itemsOf hi
  have hmem : g.moved (g.itemsOf q) x ∈ g.kernels := by
    rw [hitems] at hi ⊢
    exact h.mem_kernels_iff.mpr ((h.mem_kernels_iff.mp (List.mem_of_getElem? hk)).step
      (mem_movedKernels.mpr ⟨x, mem_movable.mpr ⟨item, hi, hx⟩, rfl⟩))
  exact ⟨_, h.goto_iff.mpr ⟨⟨item, hi, hx⟩, List.getElem?_idxOf hmem⟩⟩

theorem advance_mem_of_goto (h : g.Augmented root) {q q' : StateId} {x : TermId}
    (hq : g.goto? q x = some q') {item : Item} (hi : item ∈ g.itemsOf q)
    (hx : g.next item = some x) : item.advance ∈ g.itemsOf q' := by
  have hk := (h.goto_iff.mp hq).2
  rw [itemsOf_eq_closure hk]
  exact kernel_subset_closure (mem_moved.mpr ⟨item, hi, hx, rfl⟩)

/-- An item of a state moved to had its dot moved, or it starts a production whose left-hand side
stands behind a dot of that state. -/
theorem items_goto_cases (h : g.Augmented root) {q q' : StateId} {x : TermId}
    (hq : g.goto? q x = some q') {i : Item} (hi : i ∈ g.itemsOf q') :
    (∃ item ∈ g.itemsOf q, g.next item = some x ∧ i = item.advance) ∨ i.position = 0 := by
  have hk := (h.goto_iff.mp hq).2
  rw [itemsOf_eq_closure hk] at hi
  rcases closure_cases (h.nodup_kernel hk) hi with hi | ⟨_, _, _, _, _, hpos⟩
  · exact Or.inl (mem_moved.mp hi)
  · exact Or.inr hpos

/-- The augmented root stands behind no dot, so no item goes on with its production. -/
theorem ne_root_of_next (h : g.Augmented root) {item : Item} {i : ProductionId} {p : Production}
    (hp : g.productions[i]? = some p) (hx : g.next item = some p.lhs) : i ≠ ProductionId.root := by
  rintro rfl
  obtain rfl := Option.some.inj (hp.symm.trans h.root_production)
  obtain ⟨p', hp', hget⟩ := next_eq_some_iff.mp hx
  exact h.root_not_mem p' (List.mem_of_getElem? hp') (List.mem_of_getElem? hget)

/-- A state moved to does not start the augmented root. -/
theorem root_start_not_mem_goto (h : g.Augmented root) {q q' : StateId} {x : TermId}
    (hq : g.goto? q x = some q') : (⟨ProductionId.root, 0⟩ : Item) ∉ g.itemsOf q' := by
  intro hi
  have hk := (h.goto_iff.mp hq).2
  rw [itemsOf_eq_closure hk] at hi
  rcases closure_cases (h.nodup_kernel hk) hi with hi | ⟨item, _, p, hx, hp, _⟩
  · obtain ⟨item, _, _, he⟩ := mem_moved.mp hi
    exact absurd (congrArg Item.position he) (by simp [Item.advance])
  · exact h.ne_root_of_next hp hx rfl

end Augmented

end Cfg

end Lalr

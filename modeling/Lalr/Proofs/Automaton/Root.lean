import Lalr.Proofs.Automaton.Lookahead
import Lalr.Proofs.Automaton.Path

/-!
# The augmented root in the automaton

Every state but the two first ones is moved to from another (`state_cases`). The augmented root
starts in the initial state alone and is complete behind the root, or in the final state; wherever
it is complete it comes first among the items, and the end of input is its only lookahead
(**`lookahead_root_iff`**).
-/

namespace Lalr

namespace Cfg

variable {g : Cfg} {root : TermId} {q : StateId}

namespace Augmented

/-- A state is one of the two first ones or is moved to. -/
theorem state_cases (h : g.Augmented root) {kernel : List Item} (hk : g.kernels[q]? = some kernel) :
    q = StateId.initial ∨ q = StateId.final ∨ ∃ q₀ x, g.goto? q₀ x = some q := by
  obtain ⟨start, hstart, hpath⟩ := h.mem_kernels_iff.mp (List.mem_of_getElem? hk)
  cases hpath with
  | refl =>
    rcases List.mem_pair.mp hstart with rfl | rfl
    · exact Or.inl (eq_of_kernel hk g.kernels_initial)
    · exact Or.inr (Or.inl (eq_of_kernel hk g.kernels_final))
  | tail hpath hstep =>
    rename_i k₀
    have hk₀ : k₀ ∈ g.kernels := h.mem_kernels_iff.mpr ⟨start, hstart, hpath⟩
    obtain ⟨q₀, hq₀⟩ := List.mem_iff_getElem?.mp hk₀
    obtain ⟨x, hx, rfl⟩ := mem_movedKernels.mp hstep
    rw [← itemsOf_eq_closure hq₀] at hx hk
    exact Or.inr (Or.inr ⟨q₀, x, h.goto_iff.mpr ⟨mem_movable.mp hx, hk⟩⟩)

/-- The final state has nothing but the completed augmented root. -/
theorem eq_of_mem_final (h : g.Augmented root) {item : Item}
    (hi : item ∈ g.itemsOf StateId.final) : item = ⟨ProductionId.root, 1⟩ := by
  rw [itemsOf_eq_closure g.kernels_final, mem_closure_iff (List.nodup_singleton _)] at hi
  refine Reach.induction (P := fun item => item = ⟨ProductionId.root, 1⟩)
    (fun item hitem => List.mem_singleton.mp hitem) ?_ hi
  intro item item' _ heq hstep
  obtain ⟨x, p, hx, -⟩ := mem_expand.mp hstep
  rw [heq, next, h.root_production] at hx
  simp at hx

/-- The augmented root starts in the initial state alone. -/
theorem eq_initial_of_root_start (h : g.Augmented root)
    (hi : (⟨ProductionId.root, 0⟩ : Item) ∈ g.itemsOf q) : q = StateId.initial := by
  obtain ⟨kernel, hk, -⟩ := exists_kernel_of_mem_itemsOf hi
  rcases h.state_cases hk with rfl | rfl | ⟨q₀, x, hgoto⟩
  · rfl
  · exact absurd (h.eq_of_mem_final hi) (by decide)
  · exact absurd hi (h.root_start_not_mem_goto hgoto)

/-- The augmented root is complete in the final state or behind the root. -/
theorem root_complete_cases (h : g.Augmented root)
    (hi : (⟨ProductionId.root, 1⟩ : Item) ∈ g.itemsOf q) :
    q = StateId.final ∨ g.goto? StateId.initial root = some q := by
  obtain ⟨kernel, hk, -⟩ := exists_kernel_of_mem_itemsOf hi
  rcases h.state_cases hk with rfl | rfl | ⟨q₀, x, hgoto⟩
  · exact absurd (position_of_mem_initial hi) Nat.one_ne_zero
  · exact Or.inl rfl
  · rcases h.items_goto_cases hgoto hi with ⟨item, hitem, hx, heq⟩ | hpos
    · obtain rfl : item = ⟨ProductionId.root, 0⟩ := by
        cases item
        simpa [Item.advance, eq_comm] using heq
      obtain rfl := h.eq_initial_of_root_start hitem
      obtain rfl : root = x := by simpa [next, h.root_production] using hx
      exact Or.inr hgoto
    · exact absurd hpos Nat.one_ne_zero

/-- Only the end of input follows the augmented root. -/
theorem eq_eof_of_lookahead_root (h : g.Augmented root) {item : Item} {t : TermId}
    (hl : g.Lookahead q item t) (hroot : item.production = ProductionId.root) :
    t = TermId.eof := by
  induction hl with
  | initial => rfl
  | final => rfl
  | follow _ hp hx _ _ => exact absurd hroot (h.ne_root_of_next hp hx)
  | inherit _ _ hp hx _ _ => exact absurd hroot (h.ne_root_of_next hp hx)
  | move _ _ _ _ ih => exact ih hroot

/-- **Where the augmented root is complete, the end of input is its only lookahead.** -/
theorem lookahead_root_iff (h : g.Augmented root) {t : TermId} :
    g.Lookahead q ⟨ProductionId.root, 1⟩ t ↔
      t = TermId.eof ∧ (⟨ProductionId.root, 1⟩ : Item) ∈ g.itemsOf q := by
  constructor
  · exact fun hl => ⟨h.eq_eof_of_lookahead_root hl rfl, hl.mem_itemsOf h⟩
  · rintro ⟨rfl, hi⟩
    rcases h.root_complete_cases hi with rfl | hgoto
    · exact .final
    · have hinitial : g.Lookahead StateId.initial ⟨ProductionId.root, 0⟩ TermId.eof := .initial
      have hx : g.next ⟨ProductionId.root, 0⟩ = some root := by
        rw [next, h.root_production]
        rfl
      exact .move hinitial (hinitial.mem_itemsOf h) hx hgoto

/-- Where the augmented root is complete, it comes first. -/
theorem items_root_complete (h : g.Augmented root)
    (hi : (⟨ProductionId.root, 1⟩ : Item) ∈ g.itemsOf q) :
    ∃ rest, g.itemsOf q = ⟨ProductionId.root, 1⟩ :: rest := by
  obtain ⟨kernel, hk, hitems⟩ := exists_kernel_of_mem_itemsOf hi
  obtain ⟨rest, hrest⟩ := g.exists_closure_eq kernel
  have hkernel : (⟨ProductionId.root, 1⟩ : Item) ∈ kernel := by
    rw [hitems] at hi
    rcases closure_cases (h.nodup_kernel hk) hi with hi | ⟨_, _, _, _, _, hpos⟩
    · exact hi
    · exact absurd hpos Nat.one_ne_zero
  have hsorted := (h.isKernelOf_of_mem_kernels (List.mem_of_getElem? hk)).1
  cases kernel with
  | nil => exact absurd hkernel List.not_mem_nil
  | cons first kernel =>
    rcases List.mem_cons.mp hkernel with rfl | hlater
    · exact ⟨kernel ++ rest, by rw [hitems, hrest]; rfl⟩
    · -- Only the start item of the augmented root comes before it.
      have hlt := (List.pairwise_cons.mp hsorted).1 _ hlater
      have hfirst : first = ⟨ProductionId.root, 0⟩ := by
        cases first
        rw [Item.lt_def] at hlt
        simp only [Item.mk.injEq]
        simp only [ProductionId.root] at hlt ⊢
        omega
      have hstart : (⟨ProductionId.root, 0⟩ : Item) ∈ g.itemsOf q := by
        rw [hitems, ← hfirst]
        exact kernel_subset_closure List.mem_cons_self
      obtain rfl := h.eq_initial_of_root_start hstart
      exact absurd (position_of_mem_initial hi) Nat.one_ne_zero

/-- The items of the final state. -/
theorem itemsOf_final (h : g.Augmented root) :
    g.itemsOf StateId.final = [⟨ProductionId.root, 1⟩] := by
  have hmem : (⟨ProductionId.root, 1⟩ : Item) ∈ g.itemsOf StateId.final := by
    rw [itemsOf_eq_closure g.kernels_final]
    exact kernel_subset_closure (List.mem_singleton_self _)
  obtain ⟨rest, hrest⟩ := h.items_root_complete hmem
  have hnodup := h.nodup_itemsOf StateId.final
  rw [hrest] at hnodup ⊢
  cases rest with
  | nil => rfl
  | cons item rest =>
    have hitem : item ∈ g.itemsOf StateId.final := by simp [hrest]
    rw [h.eq_of_mem_final hitem] at hnodup
    simp at hnodup

end Augmented

end Cfg

end Lalr

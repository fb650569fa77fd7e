import Lalr.Proofs.Cfg.Nullable
import Lalr.Proofs.Cfg.Scan

/-!
# FIRST sets are exact

They are compared with derivations, for whole sentential forms and not only for single symbols: one
step of a derivation, read backwards, then keeps the property, and no induction over the length of a
derivation is needed.

* **`mem_leading_iff`**: a symbol leads a sequence iff only nullable ones precede it there.
* **`derives_cons_iff`**: a sentential form derives something that begins with the terminal `t` iff
  `t` is in its FIRST set. What follows `t` need not derive a word.
-/

namespace Lalr

/-! ## Leading symbols -/

theorem mem_leading_iff {nullable : TermSet} {x : TermId} :
    ∀ {u : List TermId}, x ∈ leading nullable u ↔
      ∃ left right, u = left ++ x :: right ∧ ∀ y ∈ left, y ∈ nullable
  | [] => by simp [leading]
  | z :: u => by
    rw [leading, List.mem_cons]
    constructor
    · rintro (rfl | h)
      · exact ⟨[], u, rfl, by simp⟩
      · split at h
        · rename_i hz
          obtain ⟨left, right, rfl, hleft⟩ := mem_leading_iff.mp h
          refine ⟨z :: left, right, rfl, ?_⟩
          intro y hy
          rcases List.mem_cons.mp hy with rfl | hy
          · exact hz
          · exact hleft y hy
        · exact absurd h List.not_mem_nil
    · rintro ⟨left, right, hu, hleft⟩
      cases left with
      | nil => exact Or.inl (List.cons.inj hu).1.symm
      | cons y left =>
        obtain ⟨rfl, rfl⟩ := List.cons.inj hu
        right
        rw [if_pos (hleft z List.mem_cons_self)]
        exact mem_leading_iff.mpr
          ⟨left, right, rfl, fun y hy => hleft y (List.mem_cons_of_mem z hy)⟩

theorem mem_leading_append {nullable : TermSet} {x : TermId} {u v : List TermId} :
    x ∈ leading nullable (u ++ v) ↔
      x ∈ leading nullable u ∨ ((∀ y ∈ u, y ∈ nullable) ∧ x ∈ leading nullable v) := by
  induction u with
  | nil => simp [leading]
  | cons z u ih =>
    rw [List.cons_append, leading, leading, List.mem_cons, List.mem_cons]
    by_cases hz : z ∈ nullable
    · rw [if_pos hz, if_pos hz, ih]
      simp only [List.mem_cons, forall_eq_or_imp, hz, true_and]
      exact or_assoc.symm
    · simp [hz]

/-! ## FIRST sets -/

namespace Facts

theorem mem_firstOfSequence {facts : Facts} {u : List TermId} {t : TermId} :
    t ∈ facts.firstOfSequence u ↔ ∃ x ∈ leading facts.nullable u, t ∈ facts.firstOf x := by
  simp only [firstOfSequence, TermSet.mem_unions, List.mem_map]
  constructor
  · rintro ⟨_, ⟨x, hx, rfl⟩, ht⟩
    exact ⟨x, hx, ht⟩
  · rintro ⟨x, hx, ht⟩
    exact ⟨_, ⟨x, hx, rfl⟩, ht⟩

theorem mem_firstOfSequence_append {facts : Facts} {u v : List TermId} {t : TermId} :
    t ∈ facts.firstOfSequence (u ++ v) ↔ t ∈ facts.firstOfSequence u ∨
      ((∀ y ∈ u, y ∈ facts.nullable) ∧ t ∈ facts.firstOfSequence v) := by
  simp only [mem_firstOfSequence, mem_leading_append]
  grind

end Facts

namespace Cfg

variable {g : Cfg} {root : TermId}

/-- The first symbol leads a right-hand side of the second. -/
def LeadsTo (g : Cfg) (x y : TermId) : Prop :=
  ∃ p ∈ g.productions, p.lhs = y ∧ x ∈ leading g.nullable p.rhs

namespace Augmented

theorem feeds_iff (h : g.Augmented root) {x y : TermId} :
    (g.firstGraph g.nullable).Feeds x y ↔ x ∉ g.terminals ∧ g.LeadsTo x y :=
  feeds_firstGraph h.not_mem_nullable

/-- A symbol that is led to is a nonterminal. -/
theorem mem_nonterminals_of_leadsTo (h : g.Augmented root) {x y : TermId} (hxy : g.LeadsTo x y) :
    y ∈ g.nonterminals := by
  obtain ⟨p, hp, rfl, -⟩ := hxy
  exact h.lhs_mem p hp

/-- The symbols on the way from a nonterminal are nonterminals, so the leads are the same. -/
theorem feeds_of_leadsTo (h : g.Augmented root) {x y : TermId} (hx : x ∈ g.nonterminals)
    (hpath : Relation.ReflTransGen g.LeadsTo x y) :
    y ∈ g.nonterminals ∧ Relation.ReflTransGen (g.firstGraph g.nullable).Feeds x y := by
  induction hpath with
  | refl => exact ⟨hx, Relation.ReflTransGen.refl⟩
  | tail _ hstep ih =>
    obtain ⟨hmem, hfeeds⟩ := ih
    have hnot := fun ht => h.not_both _ ht hmem
    exact ⟨h.mem_nonterminals_of_leadsTo hstep, hfeeds.tail (h.feeds_iff.mpr ⟨hnot, hstep⟩)⟩

/-- **The passes over FIRST sets come to an end**, and what they end with are the sets of the
facts. -/
theorem settles_firsts (h : g.Augmented root) :
    (g.firstGraph g.nullable).Settles (g.firstScan g.nullable).sets g.facts.firsts := by
  have hterminals : ∀ x t, t ∈ setAt (g.firstScan g.nullable).sets x → t ∈ g.terminals :=
    fun x t ht => ((mem_sets_firstScan h.not_mem_nullable).mp ht).2.1
  refine Leads.settles_settle _ hterminals ?_
  rw [size_firstScan]
  omega

/-- A terminal is in the FIRST set of a symbol iff the symbol can be reached from it, from a
leading symbol to the left-hand side at every step. -/
theorem mem_firstOf_iff (h : g.Augmented root) {x t : TermId} :
    t ∈ g.facts.firstOf x ↔ t ∈ g.terminals ∧ Relation.ReflTransGen g.LeadsTo t x := by
  have hrange : ∀ x y, (g.firstGraph g.nullable).Feeds x y →
      y < (g.firstScan g.nullable).sets.size := by
    intro x y hfeeds
    rw [size_firstScan]
    exact h.lt_termCount y (Or.inr (h.mem_nonterminals_of_leadsTo (h.feeds_iff.mp hfeeds).2))
  show t ∈ setAt g.facts.firsts x ↔ _
  rw [h.settles_firsts.mem_iff hrange]
  simp only [mem_sets_firstScan h.not_mem_nullable]
  constructor
  · rintro ⟨y, ⟨-, ht, hentered⟩, hpath⟩
    have hpath : Relation.ReflTransGen g.LeadsTo y x :=
      Relation.ReflTransGen.mono (fun _ _ hfeeds => (h.feeds_iff.mp hfeeds).2) _ _ hpath
    rcases hentered with rfl | hlead
    · exact ⟨ht, hpath⟩
    · exact ⟨ht, Relation.ReflTransGen.head hlead hpath⟩
  · rintro ⟨ht, hpath⟩
    -- The first step is the one that the scan has made.
    rcases Relation.ReflTransGen.cases_head hpath with rfl | ⟨y, hlead, hrest⟩
    · exact ⟨t, ⟨h.lt_termCount t (Or.inl ht), ht, Or.inl rfl⟩, Relation.ReflTransGen.refl⟩
    · have hy := h.mem_nonterminals_of_leadsTo hlead
      exact ⟨y, ⟨h.lt_termCount y (Or.inr hy), ht, Or.inr hlead⟩,
        (h.feeds_of_leadsTo hy hrest).2⟩

theorem firstOf_subset_lhs (h : g.Augmented root) {p : Production} (hp : p ∈ g.productions)
    {t : TermId} (ht : t ∈ g.facts.firstOfSequence p.rhs) : t ∈ g.facts.firstOf p.lhs := by
  obtain ⟨x, hx, ht⟩ := Facts.mem_firstOfSequence.mp ht
  obtain ⟨ht, hpath⟩ := h.mem_firstOf_iff.mp ht
  exact h.mem_firstOf_iff.mpr ⟨ht, hpath.tail ⟨p, hp, rfl, hx⟩⟩

theorem derives_of_mem_firstOf (h : g.Augmented root) {x t : TermId}
    (ht : t ∈ g.facts.firstOf x) : ∃ w, g.Derives [x] (t :: w) := by
  obtain ⟨-, hpath⟩ := h.mem_firstOf_iff.mp ht
  induction hpath with
  | refl => exact ⟨[], Derives.refl _⟩
  | tail hpath hedge ih =>
    obtain ⟨w, hw⟩ := ih (h.mem_firstOf_iff.mpr ⟨(h.mem_firstOf_iff.mp ht).1, hpath⟩)
    obtain ⟨p, hp, rfl, hlead⟩ := hedge
    obtain ⟨left, right, hrhs, hleft⟩ := mem_leading_iff.mp hlead
    refine ⟨w ++ right, Derives.of_rhs hp ?_⟩
    have hnil : g.Derives left [] := h.derives_nil_iff.mpr hleft
    have := hnil.append (hw.append_right right)
    simpa [hrhs] using this

/-- **A sentential form derives something that begins with a terminal iff the terminal is in its
FIRST set.** -/
theorem derives_cons_iff (h : g.Augmented root) {u : List TermId} {t : TermId}
    (ht : t ∈ g.terminals) : (∃ w, g.Derives u (t :: w)) ↔ t ∈ g.facts.firstOfSequence u := by
  constructor
  · rintro ⟨w, hw⟩
    induction hw using Relation.ReflTransGen.head_induction_on with
    | refl =>
      refine Facts.mem_firstOfSequence.mpr ⟨t, List.mem_cons_self, ?_⟩
      exact h.mem_firstOf_iff.mpr ⟨ht, Relation.ReflTransGen.refl⟩
    | head hstep _ ih =>
      obtain ⟨hp, left, right⟩ := hstep
      rename_i p _
      rw [List.append_assoc, Facts.mem_firstOfSequence_append,
        Facts.mem_firstOfSequence_append] at ih
      rw [Facts.mem_firstOfSequence_append]
      refine ih.imp_right fun ⟨hleft, ih⟩ => ⟨hleft, ?_⟩
      -- `t` begins the right-hand side, or what follows a nullable one.
      rcases ih with ih | ⟨hnull, ih⟩
      · exact Facts.mem_firstOfSequence.mpr
          ⟨p.lhs, List.mem_cons_self, h.firstOf_subset_lhs hp ih⟩
      · obtain ⟨x, hx, ht⟩ := Facts.mem_firstOfSequence.mp ih
        refine Facts.mem_firstOfSequence.mpr ⟨x, ?_, ht⟩
        have hlhs : p.lhs ∈ g.facts.nullable := h.lhs_mem_nullable hp hnull
        rw [leading, if_pos hlhs]
        exact List.mem_cons_of_mem _ hx
  · intro hu
    obtain ⟨x, hx, ht⟩ := Facts.mem_firstOfSequence.mp hu
    obtain ⟨left, right, rfl, hleft⟩ := mem_leading_iff.mp hx
    obtain ⟨w, hw⟩ := h.derives_of_mem_firstOf ht
    have hnil : g.Derives left [] := h.derives_nil_iff.mpr hleft
    exact ⟨w ++ right, by simpa using hnil.append (hw.append_right right)⟩

theorem terminal_of_mem_firstOfSequence (h : g.Augmented root) {u : List TermId} {t : TermId}
    (ht : t ∈ g.facts.firstOfSequence u) : t ∈ g.terminals := by
  obtain ⟨x, -, ht⟩ := Facts.mem_firstOfSequence.mp ht
  exact (h.mem_firstOf_iff.mp ht).1

/-- **A terminal is in the FIRST set of a symbol iff it begins something the symbol derives.** -/
theorem mem_firstOf_iff_derives (h : g.Augmented root) {x t : TermId} :
    t ∈ g.facts.firstOf x ↔ t ∈ g.terminals ∧ ∃ w, g.Derives [x] (t :: w) := by
  have hone : t ∈ g.facts.firstOfSequence [x] ↔ t ∈ g.facts.firstOf x := by
    simp [Facts.mem_firstOfSequence, leading]
  rw [← hone]
  constructor
  · intro ht
    have hterminal := h.terminal_of_mem_firstOfSequence ht
    exact ⟨hterminal, (h.derives_cons_iff hterminal).mpr ht⟩
  · rintro ⟨hterminal, hderives⟩
    exact (h.derives_cons_iff hterminal).mp hderives

end Augmented

end Cfg

end Lalr

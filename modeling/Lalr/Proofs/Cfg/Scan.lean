import Lalr.Proofs.Cfg.Passes

/-!
# What reading right-hand sides finds

The scan reads every right-hand side up to its first symbol that is not nullable, and no terminal
is. So it finds the leading symbols: a terminal among them is entered for the left-hand side
(**`Cfg.mem_sets_firstScan`**), and every nonterminal among them leads to it
(**`Cfg.feeds_firstGraph`**).
-/

namespace Lalr

/-- Listing a target feeds it, and nothing else. -/
theorem feeds_upsert {leads : Leads} {x lhs a b : TermId} :
    Leads.Feeds (upsert [] x (appendNew · [lhs]) leads) a b ↔
      leads.Feeds a b ∨ (a = x ∧ b = lhs) := by
  induction leads with
  | nil => simp [Leads.Feeds, upsert]
  | cons entry rest ih =>
    have hcons : ∀ (entry : TermId × List TermId) (rest : Leads),
        Leads.Feeds (entry :: rest) a b ↔ (a = entry.1 ∧ b ∈ entry.2) ∨ rest.Feeds a b := by
      intro entry rest
      simp only [Leads.Feeds, List.mem_cons, or_and_right, exists_or]
      refine or_congr_left ⟨?_, ?_⟩
      · rintro ⟨targets, rfl, hb⟩
        exact ⟨rfl, hb⟩
      · rintro ⟨rfl, hb⟩
        exact ⟨_, rfl, hb⟩
    rw [upsert]
    split
    · rename_i hx
      subst hx
      rw [hcons, hcons, mem_appendNew, List.mem_singleton, and_or_left, or_right_comm]
    · rw [hcons, hcons, ih, or_assoc]

namespace FirstScan

variable {g : Cfg} {nullable : TermSet} {lhs : TermId}

theorem size_read (s : FirstScan) (u : List TermId) :
    (s.read g nullable lhs u).sets.size = s.sets.size := by
  induction u generalizing s with
  | nil => rfl
  | cons x rest ih =>
    rw [read]
    split
    · exact Array.size_modify
    · split
      · exact ih _
      · rfl

/-- A right-hand side enters the terminal that leads it, if one does. -/
theorem mem_sets_read (hterminals : ∀ t ∈ g.terminals, t ∉ nullable) {y t : TermId}
    (s : FirstScan) (u : List TermId) : t ∈ setAt (s.read g nullable lhs u).sets y ↔
      t ∈ setAt s.sets y ∨
        (y = lhs ∧ lhs < s.sets.size ∧ t ∈ g.terminals ∧ t ∈ leading nullable u) := by
  induction u generalizing s with
  | nil => simp [read, leading]
  | cons x rest ih =>
    rw [read, leading]
    split
    · rename_i hx
      have hinsert : ∀ (set : TermSet) (t : TermId), t ∈ set.insert x ↔ t ∈ set ∨ t = x :=
        fun set t => TermSet.mem_insert.trans or_comm
      rw [enter, mem_setAt_modify hinsert, if_neg (hterminals x hx), List.mem_singleton]
      refine or_congr_right (and_congr_right fun _ => and_congr_right fun _ => ?_)
      exact ⟨fun ht => ⟨ht ▸ hx, ht⟩, And.right⟩
    · rename_i hx
      -- A nonterminal in front is not the terminal that leads.
      have hskip : ∀ {v : List TermId}, (t ∈ g.terminals ∧ t ∈ x :: v) ↔
          (t ∈ g.terminals ∧ t ∈ v) := by
        intro v
        refine and_congr_right fun ht => List.mem_cons.trans (or_iff_right ?_)
        rintro rfl
        exact hx ht
      rw [hskip]
      split
      · exact ih _
      · simp [lead]

/-- A right-hand side lists the nonterminals that lead it. -/
theorem feeds_read (hterminals : ∀ t ∈ g.terminals, t ∉ nullable) {a b : TermId}
    (s : FirstScan) (u : List TermId) : (s.read g nullable lhs u).leads.Feeds a b ↔
      s.leads.Feeds a b ∨ (b = lhs ∧ a ∉ g.terminals ∧ a ∈ leading nullable u) := by
  induction u generalizing s with
  | nil => simp [read, leading]
  | cons x rest ih =>
    rw [read, leading]
    split
    · rename_i hx
      rw [if_neg (hterminals x hx), List.mem_singleton]
      refine (or_iff_left ?_).symm
      rintro ⟨-, ha, rfl⟩
      exact ha hx
    · rename_i hx
      have hlead : (s.lead lhs x).leads.Feeds a b ↔ s.leads.Feeds a b ∨ (a = x ∧ b = lhs) :=
        feeds_upsert
      have hone : (a = x ∧ b = lhs) ↔ (b = lhs ∧ a ∉ g.terminals ∧ a = x) := by
        refine ⟨?_, fun h => ⟨h.2.2, h.1⟩⟩
        rintro ⟨rfl, rfl⟩
        exact ⟨rfl, hx, rfl⟩
      split
      · rw [ih, hlead, hone, List.mem_cons, and_or_left, and_or_left, or_assoc]
      · rw [hlead, hone, List.mem_singleton]

/-! ### All right-hand sides -/

/-- Reads the right-hand sides of productions. -/
def readAll (g : Cfg) (nullable : TermSet) (s : FirstScan) (ps : List Production) : FirstScan :=
  ps.foldl (fun s p => s.read g nullable p.lhs p.rhs) s

theorem size_readAll (s : FirstScan) (ps : List Production) :
    (s.readAll g nullable ps).sets.size = s.sets.size := by
  induction ps generalizing s with
  | nil => rfl
  | cons p ps ih => exact (ih _).trans (s.size_read p.rhs)

theorem mem_sets_readAll (hterminals : ∀ t ∈ g.terminals, t ∉ nullable) {y t : TermId}
    (s : FirstScan) (ps : List Production) : t ∈ setAt (s.readAll g nullable ps).sets y ↔
      t ∈ setAt s.sets y ∨
        (y < s.sets.size ∧ t ∈ g.terminals ∧ ∃ p ∈ ps, p.lhs = y ∧ t ∈ leading nullable p.rhs) := by
  induction ps generalizing s with
  | nil => simp [readAll]
  | cons p ps ih =>
    have hone : (y = p.lhs ∧ p.lhs < s.sets.size ∧ t ∈ g.terminals ∧ t ∈ leading nullable p.rhs) ↔
        (y < s.sets.size ∧ t ∈ g.terminals ∧ p.lhs = y ∧ t ∈ leading nullable p.rhs) := by
      constructor
      · rintro ⟨rfl, hlt, ht, hlead⟩
        exact ⟨hlt, ht, rfl, hlead⟩
      · rintro ⟨hlt, ht, rfl, hlead⟩
        exact ⟨rfl, hlt, ht, hlead⟩
    rw [readAll, List.foldl_cons, ← readAll, ih, size_read, mem_sets_read hterminals, hone]
    simp only [List.mem_cons, exists_eq_or_imp]
    rw [or_assoc, ← and_or_left, ← and_or_left]

theorem feeds_readAll (hterminals : ∀ t ∈ g.terminals, t ∉ nullable) {a b : TermId}
    (s : FirstScan) (ps : List Production) : (s.readAll g nullable ps).leads.Feeds a b ↔
      s.leads.Feeds a b ∨
        (a ∉ g.terminals ∧ ∃ p ∈ ps, p.lhs = b ∧ a ∈ leading nullable p.rhs) := by
  induction ps generalizing s with
  | nil => simp [readAll]
  | cons p ps ih =>
    have hone : (b = p.lhs ∧ a ∉ g.terminals ∧ a ∈ leading nullable p.rhs) ↔
        (a ∉ g.terminals ∧ p.lhs = b ∧ a ∈ leading nullable p.rhs) := by
      rw [eq_comm, and_left_comm]
    rw [readAll, List.foldl_cons, ← readAll, ih, feeds_read hterminals, hone]
    simp only [List.mem_cons, exists_eq_or_imp]
    rw [or_assoc, ← and_or_left]

end FirstScan

namespace Cfg

variable {g : Cfg} {nullable : TermSet} {a b t y : TermId}

@[simp] theorem size_firstSeeds (g : Cfg) : g.firstSeeds.size = g.termCount := by
  simp [firstSeeds]

theorem mem_firstSeeds : t ∈ setAt g.firstSeeds y ↔ y < g.termCount ∧ y ∈ g.terminals ∧ t = y := by
  simp only [setAt, firstSeeds, List.getElem?_toArray, List.getElem?_map]
  by_cases hy : y < g.termCount
  · simp only [List.getElem?_range hy, Option.map_some, Option.getD_some, hy, true_and]
    by_cases ht : y ∈ g.terminals <;> simp [ht]
  · simp [hy]

theorem size_firstScan (g : Cfg) (nullable : TermSet) :
    (g.firstScan nullable).sets.size = g.termCount :=
  (FirstScan.size_readAll ⟨g.firstSeeds, []⟩ g.productions).trans (size_firstSeeds g)

/-- **A terminal is entered for itself and for the left-hand sides that it leads.** -/
theorem mem_sets_firstScan (hterminals : ∀ t ∈ g.terminals, t ∉ nullable) :
    t ∈ setAt (g.firstScan nullable).sets y ↔ y < g.termCount ∧ t ∈ g.terminals ∧
      (t = y ∨ ∃ p ∈ g.productions, p.lhs = y ∧ t ∈ leading nullable p.rhs) := by
  have hread := FirstScan.mem_sets_readAll hterminals (y := y) (t := t) ⟨g.firstSeeds, []⟩
    g.productions
  rw [mem_firstSeeds, size_firstSeeds] at hread
  refine hread.trans ?_
  rw [and_or_left, and_or_left]
  refine or_congr_left (and_congr_right fun _ => ⟨?_, ?_⟩)
  · rintro ⟨hy, rfl⟩
    exact ⟨hy, rfl⟩
  · rintro ⟨ht, rfl⟩
    exact ⟨ht, rfl⟩

/-- **A nonterminal leads to the left-hand sides whose right-hand sides it leads.** -/
theorem feeds_firstGraph (hterminals : ∀ t ∈ g.terminals, t ∉ nullable) :
    (g.firstGraph nullable).Feeds a b ↔
      a ∉ g.terminals ∧ ∃ p ∈ g.productions, p.lhs = b ∧ a ∈ leading nullable p.rhs := by
  have hread := FirstScan.feeds_readAll hterminals (a := a) (b := b) ⟨g.firstSeeds, []⟩
    g.productions
  refine hread.trans (or_iff_right ?_)
  rintro ⟨targets, hmem, -⟩
  exact absurd hmem List.not_mem_nil

end Cfg

end Lalr

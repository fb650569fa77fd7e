import Lalr.Cfg.Facts
import Lalr.Proofs.Cfg.Derivation

/-!
# Passes over nonterminals decide what is nullable

A nonterminal waits from pass to pass until something can be told of it. What is told is right, and
nothing is lost: a nonterminal is found nullable, or waits, or has a terminal in every production
(`NullScan.Inv`). This is kept by each single turn, so it does not matter that what one turn finds
counts for those behind it, nor that a nonterminal is dropped once it is known not to be nullable.

* **`settles_settle`**: the passes come to an end because nothing is left or because one decides
  nothing, and not for want of fuel (`Settles`).
* **`Settles.stuck`**: nothing can be told of what is then still undecided. So it has no production
  of nullable symbols only.
* **`Augmented.derives_nil_iff`**: a sentential form derives the empty word iff all its symbols are
  found nullable. One step of a derivation, read backwards, keeps this; so no induction over the
  height of derivations is needed.
-/

namespace Lalr

variable {g : Cfg} {x : TermId}

/-! ## What can be told of one nonterminal -/

namespace Cfg

variable {known : TermSet}

theorem mem_silent_iff {p : Production} :
    p ∈ g.productions.filter (fun p => p.lhs == x && !g.hasTerminals p) ↔
      p ∈ g.productions ∧ p.lhs = x ∧ g.hasTerminals p = false := by
  simp [List.mem_filter]

theorem decideNullable_eq_true_iff :
    g.decideNullable known x = some true ↔
      ∃ p ∈ g.productions, p.lhs = x ∧ g.hasTerminals p = false ∧ ∀ y ∈ p.rhs, y ∈ known := by
  unfold decideNullable
  dsimp only
  split
  · rename_i hany
    obtain ⟨p, hp, hall⟩ := List.any_eq_true.mp hany
    obtain ⟨hp, hlhs, hsilent⟩ := mem_silent_iff.mp hp
    exact iff_of_true rfl ⟨p, hp, hlhs, hsilent, by simpa using hall⟩
  · rename_i hany
    refine iff_of_false (by split <;> simp) ?_
    rintro ⟨p, hp, hlhs, hsilent, hall⟩
    have hmem := mem_silent_iff.mpr ⟨hp, hlhs, hsilent⟩
    exact hany (List.any_eq_true.mpr ⟨p, hmem, by simpa using hall⟩)

theorem hasTerminals_of_decideNullable (h : g.decideNullable known x = some false)
    {p : Production} (hp : p ∈ g.productions) (hlhs : p.lhs = x) : g.hasTerminals p = true := by
  unfold decideNullable at h
  dsimp only at h
  split at h
  · cases h
  · split at h
    · rename_i hempty
      refine Bool.not_eq_false _ ▸ fun hsilent => ?_
      have hmem := mem_silent_iff.mpr ⟨hp, hlhs, hsilent⟩
      rw [List.isEmpty_iff.mp hempty] at hmem
      exact List.not_mem_nil hmem
    · cases h

theorem hasTerminals_iff {p : Production} :
    g.hasTerminals p = true ↔ ∃ t ∈ p.rhs, t ∈ g.terminals := by
  simp [hasTerminals, List.any_eq_true]

end Cfg

namespace NullScan

variable {s result : NullScan} {xs : List TermId}

/-! ## Turns -/

/-- What is found nullable is, and every nonterminal is found nullable, or waits among the
undecided, or has a terminal in every production. -/
structure Inv (g : Cfg) (s : NullScan) : Prop where
  nonterminal : ∀ x ∈ s.nullable, x ∈ g.nonterminals
  derives     : ∀ x ∈ s.nullable, g.Derives [x] []
  undecided   : ∀ x ∈ s.undecided, x ∈ g.nonterminals
  covers      : ∀ x ∈ g.nonterminals, x ∈ s.nullable ∨ x ∈ s.undecided ∨
    ∀ p ∈ g.productions, p.lhs = x → g.hasTerminals p = true

theorem inv_start (g : Cfg) : Inv g ⟨∅, g.nonterminals⟩ where
  nonterminal _ hx := absurd hx (TermSet.not_mem_empty _)
  derives _ hx := absurd hx (TermSet.not_mem_empty _)
  undecided _ hx := hx
  covers _ hx := Or.inr (Or.inl hx)

/-- A nonterminal need not wait any more once it is found nullable or has terminals everywhere. -/
theorem Inv.settle {nullable nullable' : TermSet} {before after : List TermId}
    (h : Inv g ⟨nullable, before ++ x :: after⟩) (hold : ∀ y ∈ nullable, y ∈ nullable')
    (hnew : ∀ y ∈ nullable', y ∈ nullable ∨ y = x ∧ g.Derives [x] [])
    (hx : x ∈ nullable' ∨ ∀ p ∈ g.productions, p.lhs = x → g.hasTerminals p = true) :
    Inv g ⟨nullable', before ++ after⟩ := by
  refine ⟨fun y hy => ?_, fun y hy => ?_, fun y hy => ?_, fun y hy => ?_⟩
  · rcases hnew y hy with hy | ⟨rfl, -⟩
    · exact h.nonterminal y hy
    · exact h.undecided y (by simp)
  · rcases hnew y hy with hy | ⟨rfl, hderives⟩
    · exact h.derives y hy
    · exact hderives
  · refine h.undecided y ?_
    simp only [List.mem_append, List.mem_cons] at hy ⊢
    exact hy.imp_right Or.inr
  · rcases h.covers y hy with hnull | hwaits | hterminals
    · exact Or.inl (hold y hnull)
    · simp only [List.mem_append, List.mem_cons] at hwaits ⊢
      rcases hwaits with hbefore | rfl | hafter
      · exact Or.inr (Or.inl (Or.inl hbefore))
      · exact hx.imp_right Or.inr
      · exact Or.inr (Or.inl (Or.inr hafter))
    · exact Or.inr (Or.inr hterminals)

/-- **One turn keeps the invariant.** The nonterminals still to come count as undecided. -/
theorem Inv.turn (h : Inv g ⟨s.nullable, s.undecided ++ x :: xs⟩) :
    Inv g ⟨(s.turn g x).nullable, (s.turn g x).undecided ++ xs⟩ := by
  unfold NullScan.turn
  cases hdecide : g.decideNullable s.nullable x with
  | none => simpa using h
  | some nullable =>
    cases nullable with
    | false =>
      refine h.settle (fun _ hy => hy) (fun _ hy => Or.inl hy) (Or.inr fun p hp => ?_)
      exact Cfg.hasTerminals_of_decideNullable hdecide hp
    | true =>
      obtain ⟨p, hp, rfl, -, hall⟩ := Cfg.decideNullable_eq_true_iff.mp hdecide
      have hderives : g.Derives [p.lhs] [] :=
        .of_rhs hp (.nil_of_forall fun y hy => h.derives y (hall y hy))
      refine h.settle (fun y hy => TermSet.mem_insert.mpr (Or.inr hy)) (fun y hy => ?_)
        (Or.inl (TermSet.mem_insert.mpr (Or.inl rfl)))
      rcases TermSet.mem_insert.mp hy with rfl | hy
      · exact Or.inr ⟨rfl, hderives⟩
      · exact Or.inl hy

theorem Inv.foldl_turn (h : Inv g ⟨s.nullable, s.undecided ++ xs⟩) :
    Inv g (xs.foldl (NullScan.turn g) s) := by
  induction xs generalizing s with
  | nil => simpa using h
  | cons x xs ih => exact ih h.turn

/-- A turn leaves a nonterminal undecided, and all else as it is, or makes no other one wait. -/
theorem turn_cases (g : Cfg) (s : NullScan) (x : TermId) :
    (g.decideNullable s.nullable x = none ∧ s.turn g x = ⟨s.nullable, s.undecided ++ [x]⟩) ∨
      (s.turn g x).undecided = s.undecided := by
  unfold NullScan.turn
  cases g.decideNullable s.nullable x with
  | none => exact Or.inl ⟨rfl, rfl⟩
  | some nullable => cases nullable <;> exact Or.inr rfl

theorem length_foldl_turn_le (g : Cfg) (xs : List TermId) (s : NullScan) :
    (xs.foldl (NullScan.turn g) s).undecided.length ≤ s.undecided.length + xs.length := by
  induction xs generalizing s with
  | nil => exact Nat.le_refl _
  | cons x xs ih =>
    have hrest := ih (s.turn g x)
    rw [List.foldl_cons, List.length_cons]
    rcases turn_cases g s x with ⟨-, hturn⟩ | hturn
    · rw [hturn] at hrest ⊢
      simp only [List.length_append, List.length_singleton] at hrest
      omega
    · rw [hturn] at hrest
      omega

/-- If all turns leave their nonterminals undecided, none has changed what is known. -/
theorem foldl_turn_of_length_eq
    (h : (xs.foldl (NullScan.turn g) s).undecided.length = s.undecided.length + xs.length) :
    xs.foldl (NullScan.turn g) s = ⟨s.nullable, s.undecided ++ xs⟩ ∧
      ∀ x ∈ xs, g.decideNullable s.nullable x = none := by
  induction xs generalizing s with
  | nil => simp
  | cons x xs ih =>
    rw [List.foldl_cons, List.length_cons] at h
    have hle := length_foldl_turn_le g xs (s.turn g x)
    rcases turn_cases g s x with ⟨hnone, hturn⟩ | hturn
    · rw [hturn] at h
      obtain ⟨hfold, hrest⟩ := ih (by rw [h, List.length_append, List.length_singleton]; omega)
      refine ⟨by rw [List.foldl_cons, hturn, hfold]; simp, ?_⟩
      intro y hy
      rcases List.mem_cons.mp hy with rfl | hy
      · exact hnone
      · exact hrest y hy
    · rw [hturn] at hle
      omega

/-! ## Passes -/

theorem Inv.pass (h : Inv g s) : Inv g (s.pass g) := by
  unfold NullScan.pass
  exact Inv.foldl_turn (by simpa using h)

theorem length_pass_le (g : Cfg) (s : NullScan) :
    (s.pass g).undecided.length ≤ s.undecided.length := by
  unfold NullScan.pass
  simpa using length_foldl_turn_le g s.undecided ⟨s.nullable, []⟩

/-- Nothing can be told of what the last pass leaves undecided. -/
theorem stuck_of_isLast (h : s.isLast (s.pass g) = true) :
    ∀ x ∈ (s.pass g).undecided, g.decideNullable (s.pass g).nullable x = none := by
  simp only [isLast, Bool.or_eq_true, List.isEmpty_iff, beq_iff_eq] at h
  rcases h with hempty | hlength
  · rw [hempty]
    exact fun x hx => absurd hx List.not_mem_nil
  · have hfold : (s.undecided.foldl (NullScan.turn g) ⟨s.nullable, []⟩).undecided.length =
        ([] : List TermId).length + s.undecided.length := hlength.trans (Nat.zero_add _).symm
    obtain ⟨hpass, hnone⟩ := foldl_turn_of_length_eq hfold
    intro x hx
    rw [NullScan.pass, hpass] at hx ⊢
    exact hnone x hx

/-- The passes, repeated up to the last one, end with the result. -/
inductive Settles (g : Cfg) : NullScan → NullScan → Prop
  | last {s : NullScan} (h : s.isLast (s.pass g) = true) : Settles g s (s.pass g)
  | pass {s result : NullScan} (h : s.isLast (s.pass g) = false)
      (hrest : Settles g (s.pass g) result) : Settles g s result

/-- **The passes come to an end.** Each but the last leaves fewer nonterminals undecided. -/
theorem settles_settle (g : Cfg) (fuel : Nat) (s : NullScan) (hfuel : s.undecided.length < fuel) :
    Settles g s (settle g fuel s) := by
  induction fuel generalizing s with
  | zero => omega
  | succ fuel ih =>
    rw [settle]
    split
    · rename_i hlast
      exact .last hlast
    · rename_i hlast
      rw [Bool.not_eq_true] at hlast
      refine .pass hlast (ih _ ?_)
      have hle := length_pass_le g s
      have hne : (s.pass g).undecided.length ≠ s.undecided.length := by
        intro heq
        simp [isLast, heq] at hlast
      omega

namespace Settles

theorem inv (h : Settles g s result) (hs : Inv g s) : Inv g result := by
  induction h with
  | last _ => exact hs.pass
  | pass _ _ ih => exact ih hs.pass

/-- **Nothing can be told of what is undecided in the end.** -/
theorem stuck (h : Settles g s result) :
    ∀ x ∈ result.undecided, g.decideNullable result.nullable x = none := by
  induction h with
  | last h => exact stuck_of_isLast h
  | pass _ _ ih => exact ih

end Settles

end NullScan

/-! ## The whole scan -/

namespace Cfg

theorem settles_nullScan (g : Cfg) :
    NullScan.Settles g ⟨∅, g.nonterminals⟩ g.nullScan :=
  NullScan.settles_settle g _ _ (Nat.lt_succ_self _)

theorem inv_nullScan (g : Cfg) : NullScan.Inv g g.nullScan :=
  g.settles_nullScan.inv (NullScan.inv_start g)

theorem derives_nil_of_mem_nullable (h : x ∈ g.nullable) : g.Derives [x] [] :=
  g.inv_nullScan.derives x h

namespace Augmented

variable {root : TermId}

/-- Only nonterminals are nullable. -/
theorem not_mem_nullable (h : g.Augmented root) : ∀ t ∈ g.terminals, t ∉ g.nullable :=
  fun t ht hnull => h.not_both t ht (g.inv_nullScan.nonterminal t hnull)

/-- A left-hand side of nullable symbols only is nullable: it is not dropped, since there is no
terminal, and it is not undecided, since it could be decided. -/
theorem lhs_mem_nullable (h : g.Augmented root) {p : Production} (hp : p ∈ g.productions)
    (hall : ∀ y ∈ p.rhs, y ∈ g.nullable) : p.lhs ∈ g.nullable := by
  have hsilent : g.hasTerminals p = false := by
    rw [← Bool.not_eq_true, hasTerminals_iff]
    rintro ⟨t, ht, hterminal⟩
    exact h.not_mem_nullable t hterminal (hall t ht)
  rcases g.inv_nullScan.covers p.lhs (h.lhs_mem p hp) with hnull | hundecided | hterminals
  · exact hnull
  · have hnone := g.settles_nullScan.stuck p.lhs hundecided
    have htrue := decideNullable_eq_true_iff.mpr ⟨p, hp, rfl, hsilent, hall⟩
    exact absurd (hnone.symm.trans htrue) (by simp)
  · rw [hterminals p hp rfl] at hsilent
    cases hsilent

/-- **A sentential form derives the empty word iff its symbols are nullable.** -/
theorem derives_nil_iff (h : g.Augmented root) {u : List TermId} :
    g.Derives u [] ↔ ∀ x ∈ u, x ∈ g.nullable := by
  constructor
  · intro hu
    induction hu using Relation.ReflTransGen.head_induction_on with
    | refl => simp
    | head hstep _ ih =>
      obtain ⟨hp, left, right⟩ := hstep
      rename_i p _
      have hlhs : p.lhs ∈ g.nullable := h.lhs_mem_nullable hp fun y hy => ih y (by simp [hy])
      intro x hx
      rcases List.mem_append.mp hx with hx | hx
      · exact ih x (by simp [hx])
      · rcases List.mem_cons.mp hx with rfl | hx
        · exact hlhs
        · exact ih x (by simp [hx])
  · exact fun hu => Derives.nil_of_forall fun x hx => derives_nil_of_mem_nullable (hu x hx)

theorem allNullable_facts (h : g.Augmented root) {u : List TermId} :
    g.facts.allNullable u = true ↔ g.Derives u [] := by
  rw [h.derives_nil_iff, Facts.allNullable, List.all_eq_true]
  exact forall₂_congr fun x _ => decide_eq_true_iff

end Augmented

end Cfg

end Lalr

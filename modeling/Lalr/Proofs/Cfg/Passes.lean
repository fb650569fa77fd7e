import Lalr.Cfg.Facts
import Lalr.Proofs.Propagation

/-!
# Passing sets on comes to an end

A pass lets every symbol pass on its set in turn, and what one symbol has passed on the next may
pass on in the same pass. What a pass does is said by two facts about each single step: it takes
nothing away and makes the sets larger in all if it changes anything (`Grows`), and it keeps
whatever the leads keep (`pass_keeps`).

* **`settles_settle`**: with more fuel than there are pairs of a symbol and a term, the passes end
  because one changes nothing, and not for want of fuel (`Settles`).
* **`Settles.mem_iff`**: a symbol ends with exactly the terms of the initial sets of the symbols it
  can be reached from along the leads.
-/

namespace Lalr

/-- The set of a symbol, empty for a number that is none. -/
def setAt (sets : Array TermSet) (x : TermId) : TermSet := sets[x]?.getD ∅

variable {sets : Array TermSet} {x y t : TermId}

/-- Changing one set to hold more. -/
theorem mem_setAt_modify {f : TermSet → TermSet} {P : TermId → Prop}
    (hf : ∀ s t, t ∈ f s ↔ t ∈ s ∨ P t) :
    t ∈ setAt (sets.modify x f) y ↔ t ∈ setAt sets y ∨ (y = x ∧ x < sets.size ∧ P t) := by
  unfold setAt
  rw [Array.getElem?_modify]
  by_cases hxy : x = y
  · subst hxy
    rw [if_pos rfl]
    by_cases hx : x < sets.size
    · rw [Array.getElem?_eq_getElem hx]
      simp [hf, hx]
    · rw [Array.getElem?_eq_none (Nat.not_lt.mp hx)]
      simp [hx]
  · have hyx : y ≠ x := fun h => hxy h.symm
    rw [if_neg hxy]
    simp [hyx]

theorem set_eq_self {set : TermSet} (hx : sets[x]? = some set) :
    sets.setIfInBounds x set = sets := by
  refine Array.ext_getElem? fun i => ?_
  rw [Array.getElem?_setIfInBounds]
  split
  · rename_i hi
    rw [← hi, hx, if_pos (Array.getElem?_eq_some_iff.mp hx).1]
  · rfl

theorem modify_eq_set {f : TermSet → TermSet} {set : TermSet} (hx : sets[x]? = some set) :
    sets.modify x f = sets.setIfInBounds x (f set) := by
  refine Array.ext_getElem? fun i => ?_
  rw [Array.getElem?_modify, Array.getElem?_setIfInBounds]
  split
  · rename_i hi
    rw [← hi, hx, if_pos (Array.getElem?_eq_some_iff.mp hx).1]
    rfl
  · rfl

/-! ## Sets that grow -/

/-- The number of terms in all sets together. -/
def weight (sets : Array TermSet) : Nat := total (sets.toList.map TermSet.size)

/-- The new sets hold what the old ones do, and more in all if they are not the same. -/
structure Grows (old new : Array TermSet) : Prop where
  size    : new.size = old.size
  subset  : ∀ x t, t ∈ setAt old x → t ∈ setAt new x
  heavier : new = old ∨ weight old < weight new

namespace Grows

variable {α : Type} {old mid new : Array TermSet} {step : Array TermSet → α → Array TermSet}

theorem refl (sets : Array TermSet) : Grows sets sets :=
  ⟨rfl, fun _ _ h => h, Or.inl rfl⟩

theorem trans (h : Grows old mid) (h' : Grows mid new) : Grows old new := by
  refine ⟨h'.size.trans h.size, fun x t ht => h'.subset x t (h.subset x t ht), ?_⟩
  rcases h.heavier with rfl | hlt
  · exact h'.heavier
  · rcases h'.heavier with rfl | hlt'
    · exact Or.inr hlt
    · exact Or.inr (Nat.lt_trans hlt hlt')

theorem antisymm (h : Grows old new) (h' : Grows new old) : new = old := by
  rcases h.heavier with heq | hlt
  · exact heq
  · rcases h'.heavier with heq | hlt'
    · exact heq.symm
    · exact absurd hlt (Nat.lt_asymm hlt')

/-- A union at one place. -/
theorem modify (sets : Array TermSet) (x : TermId) (terms : TermSet) :
    Grows sets (sets.modify x (· ∪ terms)) := by
  have hunion : ∀ (s : TermSet) (t : TermId), t ∈ s ∪ terms ↔ t ∈ s ∨ t ∈ terms :=
    fun _ _ => TermSet.mem_union
  refine ⟨Array.size_modify, fun y t ht => (mem_setAt_modify hunion).mpr (Or.inl ht), ?_⟩
  cases hx : sets[x]? with
  | none =>
    refine Or.inl (Array.ext_getElem? fun i => ?_)
    rw [Array.getElem?_modify]
    split
    · rename_i hi
      rw [← hi, hx]
      rfl
    · rfl
  | some set =>
    rw [modify_eq_set hx]
    by_cases hsame : set ∪ terms = set
    · rw [hsame]
      exact Or.inl (set_eq_self hx)
    · have hlt : set.size < (set ∪ terms).size :=
        TermSet.size_lt_of_subset_of_ne (fun t ht => TermSet.mem_union.mpr (Or.inl ht)) hsame
      have htotal := total_map_set TermSet.size (set ∪ terms) sets.toList x set
        (by rw [Array.getElem?_toList, hx])
      right
      rw [weight, weight, Array.toList_setIfInBounds]
      omega

/-- Steps that grow, one after the other. -/
theorem foldl (hstep : ∀ sets a, Grows sets (step sets a)) (xs : List α) (sets : Array TermSet) :
    Grows sets (xs.foldl step sets) := by
  induction xs generalizing sets with
  | nil => exact refl sets
  | cons a xs ih => exact (hstep sets a).trans (ih _)

/-- If all steps together change nothing, no step does. -/
theorem eq_of_foldl_eq (hstep : ∀ sets a, Grows sets (step sets a)) {xs : List α}
    {sets : Array TermSet} (h : xs.foldl step sets = sets) : ∀ a ∈ xs, step sets a = sets := by
  induction xs with
  | nil => exact fun a ha => absurd ha List.not_mem_nil
  | cons a xs ih =>
    have hback : Grows (step sets a) sets := by
      have hrest := foldl hstep xs (step sets a)
      rwa [← List.foldl_cons, h] at hrest
    have hsame : step sets a = sets := (hstep sets a).antisymm hback
    rw [List.foldl_cons, hsame] at h
    intro b hb
    rcases List.mem_cons.mp hb with rfl | hb
    · exact hsame
    · exact ih h b hb

end Grows

/-! ## One pass -/

namespace Leads

variable {leads : Leads} {lead : TermId × List TermId}

/-- The first symbol passes its set on to the second. -/
def Feeds (leads : Leads) (x y : TermId) : Prop := ∃ targets, (x, targets) ∈ leads ∧ y ∈ targets

theorem grows_passOn (sets : Array TermSet) (lead : TermId × List TermId) :
    Grows sets (passOn sets lead) :=
  Grows.foldl (fun sets target => Grows.modify sets target _) lead.2 sets

theorem grows_pass (leads : Leads) (sets : Array TermSet) : Grows sets (leads.pass sets) :=
  Grows.foldl grows_passOn leads sets

/-- What the sets satisfy and the leads keep, the sets after a pass satisfy. -/
theorem pass_keeps {P : TermId → TermId → Prop} (hfeeds : ∀ x y t, leads.Feeds x y → P x t → P y t)
    (h : ∀ x t, t ∈ setAt sets x → P x t) : ∀ x t, t ∈ setAt (leads.pass sets) x → P x t := by
  refine List.foldlRecOn (motive := fun sets => ∀ x t, t ∈ setAt sets x → P x t) leads _ h ?_
  rintro sets hsets ⟨source, targets⟩ hlead
  refine List.foldlRecOn (motive := fun sets => ∀ x t, t ∈ setAt sets x → P x t) targets _ hsets ?_
  intro sets' hsets' target htarget x t ht
  rcases (mem_setAt_modify fun _ _ => TermSet.mem_union).mp ht with ht | ⟨rfl, -, ht⟩
  · exact hsets' x t ht
  · exact hfeeds source x t ⟨targets, hlead, htarget⟩ (hsets source t ht)

/-- If a pass changes nothing, every symbol has passed on what it has. -/
theorem closed_of_pass_eq (h : leads.pass sets = sets) (hfeeds : leads.Feeds x y)
    (hy : y < sets.size) (ht : t ∈ setAt sets x) : t ∈ setAt sets y := by
  obtain ⟨targets, hlead, htarget⟩ := hfeeds
  have hone : passOn sets (x, targets) = sets := Grows.eq_of_foldl_eq grows_passOn h _ hlead
  have hsame := Grows.eq_of_foldl_eq (fun sets target => Grows.modify sets target _) hone y htarget
  rw [← hsame]
  exact (mem_setAt_modify fun _ _ => TermSet.mem_union).mpr (Or.inr ⟨rfl, hy, ht⟩)

/-! ## All passes -/

/-- The passes, repeated for as long as one changes anything, end with the result. -/
inductive Settles (leads : Leads) : Array TermSet → Array TermSet → Prop
  | done {sets : Array TermSet} (h : leads.pass sets = sets) : Settles leads sets sets
  | pass {sets result : Array TermSet} (h : leads.pass sets ≠ sets)
      (hrest : Settles leads (leads.pass sets) result) : Settles leads sets result

theorem weight_le {terms : List TermId} (h : ∀ x t, t ∈ setAt sets x → t ∈ terms) :
    weight sets ≤ sets.size * terms.length := by
  rw [← Array.length_toList]
  refine total_map_le sets.toList fun set hset => ?_
  obtain ⟨x, hx⟩ := List.mem_iff_getElem?.mp hset
  refine (set.nodup_toList.subperm fun t ht => h x t ?_).length_le
  rw [setAt, ← Array.getElem?_toList, hx]
  exact ht

/-- **The passes come to an end.** Each that changes anything adds to the sets. -/
theorem settles_settle {terms : List TermId} (fuel : Nat)
    (h : ∀ x t, t ∈ setAt sets x → t ∈ terms)
    (hfuel : sets.size * terms.length < fuel + weight sets) :
    leads.Settles sets (leads.settle fuel sets) := by
  induction fuel generalizing sets with
  | zero =>
    have hle := weight_le h
    omega
  | succ fuel ih =>
    rw [settle]
    split
    · rename_i hsame
      exact .done hsame
    · rename_i hne
      have hgrows := grows_pass leads sets
      have hlt := hgrows.heavier.resolve_left hne
      have hkeeps : ∀ x t, t ∈ setAt (leads.pass sets) x → t ∈ terms :=
        pass_keeps (P := fun _ t => t ∈ terms) (fun _ _ _ _ ht => ht) h
      refine .pass hne (ih hkeeps ?_)
      rw [hgrows.size]
      omega

namespace Settles

variable {result : Array TermSet}

theorem size (h : leads.Settles sets result) : result.size = sets.size := by
  induction h with
  | done _ => rfl
  | pass _ _ ih => exact ih.trans (grows_pass leads _).size

theorem subset (h : leads.Settles sets result) : ∀ x t, t ∈ setAt sets x → t ∈ setAt result x := by
  induction h with
  | done _ => exact fun _ _ ht => ht
  | pass _ _ ih => exact fun x t ht => ih x t ((grows_pass leads _).subset x t ht)

theorem keeps {P : TermId → TermId → Prop} (hfeeds : ∀ x y t, leads.Feeds x y → P x t → P y t)
    (h : leads.Settles sets result) (hsets : ∀ x t, t ∈ setAt sets x → P x t) :
    ∀ x t, t ∈ setAt result x → P x t := by
  induction h with
  | done _ => exact hsets
  | pass _ _ ih => exact ih (pass_keeps hfeeds hsets)

theorem pass_eq (h : leads.Settles sets result) : leads.pass result = result := by
  induction h with
  | done h => exact h
  | pass _ _ ih => exact ih

/-- **A symbol ends with exactly the terms of the initial sets it can be reached from.** -/
theorem mem_iff (h : leads.Settles sets result)
    (hrange : ∀ x y, leads.Feeds x y → y < sets.size) :
    t ∈ setAt result x ↔
      ∃ y, t ∈ setAt sets y ∧ Relation.ReflTransGen leads.Feeds y x := by
  constructor
  · refine h.keeps (P := fun x t => ∃ y, t ∈ setAt sets y ∧
      Relation.ReflTransGen leads.Feeds y x) ?_ ?_ x t
    · rintro x z t hfeeds ⟨y, ht, hpath⟩
      exact ⟨y, ht, hpath.tail hfeeds⟩
    · exact fun y t ht => ⟨y, ht, Relation.ReflTransGen.refl⟩
  · rintro ⟨y, ht, hpath⟩
    induction hpath with
    | refl => exact h.subset y t ht
    | tail _ hfeeds ih =>
      exact closed_of_pass_eq h.pass_eq hfeeds (h.size.symm ▸ hrange _ _ hfeeds) ih

end Settles

end Leads

end Lalr

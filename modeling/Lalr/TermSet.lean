import Lalr.Ids
import Lalr.Sorted

/-!
# Sets of terms

A set of terms (`TerminalSet`) is a strictly increasing list of ids, so two sets are equal exactly
when they have the same members (`TermSet.ext`), and listing one gives its members in ascending
order. How a set is stored, as bits that may be longer than needed, is out of scope.
-/

namespace Lalr

/-- A finite set of terms. -/
structure TermSet where
  toList : List TermId
  sorted : toList.Pairwise (· < ·)
  deriving DecidableEq

namespace TermSet

theorem nat_trichotomous : Trichotomous Nat := fun _ _ h₁ h₂ =>
  Nat.le_antisymm (Nat.not_lt.mp h₂) (Nat.not_lt.mp h₁)

instance : EmptyCollection TermSet := ⟨⟨[], List.Pairwise.nil⟩⟩

instance : Inhabited TermSet := ⟨∅⟩

instance : Membership TermId TermSet := ⟨fun s t => t ∈ s.toList⟩

instance (t : TermId) (s : TermSet) : Decidable (t ∈ s) :=
  inferInstanceAs (Decidable (t ∈ s.toList))

/-- The set with `t` as well. -/
def insert (s : TermSet) (t : TermId) : TermSet :=
  ⟨insertSorted t s.toList,
    pairwise_insertSorted nat_trichotomous (fun _ _ _ => Nat.lt_trans) s.sorted⟩

/-- The members of either set. -/
def union (s t : TermSet) : TermSet := t.toList.foldl insert s

instance : Union TermSet := ⟨union⟩

/-- The set of the listed terms. -/
def ofList (ts : List TermId) : TermSet :=
  ⟨sortDistinct ts, pairwise_sortDistinct nat_trichotomous (fun _ _ _ => Nat.lt_trans) ts⟩

/-- The set with one member. -/
def singleton (t : TermId) : TermSet := ⟨[t], List.pairwise_singleton _ _⟩

/-- The members of any of the sets. -/
def unions (sets : List TermSet) : TermSet := sets.foldl (· ∪ ·) ∅

/-- The number of members. -/
def size (s : TermSet) : Nat := s.toList.length

/-- The set has no member. -/
def isEmpty (s : TermSet) : Bool := s.toList.isEmpty

/-! ## Laws -/

theorem mem_toList {t : TermId} {s : TermSet} : t ∈ s.toList ↔ t ∈ s := Iff.rfl

@[ext] theorem ext {s t : TermSet} (h : ∀ x, x ∈ s ↔ x ∈ t) : s = t := by
  obtain ⟨xs, hx⟩ := s
  obtain ⟨ys, hy⟩ := t
  have : xs = ys := eq_of_pairwise_of_mem_iff Nat.lt_irrefl (fun _ _ _ => Nat.lt_trans) hx hy h
  subst this
  rfl

@[simp] theorem not_mem_empty (x : TermId) : ¬ x ∈ (∅ : TermSet) := List.not_mem_nil

@[simp] theorem mem_insert {x t : TermId} {s : TermSet} : x ∈ s.insert t ↔ x = t ∨ x ∈ s :=
  mem_insertSorted nat_trichotomous

@[simp] theorem mem_singleton {x t : TermId} : x ∈ singleton t ↔ x = t := List.mem_singleton

@[simp] theorem mem_ofList {x : TermId} {ts : List TermId} : x ∈ ofList ts ↔ x ∈ ts :=
  mem_sortDistinct nat_trichotomous

theorem mem_foldl_insert {x : TermId} {ts : List TermId} {s : TermSet} :
    x ∈ ts.foldl insert s ↔ x ∈ s ∨ x ∈ ts := by
  induction ts generalizing s with
  | nil => simp
  | cons t ts ih =>
    rw [List.foldl_cons, ih, mem_insert, List.mem_cons]
    grind

@[simp] theorem mem_union {x : TermId} {s t : TermSet} : x ∈ s ∪ t ↔ x ∈ s ∨ x ∈ t :=
  mem_foldl_insert

theorem mem_foldl_union {x : TermId} {sets : List TermSet} {s : TermSet} :
    x ∈ sets.foldl (· ∪ ·) s ↔ x ∈ s ∨ ∃ t ∈ sets, x ∈ t := by
  induction sets generalizing s with
  | nil => simp
  | cons t sets ih =>
    rw [List.foldl_cons, ih, mem_union]
    simp only [List.mem_cons, exists_eq_or_imp, or_assoc]

@[simp] theorem mem_unions {x : TermId} {sets : List TermSet} :
    x ∈ unions sets ↔ ∃ t ∈ sets, x ∈ t := by
  simp [unions, mem_foldl_union]

end TermSet

end Lalr

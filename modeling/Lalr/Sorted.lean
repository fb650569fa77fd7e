/-!
# Strictly increasing lists

The sets of this library (terms, item kernels) are strictly increasing lists, so that two of them
are equal exactly when they have the same members. `insertSorted` keeps a list strictly
increasing, and `sortDistinct` makes one out of any list, as `goto` does of the items of a kernel.
-/

namespace Lalr

variable {α : Type} [LT α] [DecidableLT α]

/-- Puts `x` in its place, unless it is there already. -/
def insertSorted (x : α) : List α → List α
  | [] => [x]
  | y :: ys =>
    if x < y then x :: y :: ys
    else if y < x then y :: insertSorted x ys
    else y :: ys

/-- The members of a list in increasing order, each once. -/
def sortDistinct (xs : List α) : List α := xs.foldr insertSorted []

/-! ## Laws -/

/-- Two members that are not ordered either way are equal. -/
abbrev Trichotomous (α : Type) [LT α] : Prop := ∀ x y : α, ¬ x < y → ¬ y < x → x = y

theorem mem_insertSorted (tri : Trichotomous α) {x y : α} {ys : List α} :
    y ∈ insertSorted x ys ↔ y = x ∨ y ∈ ys := by
  induction ys with
  | nil => simp [insertSorted]
  | cons z zs ih =>
    simp only [insertSorted]
    split
    · simp
    · split
      · simp only [List.mem_cons, ih]
        grind
      · rename_i h₁ h₂
        have : x = z := tri x z h₁ h₂
        simp only [List.mem_cons]
        grind

theorem pairwise_insertSorted (tri : Trichotomous α) (trans : ∀ x y z : α, x < y → y < z → x < z)
    {x : α} {ys : List α} (h : ys.Pairwise (· < ·)) : (insertSorted x ys).Pairwise (· < ·) := by
  induction ys with
  | nil => simp [insertSorted]
  | cons z zs ih =>
    obtain ⟨hz, hzs⟩ := List.pairwise_cons.mp h
    simp only [insertSorted]
    split
    · rename_i hxz
      refine List.pairwise_cons.mpr ⟨fun y hy => ?_, h⟩
      rcases List.mem_cons.mp hy with rfl | hy
      · exact hxz
      · exact trans _ _ _ hxz (hz y hy)
    · split
      · rename_i hzx
        refine List.pairwise_cons.mpr ⟨fun y hy => ?_, ih hzs⟩
        rcases (mem_insertSorted tri).mp hy with rfl | hy
        · exact hzx
        · exact hz y hy
      · exact h

theorem mem_sortDistinct (tri : Trichotomous α) {y : α} {xs : List α} :
    y ∈ sortDistinct xs ↔ y ∈ xs := by
  induction xs with
  | nil => simp [sortDistinct]
  | cons x xs ih =>
    simp only [sortDistinct, List.foldr_cons] at ih ⊢
    rw [mem_insertSorted tri, ih, List.mem_cons]

theorem pairwise_sortDistinct (tri : Trichotomous α) (trans : ∀ x y z : α, x < y → y < z → x < z)
    (xs : List α) : (sortDistinct xs).Pairwise (· < ·) := by
  induction xs with
  | nil => exact List.Pairwise.nil
  | cons x xs ih => exact pairwise_insertSorted tri trans ih

omit [DecidableLT α] in
/-- **Strictly increasing lists with the same members are equal.** -/
theorem eq_of_pairwise_of_mem_iff (irrefl : ∀ x : α, ¬ x < x)
    (trans : ∀ x y z : α, x < y → y < z → x < z) :
    ∀ {xs ys : List α}, xs.Pairwise (· < ·) → ys.Pairwise (· < ·) →
      (∀ x, x ∈ xs ↔ x ∈ ys) → xs = ys
  | [], [], _, _, _ => rfl
  | [], y :: ys, _, _, h => by simpa using h y
  | x :: xs, [], _, _, h => by simpa using h x
  | x :: xs, y :: ys, hx, hy, h => by
    obtain ⟨hx₁, hx₂⟩ := List.pairwise_cons.mp hx
    obtain ⟨hy₁, hy₂⟩ := List.pairwise_cons.mp hy
    have hxy : x = y := by
      rcases List.mem_cons.mp ((h x).mp List.mem_cons_self) with hxy | hxy
      · exact hxy
      · rcases List.mem_cons.mp ((h y).mpr List.mem_cons_self) with hyx | hyx
        · exact hyx.symm
        · exact absurd (trans _ _ _ (hy₁ x hxy) (hx₁ y hyx)) (irrefl y)
    subst hxy
    congr 1
    refine eq_of_pairwise_of_mem_iff irrefl trans hx₂ hy₂ fun z => ⟨fun hz => ?_, fun hz => ?_⟩
    · rcases List.mem_cons.mp ((h z).mp (List.mem_cons_of_mem _ hz)) with rfl | hz'
      · exact absurd (hx₁ z hz) (irrefl z)
      · exact hz'
    · rcases List.mem_cons.mp ((h z).mpr (List.mem_cons_of_mem _ hz)) with rfl | hz'
      · exact absurd (hy₁ z hz) (irrefl z)
      · exact hz'

end Lalr

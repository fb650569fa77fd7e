/-!
# Totals

The total of a list of numbers, by which sizes of lists of parts are counted.
-/

namespace Lalr

/-- The sum of the numbers. -/
def total : List Nat → Nat
  | [] => 0
  | n :: ns => n + total ns

@[simp] theorem total_nil : total [] = 0 := rfl

@[simp] theorem total_cons (n : Nat) (ns : List Nat) : total (n :: ns) = n + total ns := rfl

@[simp] theorem total_append (ns ms : List Nat) : total (ns ++ ms) = total ns + total ms := by
  induction ns with
  | nil => simp
  | cons n ns ih => simp [ih, Nat.add_assoc]

/-- Replacing a part changes the total by the difference of the two. -/
theorem total_map_set {α : Type} (f : α → Nat) (x : α) :
    ∀ (xs : List α) (i : Nat) (y : α), xs[i]? = some y →
      total ((xs.set i x).map f) + f y = total (xs.map f) + f x
  | [], _, _, h => by simp at h
  | z :: xs, 0, y, h => by
    obtain rfl : z = y := by simpa using h
    simp only [List.set_cons_zero, List.map_cons, total_cons]
    omega
  | z :: xs, i + 1, y, h => by
    have ih := total_map_set f x xs i y (by simpa using h)
    simp only [List.set_cons_succ, List.map_cons, total_cons]
    omega

end Lalr

/-!
# Worklists

A worklist (`Queue`) hands out values first in, first out, and ignores a value that is waiting
already. A value that has been handed out may be pushed again.
-/

namespace Lalr

/-- A queue of distinct waiting values. -/
structure Worklist (α : Type) where
  waiting : List α
  nodup   : waiting.Nodup

namespace Worklist

variable {α : Type} [DecidableEq α]

/-- Nothing is waiting. -/
def empty : Worklist α := ⟨[], List.nodup_nil⟩

/-- Lines a value up at the end, unless it is waiting already. -/
def push (w : Worklist α) (x : α) : Worklist α :=
  if h : x ∈ w.waiting then w
  else ⟨w.waiting ++ [x], by
    rw [List.nodup_append]
    refine ⟨w.nodup, List.pairwise_singleton _ _, fun a ha b hb => ?_⟩
    rw [List.mem_singleton.mp hb]
    exact fun hab => h (hab ▸ ha)⟩

/-- Lines the values up in order. -/
def ofList (xs : List α) : Worklist α := xs.foldl push empty

/-- The value that has waited longest, and the rest. -/
def pop : Worklist α → Option (α × Worklist α)
  | ⟨[], _⟩ => none
  | ⟨x :: rest, h⟩ => some (x, ⟨rest, (List.nodup_cons.mp h).2⟩)

/-- The number of waiting values. -/
def size (w : Worklist α) : Nat := w.waiting.length

/-! ## Laws -/

@[simp] theorem mem_push {w : Worklist α} {x y : α} :
    y ∈ (w.push x).waiting ↔ y ∈ w.waiting ∨ y = x := by
  unfold push
  split
  · rename_i h
    exact ⟨Or.inl, fun hy => hy.elim id fun hyx => hyx ▸ h⟩
  · simp

theorem size_push_le (w : Worklist α) (x : α) : (w.push x).size ≤ w.size + 1 := by
  unfold push size
  split <;> simp

omit [DecidableEq α] in
theorem waiting_of_pop {w w' : Worklist α} {x : α} (h : w.pop = some (x, w')) :
    w.waiting = x :: w'.waiting := by
  obtain ⟨_ | ⟨y, rest⟩, hn⟩ := w
  · cases h
  · cases h
    rfl

omit [DecidableEq α] in
theorem pop_eq_none_iff {w : Worklist α} : w.pop = none ↔ w.waiting = [] := by
  obtain ⟨_ | ⟨y, rest⟩, hn⟩ := w <;> simp [pop]

end Worklist

end Lalr

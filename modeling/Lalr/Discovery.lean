/-!
# Breadth-first discovery

`discover succ fuel start` lists what can be reached from `start` along `succ`, in the order of
discovery: the values of the list are visited from its front, and what a visit finds anew is
appended at its end. The rest of the library numbers terms, items and states by this order. Loops of
this form are in `collect_terms`, `closure` and `create_states`.

One visit costs one unit of fuel. If every value ever found lies in a list of `n` values, then `n`
units suffice, since no value is found twice: after `n` visits the cursor has passed the end.
-/

namespace Lalr

variable {α : Type} [DecidableEq α]

/-- Appends the values that are not there yet, each once and in order. -/
def appendNew (known : List α) (found : List α) : List α :=
  found.foldl (fun known x => if x ∈ known then known else known ++ [x]) known

/-- Visits the values of `found` from the position `cursor` on. -/
def discoverFrom (succ : α → List α) : Nat → Nat → List α → List α
  | 0, _, found => found
  | fuel + 1, cursor, found =>
    match found[cursor]? with
    | none => found
    | some x => discoverFrom succ fuel (cursor + 1) (appendNew found (succ x))

/-- **Everything reachable from `start`**, in the order of discovery. -/
def discover (succ : α → List α) (fuel : Nat) (start : List α) : List α :=
  discoverFrom succ fuel 0 start

/-! ## Laws of appending -/

@[simp] theorem appendNew_nil (known : List α) : appendNew known [] = known := rfl

theorem appendNew_cons (known : List α) (x : α) (found : List α) :
    appendNew known (x :: found) =
      appendNew (if x ∈ known then known else known ++ [x]) found := rfl

@[simp] theorem mem_appendNew {known found : List α} {y : α} :
    y ∈ appendNew known found ↔ y ∈ known ∨ y ∈ found := by
  induction found generalizing known with
  | nil => simp
  | cons x found ih =>
    rw [appendNew_cons, ih]
    split <;> simp only [List.mem_append, List.mem_cons, List.not_mem_nil] <;> grind

theorem nodup_appendNew {known found : List α} (h : known.Nodup) :
    (appendNew known found).Nodup := by
  induction found generalizing known with
  | nil => exact h
  | cons x found ih =>
    rw [appendNew_cons]
    apply ih
    split
    · exact h
    · rename_i hx
      rw [List.nodup_append]
      refine ⟨h, List.pairwise_singleton _ _, fun a ha b hb => ?_⟩
      rw [List.mem_singleton.mp hb]
      exact fun hab => hx (hab ▸ ha)

/-- What is known keeps its place. -/
theorem exists_appendNew_eq (known found : List α) :
    ∃ new, appendNew known found = known ++ new := by
  induction found generalizing known with
  | nil => exact ⟨[], (List.append_nil _).symm⟩
  | cons x found ih =>
    rw [appendNew_cons]
    split
    · exact ih known
    · obtain ⟨new, h⟩ := ih (known ++ [x])
      exact ⟨x :: new, by rw [h, List.append_assoc, List.singleton_append]⟩

/-! ## Laws of discovery -/

theorem nodup_discoverFrom (succ : α → List α) (fuel cursor : Nat) {found : List α}
    (h : found.Nodup) : (discoverFrom succ fuel cursor found).Nodup := by
  induction fuel generalizing cursor found with
  | zero => exact h
  | succ fuel ih =>
    unfold discoverFrom
    split
    · exact h
    · exact ih (cursor + 1) (nodup_appendNew h)

/-- What has been found keeps its place. -/
theorem exists_discoverFrom_eq (succ : α → List α) (fuel cursor : Nat) (found : List α) :
    ∃ new, discoverFrom succ fuel cursor found = found ++ new := by
  induction fuel generalizing cursor found with
  | zero => exact ⟨[], (List.append_nil _).symm⟩
  | succ fuel ih =>
    unfold discoverFrom
    split
    · exact ⟨[], (List.append_nil _).symm⟩
    · rename_i x _
      obtain ⟨new, hnew⟩ := exists_appendNew_eq found (succ x)
      obtain ⟨later, hlater⟩ := ih (cursor + 1) (appendNew found (succ x))
      exact ⟨new ++ later, by rw [hlater, hnew, List.append_assoc]⟩

/-- **Nothing is found twice.** -/
theorem nodup_discover (succ : α → List α) (fuel : Nat) {start : List α} (h : start.Nodup) :
    (discover succ fuel start).Nodup :=
  nodup_discoverFrom succ fuel 0 h

end Lalr

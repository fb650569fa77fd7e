import Lalr.Discovery
import Mathlib.Data.List.Perm.Subperm
import Mathlib.Logic.Relation

/-!
# Discovery finds exactly what is reachable

`discover succ fuel start` is a worklist over a growing list, run for `fuel` rounds at most. Two
facts about it are needed everywhere: what it lists is reachable, and what is reachable is listed.
The second needs fuel. If all values ever found lie in a list `space` that is closed under `succ`,
then the found list, which never repeats a value, is no longer than `space`; so with
`space.length` units the cursor passes its end.

* `Reach`: reachability from a list of values along a successor function.
* `Discovers`: the worklist without any bound on its rounds. What it ends with is exactly what is
  reachable (**`Discovers.mem_iff`**).
* **`discovers_discover`**: with enough fuel the bounded worklist agrees with the unbounded one,
  which therefore comes to an end.
* **`mem_discover_iff`**: with enough fuel, a value is listed iff it is reachable.
-/

namespace Lalr

variable {α : Type} [DecidableEq α]

/-- What can be reached from some value of `start` along `succ`. -/
def Reach (succ : α → List α) (start : List α) (y : α) : Prop :=
  ∃ x ∈ start, Relation.ReflTransGen (fun a b => b ∈ succ a) x y

omit [DecidableEq α] in
theorem Reach.of_mem {succ : α → List α} {start : List α} {x : α} (h : x ∈ start) :
    Reach succ start x :=
  ⟨x, h, Relation.ReflTransGen.refl⟩

omit [DecidableEq α] in
theorem Reach.step {succ : α → List α} {start : List α} {x y : α} (h : Reach succ start x)
    (hy : y ∈ succ x) : Reach succ start y := by
  obtain ⟨z, hz, hzx⟩ := h
  exact ⟨z, hz, hzx.tail hy⟩

omit [DecidableEq α] in
/-- What holds at the start and is kept by every step holds of everything reachable. -/
theorem Reach.induction {succ : α → List α} {start : List α} {P : α → Prop}
    (hstart : ∀ x ∈ start, P x) (hstep : ∀ x y, Reach succ start x → P x → y ∈ succ x → P y)
    {y : α} (h : Reach succ start y) : P y := by
  obtain ⟨x, hx, hxy⟩ := h
  induction hxy with
  | refl => exact hstart x hx
  | tail hxz hzy ih => exact hstep _ _ ⟨x, hx, hxz⟩ ih hzy

/-! ## Looking up -/

/-- Looking a key up in a list of pairs made from distinct or repeated keys. -/
theorem lookup_map_pair {β : Type} (f : α → β) (k : α) :
    ∀ xs : List α, (xs.map fun x => (x, f x)).lookup k = if k ∈ xs then some (f k) else none
  | [] => rfl
  | x :: xs => by
    rw [List.map_cons, List.lookup_cons, lookup_map_pair f k xs]
    by_cases hk : k = x
    · subst hk
      simp
    · rw [beq_eq_false_iff_ne.mpr hk]
      simp [hk]

/-! ## Appending -/

/-- Appending goes through a map that tells the values apart. -/
theorem map_appendNew {β : Type} [DecidableEq β] {f : α → β} {known found : List α}
    (hf : ∀ x ∈ known ++ found, ∀ y ∈ known ++ found, f x = f y → x = y) :
    (appendNew known found).map f = appendNew (known.map f) (found.map f) := by
  induction found generalizing known with
  | nil => rfl
  | cons x found ih =>
    have hmem : f x ∈ known.map f ↔ x ∈ known := by
      refine ⟨fun h => ?_, List.mem_map_of_mem⟩
      obtain ⟨y, hy, hyx⟩ := List.mem_map.mp h
      have hxy : y = x := hf y (List.mem_append_left _ hy) x
        (List.mem_append_right _ List.mem_cons_self) hyx
      exact hxy ▸ hy
    rw [List.map_cons, appendNew_cons, appendNew_cons]
    by_cases hx : x ∈ known
    · rw [if_pos hx, if_pos (hmem.mpr hx)]
      refine ih fun y hy z hz => hf y ?_ z ?_
      · exact List.mem_append.mpr ((List.mem_append.mp hy).imp_right (List.mem_cons_of_mem x))
      · exact List.mem_append.mpr ((List.mem_append.mp hz).imp_right (List.mem_cons_of_mem x))
    · rw [if_neg hx, if_neg (mt hmem.mp hx), ih, List.map_append, List.map_singleton]
      rwa [List.append_assoc, List.singleton_append]

/-- What stands in front takes no part but for what it knows. -/
theorem appendNew_append (front known found : List α) :
    appendNew (front ++ known) found =
      front ++ appendNew known (found.filter fun x => x ∉ front) := by
  induction found generalizing known with
  | nil => rfl
  | cons x found ih =>
    rw [appendNew_cons]
    by_cases hfront : x ∈ front
    · rw [if_pos (List.mem_append_left _ hfront), List.filter_cons_of_neg (by simpa using hfront),
        ih]
    · rw [List.filter_cons_of_pos (by simpa using hfront), appendNew_cons]
      by_cases hknown : x ∈ known
      · rw [if_pos (List.mem_append_right _ hknown), if_pos hknown, ih]
      · have hnew : x ∉ front ++ known := by simp [hfront, hknown]
        rw [if_neg hnew, if_neg hknown, List.append_assoc, ih]

/-- Values that are all new are appended as they are. -/
theorem appendNew_of_nodup {known found : List α} (h : (known ++ found).Nodup) :
    appendNew known found = known ++ found := by
  induction found generalizing known with
  | nil => exact (List.append_nil known).symm
  | cons x found ih =>
    have hx : x ∉ known := fun hx =>
      (List.nodup_append.mp h).2.2 x hx x List.mem_cons_self rfl
    rw [List.append_cons] at h
    rw [appendNew_cons, if_neg hx, ih h, List.append_cons known x found]

/-! ## What has been found stays found -/

theorem mem_discoverFrom_of_mem (succ : α → List α) (fuel cursor : Nat) {found : List α} {x : α}
    (h : x ∈ found) : x ∈ discoverFrom succ fuel cursor found := by
  obtain ⟨new, hnew⟩ := exists_discoverFrom_eq succ fuel cursor found
  rw [hnew]
  exact List.mem_append_left new h

theorem mem_discover_of_mem (succ : α → List α) (fuel : Nat) {start : List α} {x : α}
    (h : x ∈ start) : x ∈ discover succ fuel start :=
  mem_discoverFrom_of_mem succ fuel 0 h

/-! ## The worklist runs dry -/

/-- The worklist, run for as many rounds as it takes, ends with the result. -/
inductive Discovers (succ : α → List α) : Nat → List α → List α → Prop
  | done {cursor : Nat} {found : List α} (h : found[cursor]? = none) :
      Discovers succ cursor found found
  | visit {cursor : Nat} {found result : List α} {x : α} (h : found[cursor]? = some x)
      (hrest : Discovers succ (cursor + 1) (appendNew found (succ x)) result) :
      Discovers succ cursor found result

theorem discovers_discoverFrom {succ : α → List α} {space : List α}
    (hclosed : ∀ x ∈ space, ∀ y ∈ succ x, y ∈ space) (fuel cursor : Nat) {found : List α}
    (hnodup : found.Nodup) (hsub : ∀ x ∈ found, x ∈ space)
    (hfuel : space.length ≤ cursor + fuel) :
    Discovers succ cursor found (discoverFrom succ fuel cursor found) := by
  induction fuel generalizing cursor found with
  | zero =>
    -- The list repeats nothing, so it is no longer than the space, and the cursor is past its end.
    have hlen : found.length ≤ space.length := (hnodup.subperm hsub).length_le
    exact .done (List.getElem?_eq_none_iff.mpr (by omega))
  | succ fuel ih =>
    unfold discoverFrom
    split
    · rename_i hend
      exact .done hend
    · rename_i z hz
      refine .visit hz (ih (cursor + 1) (nodup_appendNew hnodup) ?_ (by omega))
      intro a ha
      rcases mem_appendNew.mp ha with ha | ha
      · exact hsub a ha
      · exact hclosed z (hsub z (List.mem_of_getElem? hz)) a ha

/-- **The worklist comes to an end**, and with enough fuel this is its result. -/
theorem discovers_discover {succ : α → List α} {start : List α} {fuel : Nat} (space : List α)
    (hclosed : ∀ x ∈ space, ∀ y ∈ succ x, y ∈ space) (hnodup : start.Nodup)
    (hsub : ∀ x ∈ start, x ∈ space) (hfuel : space.length ≤ fuel) :
    Discovers succ 0 start (discover succ fuel start) :=
  discovers_discoverFrom hclosed fuel 0 hnodup hsub (by omega)

namespace Discovers

variable {succ : α → List α} {cursor : Nat} {found result : List α}

theorem subset (h : Discovers succ cursor found result) : ∀ x ∈ found, x ∈ result := by
  induction h with
  | done _ => exact fun _ hx => hx
  | visit _ _ ih => exact fun x hx => ih x (mem_appendNew.mpr (Or.inl hx))

/-- What has been found keeps its place. -/
theorem exists_eq (h : Discovers succ cursor found result) : ∃ new, result = found ++ new := by
  induction h with
  | done _ => exact ⟨[], (List.append_nil _).symm⟩
  | @visit _ found _ x _ _ ih =>
    obtain ⟨new, hnew⟩ := exists_appendNew_eq found (succ x)
    obtain ⟨later, hlater⟩ := ih
    exact ⟨new ++ later, by rw [hlater, hnew, List.append_assoc]⟩

theorem nodup (h : Discovers succ cursor found result) (hfound : found.Nodup) : result.Nodup := by
  induction h with
  | done _ => exact hfound
  | visit _ _ ih => exact ih (nodup_appendNew hfound)

theorem reach {start : List α} (h : Discovers succ cursor found result)
    (hfound : ∀ x ∈ found, Reach succ start x) : ∀ x ∈ result, Reach succ start x := by
  induction h with
  | done _ => exact hfound
  | visit hx _ ih =>
    refine ih fun y hy => ?_
    rcases mem_appendNew.mp hy with hy | hy
    · exact hfound y hy
    · exact (hfound _ (List.mem_of_getElem? hx)).step hy

/-- What the worklist ends with is closed: everything before the cursor has its successors found,
and the cursor passes the end. -/
theorem closed (h : Discovers succ cursor found result)
    (hvisited : ∀ x ∈ found.take cursor, ∀ y ∈ succ x, y ∈ found) :
    ∀ x ∈ result, ∀ y ∈ succ x, y ∈ result := by
  induction h with
  | done hend =>
    rwa [List.take_of_length_le (List.getElem?_eq_none_iff.mp hend)] at hvisited
  | @visit cursor found _ z hz _ ih =>
    refine ih fun a ha b hb => ?_
    obtain ⟨new, hnew⟩ := exists_appendNew_eq found (succ z)
    have hcursor : cursor < found.length := (List.getElem?_eq_some_iff.mp hz).1
    rw [hnew, List.take_append_of_le_length hcursor, List.take_add_one, hz] at ha
    -- Only `z` has come before the cursor, and its successors have just been appended.
    rcases List.mem_append.mp ha with ha | ha
    · exact mem_appendNew.mpr (Or.inl (hvisited a ha b hb))
    · obtain rfl : a = z := by simpa using ha
      exact mem_appendNew.mpr (Or.inr hb)

/-- **The worklist ends with exactly what is reachable.** -/
theorem mem_iff (h : Discovers succ 0 found result) {y : α} :
    y ∈ result ↔ Reach succ found y := by
  constructor
  · exact h.reach (fun x hx => Reach.of_mem hx) y
  · refine Reach.induction h.subset ?_
    intro x z _ hx hz
    exact h.closed (by simp) x hx z hz

end Discovers

/-- **Discovery lists exactly what is reachable**, given as much fuel as there are values to be
found. -/
theorem mem_discover_iff {succ : α → List α} {start : List α} {fuel : Nat} (space : List α)
    (hclosed : ∀ x ∈ space, ∀ y ∈ succ x, y ∈ space) (hnodup : start.Nodup)
    (hsub : ∀ x ∈ start, x ∈ space) (hfuel : space.length ≤ fuel) {y : α} :
    y ∈ discover succ fuel start ↔ Reach succ start y :=
  (discovers_discover space hclosed hnodup hsub hfuel).mem_iff

end Lalr

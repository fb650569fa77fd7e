import Lalr.Discovery

/-!
# Tables in order of entry

A table lists its entries by key, one entry for each key, in the order in which the keys were first
entered. To enter something under a key is to change its entry, and to make one at the end if there
is none (`upsert`). Whatever is entered one by one (`gather`) can be found by looking at each key
alone (`gather_eq`): its entry has seen what was entered under it, in order, and nothing else.

So are filled the actions of a state, the reports of `resolve_conflicts`, and what `compute_firsts`
lists of where sets are passed on to.
-/

namespace Lalr

variable {α β γ : Type} [DecidableEq α]

/-- Changes the entry of a key. A new entry is made at the end, from `initial`. -/
def upsert (initial : β) (key : α) (f : β → β) : List (α × β) → List (α × β)
  | [] => [(key, f initial)]
  | entry :: rest =>
    if entry.1 = key then (key, f entry.2) :: rest else entry :: upsert initial key f rest

/-- Enters values, each under its key. -/
def gather (initial : β) (enter : γ → β → β) (pairs : List (α × γ)) (table : List (α × β)) :
    List (α × β) :=
  pairs.foldl (fun table pair => upsert initial pair.1 (enter pair.2) table) table

/-! ## Look-up -/

section Lookup

variable {κ ν : Type} [BEq κ] [LawfulBEq κ] {entries : List (κ × ν)} {key key' : κ} {v v' : ν}

/-- What a key leads to is listed under it. -/
theorem mem_of_lookup_eq_some (h : entries.lookup key = some v) : (key, v) ∈ entries := by
  obtain ⟨before, after, hentries, -⟩ := List.lookup_eq_some_iff.mp h
  simp [hentries]

/-- Nothing is listed under a key that leads nowhere. -/
theorem not_mem_of_lookup_eq_none (h : entries.lookup key = none) : (key, v) ∉ entries := by
  intro hmem
  have hne := List.lookup_eq_none_iff.mp h (key, v) hmem
  simp at hne

/-- A key leads where it led before, or is the one that was added. -/
theorem lookup_append_singleton_iff (hnew : entries.lookup key = none) :
    (entries ++ [(key, v)]).lookup key' = some v' ↔
      entries.lookup key' = some v' ∨ (key' = key ∧ v' = v) := by
  rw [List.lookup_append, List.lookup_cons, List.lookup_nil, Option.or_eq_some_iff]
  by_cases hkey : key' = key
  · subst hkey
    simp [hnew, eq_comm]
  · have hne : (key' == key) = false := by simpa using hkey
    simp [hne, hkey]

/-- A key that leads nowhere may be added to keys that are listed once. -/
theorem nodup_keys_append_singleton (h : (entries.map Prod.fst).Nodup)
    (hnew : entries.lookup key = none) : ((entries ++ [(key, v)]).map Prod.fst).Nodup := by
  rw [List.map_append, List.nodup_append]
  refine ⟨h, List.pairwise_singleton _ _, ?_⟩
  rintro k hk _ hk' rfl
  obtain ⟨entry, hentry, rfl⟩ := List.mem_map.mp hk
  obtain rfl := List.mem_singleton.mp hk'
  exact not_mem_of_lookup_eq_none hnew hentry

end Lookup

/-! ## Laws of one entry -/

section Upsert

variable {initial : β} {key : α} {f : β → β} {table : List (α × β)}

theorem lookup_cons_eq_ite (k : α) (entry : α × β) (rest : List (α × β)) :
    (entry :: rest).lookup k = if k = entry.1 then some entry.2 else rest.lookup k := by
  rw [List.lookup_cons]
  by_cases hk : k = entry.1
  · simp [hk]
  · rw [beq_eq_false_iff_ne.mpr hk, if_neg hk]

theorem lookup_map_snd (g : β → γ) (k : α) (table : List (α × β)) :
    (table.map fun entry => (entry.1, g entry.2)).lookup k = (table.lookup k).map g := by
  induction table with
  | nil => rfl
  | cons entry rest ih =>
    rw [List.map_cons, lookup_cons_eq_ite, lookup_cons_eq_ite, ih]
    split <;> rfl

/-- Keys keep their places, and a new one comes last. -/
theorem map_fst_upsert :
    (upsert initial key f table).map Prod.fst = appendNew (table.map Prod.fst) [key] := by
  induction table with
  | nil => rfl
  | cons entry rest ih =>
    rw [upsert, appendNew_cons, appendNew_nil, List.map_cons]
    split
    · rename_i hkey
      simp [hkey]
    · rename_i hkey
      have hmem : key ∈ entry.1 :: rest.map Prod.fst ↔ key ∈ rest.map Prod.fst :=
        List.mem_cons.trans (or_iff_right fun h => hkey h.symm)
      rw [List.map_cons, ih, appendNew_cons, appendNew_nil]
      simp only [hmem]
      split <;> rfl

theorem lookup_upsert (k : α) :
    (upsert initial key f table).lookup k =
      if k = key then some (f ((table.lookup key).getD initial)) else table.lookup k := by
  induction table with
  | nil => rw [upsert, lookup_cons_eq_ite]; rfl
  | cons entry rest ih =>
    rw [upsert]
    split
    · rename_i hkey
      simp only [lookup_cons_eq_ite, hkey, if_true, Option.getD_some]
      split <;> rfl
    · rename_i hkey
      have hne : key ≠ entry.1 := fun h => hkey h.symm
      simp only [lookup_cons_eq_ite, ih, if_neg hne]
      by_cases hk : k = entry.1
      · rw [if_pos hk, if_neg (hk ▸ hkey), if_pos hk]
      · rw [if_neg hk, if_neg hk]

end Upsert

/-! ## Laws of many entries -/

section Gather

variable {initial : β} {enter : γ → β → β} {pairs : List (α × γ)} {table : List (α × β)}

theorem gather_cons {pair : α × γ} :
    gather initial enter (pair :: pairs) table =
      gather initial enter pairs (upsert initial pair.1 (enter pair.2) table) := rfl

theorem map_fst_gather :
    (gather initial enter pairs table).map Prod.fst =
      appendNew (table.map Prod.fst) (pairs.map Prod.fst) := by
  induction pairs generalizing table with
  | nil => rfl
  | cons pair pairs ih =>
    rw [gather_cons, ih, map_fst_upsert]
    rfl

/-- What is entered under a key, in order. -/
def valuesAt (pairs : List (α × γ)) (key : α) : List γ :=
  (pairs.filter fun pair => pair.1 == key).map Prod.snd

theorem valuesAt_cons {pair : α × γ} (k : α) :
    valuesAt (pair :: pairs) k =
      if k = pair.1 then pair.2 :: valuesAt pairs k else valuesAt pairs k := by
  unfold valuesAt
  by_cases hk : k = pair.1
  · simp [hk]
  · have hne : ¬ (pair.1 == k) = true := fun h => hk (eq_of_beq h).symm
    rw [if_neg hk, List.filter_cons_of_neg (by exact hne)]

theorem valuesAt_append {later : List (α × γ)} (k : α) :
    valuesAt (pairs ++ later) k = valuesAt pairs k ++ valuesAt later k := by
  rw [valuesAt, List.filter_append, List.map_append]
  rfl

theorem valuesAt_flatMap {δ : Type} (f : δ → List (α × γ)) (xs : List δ) (k : α) :
    valuesAt (xs.flatMap f) k = xs.flatMap fun x => valuesAt (f x) k := by
  induction xs with
  | nil => rfl
  | cons x xs ih => rw [List.flatMap_cons, List.flatMap_cons, valuesAt_append, ih]

/-- One value entered under several keys is entered once under each. -/
theorem valuesAt_map_pair {keys : List α} (hnodup : keys.Nodup) (x : γ) (k : α) :
    valuesAt (keys.map fun key => (key, x)) k = if k ∈ keys then [x] else [] := by
  induction keys with
  | nil => rfl
  | cons key rest ih =>
    obtain ⟨hnew, hrest⟩ := List.nodup_cons.mp hnodup
    rw [List.map_cons, valuesAt_cons, ih hrest]
    by_cases hk : k = key
    · rw [if_pos hk, hk, if_neg hnew, if_pos List.mem_cons_self]
    · rw [if_neg hk]
      simp only [List.mem_cons, hk, false_or]

/-- An entry has seen what was entered under its key, and nothing else. -/
theorem lookup_gather {k : α} (hk : k ∈ (gather initial enter pairs table).map Prod.fst) :
    (gather initial enter pairs table).lookup k =
      some ((valuesAt pairs k).foldl (fun v x => enter x v) ((table.lookup k).getD initial)) := by
  induction pairs generalizing table with
  | nil =>
    cases hlookup : table.lookup k with
    | none =>
      obtain ⟨entry, hentry, rfl⟩ := List.mem_map.mp hk
      exact absurd hentry (not_mem_of_lookup_eq_none hlookup)
    | some v => exact hlookup
  | cons pair pairs ih =>
    rw [gather_cons] at hk ⊢
    rw [ih hk, lookup_upsert, valuesAt_cons]
    split
    · rename_i hkey
      rw [hkey]
      rfl
    · rfl

/-- A table with one entry for each key is told by its keys and its look-ups. -/
theorem eq_map_lookup {f : α → β} (hnodup : (table.map Prod.fst).Nodup)
    (hlookup : ∀ k ∈ table.map Prod.fst, table.lookup k = some (f k)) :
    table = (table.map Prod.fst).map fun k => (k, f k) := by
  induction table with
  | nil => rfl
  | cons entry rest ih =>
    obtain ⟨hnew, hrest⟩ := List.nodup_cons.mp hnodup
    have hentry : entry.2 = f entry.1 := by
      simpa [lookup_cons_eq_ite] using hlookup entry.1 List.mem_cons_self
    rw [List.map_cons, List.map_cons, ← hentry, ← ih hrest]
    intro k hk
    have hne : k ≠ entry.1 := fun h => hnew (h ▸ hk)
    have hfound := hlookup k (List.mem_cons_of_mem _ hk)
    rwa [lookup_cons_eq_ite, if_neg hne] at hfound

/-- **What is gathered is what each key alone has seen.** -/
theorem gather_eq (hnodup : (table.map Prod.fst).Nodup) :
    gather initial enter pairs table =
      (appendNew (table.map Prod.fst) (pairs.map Prod.fst)).map fun k =>
        (k, (valuesAt pairs k).foldl (fun v x => enter x v) ((table.lookup k).getD initial)) := by
  have hkeys : (gather initial enter pairs table).map Prod.fst =
      appendNew (table.map Prod.fst) (pairs.map Prod.fst) := map_fst_gather
  rw [← hkeys]
  refine eq_map_lookup ?_ fun k => lookup_gather
  rw [hkeys]
  exact nodup_appendNew hnodup

end Gather

end Lalr

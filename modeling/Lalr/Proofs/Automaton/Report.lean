import Lalr.Automaton.Report
import Lalr.Proofs.Automaton.Record

/-!
# What reports put together

Conflicts are put together one by one, in a table. What comes of it is said key by key
(**`groupByKey_eq`**): each key that occurs is listed once, in order of first appearance, with all
values of its pairs in order.

Conflicts are found in the order of the keys of their state. A dispute leaves at most one conflict
of each sort, and the two sorts read differently; so the keys of a report are some of the keys of
its state, each once and in order (**`inputs_sublist`**).
-/

namespace Lalr

/-! ## Values by key -/

section Grouping

variable {α β : Type} [DecidableEq α]

theorem foldl_append_singleton (xs ys : List β) :
    ys.foldl (fun values value => values ++ [value]) xs = xs ++ ys := by
  induction ys generalizing xs with
  | nil => exact (List.append_nil xs).symm
  | cons y ys ih => rw [List.foldl_cons, ih, List.append_assoc, List.singleton_append]

/-- **Pairs by key.** -/
theorem groupByKey_eq (pairs : List (α × β)) :
    groupByKey pairs = (appendNew [] (pairs.map Prod.fst)).map fun key =>
      (key, valuesAt pairs key) := by
  rw [groupByKey, gather_eq (by exact List.nodup_nil)]
  refine List.map_congr_left fun key _ => ?_
  rw [foldl_append_singleton]
  rfl

/-- A value stands in the list of its key. -/
theorem mem_valuesAt {pairs : List (α × β)} {key : α} {x : β} :
    x ∈ valuesAt pairs key ↔ (key, x) ∈ pairs := by
  simp [valuesAt]

omit [DecidableEq α] in
/-- Where a numbered list gives something for one number only, that is all it gives. -/
theorem flatMap_zipIdx_eq {f : α × Nat → List β} {q : Nat} (hf : ∀ x i, i ≠ q → f (x, i) = [])
    (n : Nat) (xs : List α) :
    (xs.zipIdx n).flatMap f = if n ≤ q then (xs[q - n]?.map fun x => f (x, q)).getD [] else [] := by
  induction xs generalizing n with
  | nil => split <;> rfl
  | cons x xs ih =>
    rw [List.zipIdx_cons, List.flatMap_cons, ih]
    rcases Nat.lt_trichotomy n q with hlt | rfl | hgt
    · have hsub : q - n = q - (n + 1) + 1 := by omega
      rw [hf x n (Nat.ne_of_lt hlt), if_pos (Nat.succ_le_of_lt hlt), if_pos (Nat.le_of_lt hlt),
        hsub, List.getElem?_cons_succ]
      rfl
    · rw [if_neg (Nat.not_succ_le_self n), if_pos (Nat.le_refl n), Nat.sub_self,
        List.append_nil]
      rfl
    · rw [hf x n (Nat.ne_of_gt hgt), if_neg (by omega), if_neg (by omega)]
      rfl

omit [DecidableEq α] in
/-- A list that gives at most one value for each element gives some of them in order. -/
theorem flatMap_sublist_map {f : α → List β} {g : α → β} (h : ∀ x, (f x).Sublist [g x]) :
    ∀ xs : List α, (xs.flatMap f).Sublist (xs.map g)
  | [] => List.Sublist.refl _
  | x :: xs => by
    rw [List.flatMap_cons, List.map_cons, ← List.singleton_append]
    exact (h x).append (flatMap_sublist_map h xs)

end Grouping

/-! ## Keys by description -/

namespace Automaton

variable {production : ProductionId → String} {keyOf : TermId → String}

/-- The keys of conflicts, with the state and the description by which they are put together. -/
def described (production : ProductionId → String)
    (conflicts : List (StateId × TermId × Conflict)) : List ((StateId × String) × TermId) :=
  conflicts.map fun (q, key, c) => ((q, c.describe production q), key)

/-- The keys of the conflicts of a state that read so. -/
def inputs (production : ProductionId → String) (conflicts : List (StateId × TermId × Conflict))
    (q : StateId) (description : String) : List TermId :=
  valuesAt (described production conflicts) (q, description)

variable {conflicts : List (StateId × TermId × Conflict)} {q : StateId} {m : String} {k : TermId}

theorem mem_inputs : k ∈ inputs production conflicts q m ↔
    ∃ conflict, (q, k, conflict) ∈ conflicts ∧ conflict.describe production q = m := by
  rw [inputs, mem_valuesAt, described, List.mem_map]
  constructor
  · rintro ⟨⟨q', k', conflict⟩, hmem, heq⟩
    obtain ⟨⟨rfl, rfl⟩, rfl⟩ : (q' = q ∧ conflict.describe production q' = m) ∧ k' = k := by
      simpa using heq
    exact ⟨conflict, hmem, rfl⟩
  · rintro ⟨conflict, hmem, rfl⟩
    exact ⟨_, hmem, rfl⟩

/-- **The reports**: one for each state and description that a conflict has. -/
theorem reportConflicts_eq (conflicts : List (StateId × TermId × Conflict)) :
    reportConflicts production keyOf conflicts =
      (appendNew [] ((described production conflicts).map Prod.fst)).map fun r =>
        .conflict r.1 r.2 ((inputs production conflicts r.1 r.2).map keyOf) := by
  show (groupByKey (described production conflicts)).map _ = _
  rw [groupByKey_eq, List.map_map]
  rfl

/-- A report is about conflicts. -/
theorem ofLevel_reportConflicts (conflicts : List (StateId × TermId × Conflict)) :
    (reportConflicts production keyOf conflicts).ofLevel .conflict =
      reportConflicts production keyOf conflicts := by
  refine List.filter_eq_self.mpr ?_
  intro issue hissue
  obtain ⟨pair, -, rfl⟩ := List.mem_map.mp hissue
  rfl

theorem mem_map_fst_described :
    (q, m) ∈ (described production conflicts).map Prod.fst ↔
      ∃ k, k ∈ inputs production conflicts q m := by
  simp only [inputs, mem_valuesAt, List.mem_map]
  constructor
  · rintro ⟨⟨r, k⟩, hk, rfl⟩
    exact ⟨k, hk⟩
  · rintro ⟨k, hk⟩
    exact ⟨_, hk, rfl⟩

/-- The two sorts of conflicts read differently. -/
theorem describe_ne {first second reduced : ProductionId} :
    (Conflict.reduceReduce first second).describe production q ≠
      (Conflict.shiftReduce reduced).describe production q := by
  have hreduce : ∃ rest, (Conflict.reduceReduce first second).describe production q =
      "Reduce-reduce conflict in state " ++ rest := by
    refine ⟨q.label ++ (" for productions: " ++
      (production first ++ ("; " ++ production second))), ?_⟩
    unfold Conflict.describe
    simp only [String.append_assoc]
  have hshift : ∃ rest, (Conflict.shiftReduce reduced).describe production q =
      "Shift-reduce conflict in state " ++ rest := by
    refine ⟨q.label ++ (", reduce production: " ++ production reduced), ?_⟩
    unfold Conflict.describe
    simp only [String.append_assoc]
  obtain ⟨rest, hrest⟩ := hreduce
  obtain ⟨rest', hrest'⟩ := hshift
  rw [hrest, hrest']
  intro h
  have hhead := congrArg (fun text : String => text.toList.head?) h
  simp at hhead

/-- A dispute leaves at most one conflict that reads so. -/
theorem described_dispute (d : Dispute) (q : StateId) (m : String) :
    (valuesAt (d.resolve.2.map fun conflict => ((q, conflict.describe production q), d.key))
      (q, m)).Sublist [d.key] := by
  have hsingle : ∀ conflict : Conflict, (valuesAt [((q, conflict.describe production q), d.key)]
      (q, m)).Sublist [d.key] := by
    intro conflict
    rw [valuesAt_cons]
    split
    · exact List.Sublist.refl _
    · exact List.nil_sublist _
  rw [d.resolve_snd]
  rcases d.reduceConflict_cases with hreduce | ⟨first, second, hreduce⟩ <;>
    rcases d.shiftConflict_cases with hshift | ⟨reduced, hshift⟩ <;> rw [hreduce, hshift]
  · exact List.nil_sublist _
  · exact hsingle _
  · exact hsingle _
  · -- a text is that of one of the two at most
    show (valuesAt [((q, _), d.key), ((q, _), d.key)] (q, m)).Sublist [d.key]
    by_cases hm : m = (Conflict.reduceReduce first second).describe production q
    · have hne : (q, m) ≠ (q, (Conflict.shiftReduce reduced).describe production q) :=
        fun h => describe_ne (hm.symm.trans (Prod.mk.inj h).2)
      rw [valuesAt_cons, if_pos (by rw [hm]), valuesAt_cons, if_neg hne]
      exact List.Sublist.refl _
    · have hne : (q, m) ≠ (q, (Conflict.reduceReduce first second).describe production q) :=
        fun h => hm (Prod.mk.inj h).2
      rw [valuesAt_cons, if_neg hne]
      exact hsingle _

/-- **The keys of a report are keys of its state**, each once and in order. -/
theorem inputs_sublist (disputes : List (List Dispute)) (q : StateId) (m : String) :
    (inputs production (Automaton.conflicts disputes) q m).Sublist
      ((disputes[q]?.getD []).map Dispute.key) := by
  have hdescribed : described production (Automaton.conflicts disputes) =
      disputes.zipIdx.flatMap fun row => row.1.flatMap fun d =>
        d.resolve.2.map fun conflict => ((row.2, conflict.describe production row.2), d.key) := by
    simp [described, Automaton.conflicts, List.map_flatMap, Function.comp_def]
  have hother : ∀ (ds : List Dispute) (i : Nat), i ≠ q →
      (ds.flatMap fun d => valuesAt (d.resolve.2.map fun conflict =>
        ((i, conflict.describe production i), d.key)) (q, m)) = [] := by
    intro ds i hi
    refine List.flatMap_eq_nil_iff.mpr fun d _ => List.eq_nil_iff_forall_not_mem.mpr fun k hk => ?_
    obtain ⟨conflict, -, heq⟩ := List.mem_map.mp (mem_valuesAt.mp hk)
    exact hi (Prod.mk.inj (Prod.mk.inj heq).1).1
  rw [inputs, hdescribed, valuesAt_flatMap]
  simp only [valuesAt_flatMap]
  rw [flatMap_zipIdx_eq hother, if_pos (Nat.zero_le q), Nat.sub_zero]
  cases disputes[q]? with
  | none => exact List.Sublist.refl _
  | some ds =>
    simp only [Option.map_some, Option.getD_some]
    exact flatMap_sublist_map (fun d => described_dispute d q m) ds

end Automaton

end Lalr

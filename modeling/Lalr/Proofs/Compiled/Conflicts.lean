import Lalr.Proofs.Compiled.Records

/-!
# The conflicts of a compiled grammar

A conflict is unresolved if neither an operator nor a hint decides it; which ones are is told by the
items of a state (`Unresolved`). Conflicts of a state that read the same are reported once.

**`conflicts_exact`**: for every definition that compiles, the log has one entry for each state and
text that an unresolved conflict has, and it lists exactly the keys whose conflicts read so, in the
order of the records of the state. Nothing else is logged as a conflict.
-/

namespace Lalr

namespace Compiled

/-- A conflict of the state about the key that nothing the author has asked for decides. -/
inductive Unresolved (c : Compiled) (q : StateId) (s : State) (k : TermId) : Conflict → Prop
  | reduceReduce {first second : ProductionId} {rest : List ProductionId}
      (hcandidates : c.candidates q s k = first :: second :: rest)
      (hreduce : ∀ i ∈ c.candidates q s k, ¬ c.PrefersReduce i) :
      Unresolved c q s k (.reduceReduce first second)
  | shiftReduce {target : StateId} {first : ProductionId} {rest : List ProductionId}
      (htarget : c.MovesTo s k target) (hcandidates : c.candidates q s k = first :: rest)
      (hoperator : ¬ c.HasPrecedence k) (hshift : ¬ c.PrefersShift s k)
      (hreduce : ∀ i ∈ c.candidates q s k, ¬ c.PrefersReduce i) :
      Unresolved c q s k (.shiftReduce first)

/-- The state has an unresolved conflict about the key that reads so. -/
def HasReport (c : Compiled) (q : StateId) (m : String) (k : TermId) : Prop :=
  ∃ s conflict, c.automaton.states[q]? = some s ∧ c.Unresolved q s k conflict ∧
    conflict.describe (c.cfg.displayProduction c.display) q = m

variable {c : Compiled} {q : StateId} {k : TermId} {s : State}

/-! ## Conflicts left by disputes -/

theorem Built.mem_resolve_iff (hb : c.Built) (hs : c.automaton.states[q]? = some s)
    {conflict : Conflict} :
    conflict ∈ (c.disputeAt q k).resolve.2 ↔ c.Unresolved q s k conflict := by
  have hcandidates := hb.candidates_eq (k := k) hs
  have hoperator : (c.disputeAt q k).isOperator = false ↔ ¬ c.HasPrecedence k := by
    rw [← isOperatorIn_iff, Bool.not_eq_true]
    rfl
  have hshift : (c.disputeAt q k).prefersShift = false ↔ ¬ c.PrefersShift s k := by
    rw [← hb.prefersShift_iff hs, Bool.not_eq_true]
  have hreduce : (∀ i ∈ (c.disputeAt q k).candidates, (c.disputeAt q k).prefersReduce i = false) ↔
      ∀ i ∈ c.candidates q s k, ¬ c.PrefersReduce i := by
    simp only [hcandidates, ← prefersReduce_iff (q := q) (k := k), Bool.not_eq_true]
  rw [Dispute.resolve_snd, List.mem_append, Dispute.mem_reduceConflict, Dispute.mem_shiftConflict,
    hreduce, hoperator, hshift, hcandidates]
  constructor
  · rintro (⟨first, second, rest, hall, hnone, rfl⟩ | ⟨first, rest, htarget, hall, h₁, h₂, h₃, rfl⟩)
    · exact .reduceReduce hall hnone
    · obtain ⟨target, htarget⟩ := Option.isSome_iff_exists.mp htarget
      exact .shiftReduce ((hb.target_iff hs).mp htarget) hall h₁ h₂ h₃
  · intro h
    cases h with
    | reduceReduce hall hnone => exact Or.inl ⟨_, _, _, hall, hnone, rfl⟩
    | shiftReduce htarget hall h₁ h₂ h₃ =>
      have htarget := (hb.target_iff hs).mpr htarget
      exact Or.inr ⟨_, _, by rw [htarget]; rfl, hall, h₁, h₂, h₃, rfl⟩

theorem Built.mem_conflicts_iff (hb : c.Built) {conflict : Conflict} :
    (q, k, conflict) ∈ Automaton.conflicts c.disputes ↔
      ∃ s, c.automaton.states[q]? = some s ∧ c.Unresolved q s k conflict := by
  have hdisputes : (q, k, conflict) ∈ Automaton.conflicts c.disputes ↔
      q < c.cfg.states.length ∧ conflict ∈ (c.disputeAt q k).resolve.2 := by
    rw [disputes, hb.automaton]
    exact Automaton.mem_conflicts_iff hb.augmented
  rw [hdisputes, ← hb.states_eq]
  constructor
  · rintro ⟨hq, hconflict⟩
    have hs := List.getElem?_eq_getElem hq
    exact ⟨_, hs, (hb.mem_resolve_iff hs).mp hconflict⟩
  · rintro ⟨s, hs, hconflict⟩
    exact ⟨(List.getElem?_eq_some_iff.mp hs).1, (hb.mem_resolve_iff hs).mpr hconflict⟩

theorem Built.recordKeys_eq (hb : c.Built) (q : StateId) :
    c.recordKeys q = (c.disputes[q]?.getD []).map Dispute.key := by
  rw [recordKeys, hb.records, Automaton.records, List.getElem?_map]
  cases c.disputes[q]? with
  | none => rfl
  | some ds => exact List.map_map

end Compiled

/-! ## The log -/

namespace Definition

variable {d : Definition} {c : Compiled}

/-- Names in messages do not depend on matchers. -/
theorem displayIn_prepareTerms [Text.Xid] (ignoreCase : Bool) (terms : List Term)
    (ids : List TermId) :
    displayIn (prepareTerms ignoreCase terms ids) = displayIn terms := by
  funext id
  unfold displayIn prepareTerms
  rw [List.getElem?_map, Option.map_map]
  rfl

/-- Neither do keys. -/
theorem keyIn_prepareTerms [Text.Xid] (ignoreCase : Bool) (terms : List Term) (ids : List TermId) :
    keyIn (prepareTerms ignoreCase terms ids) = keyIn terms := by
  funext id
  unfold keyIn prepareTerms
  rw [List.getElem?_map, Option.map_map]
  rfl

/-- What is found fault with before the automaton is built is not a conflict. -/
theorem ofLevel_conflict_issues (collection : Collection) :
    collection.issues.ofLevel .conflict = [] := by
  refine List.filter_eq_nil_iff.mpr fun issue hissue => ?_
  rcases List.mem_append.mp hissue with h | h
  · obtain ⟨t, -, rfl⟩ := List.mem_map.mp h
    exact Bool.false_ne_true
  · obtain ⟨t, -, rfl⟩ := List.mem_map.mp h
    exact Bool.false_ne_true

/-- **The conflicts in the log** are the reports of what the disputes have left. -/
theorem ofLevel_conflict_compileCollection [Text.Xid] (d : Definition) (root : TermId)
    (collection : Collection) : (d.compileCollection root collection).log.ofLevel .conflict =
      reportConflicts (collection.cfg.displayProduction
          (d.compileCollection root collection).display)
        (d.compileCollection root collection).keyOf
        (Automaton.conflicts (d.compileCollection root collection).disputes) := by
  have hdisplay : (d.compileCollection root collection).display =
      displayIn (collection.terms.map (Term.normalize d.ignoreCase)) :=
    displayIn_prepareTerms _ _ _
  have hkey : (d.compileCollection root collection).keyOf =
      keyIn (collection.terms.map (Term.normalize d.ignoreCase)) := keyIn_prepareTerms _ _ _
  rw [hdisplay, hkey, disputes_compileCollection]
  unfold compileCollection Log.ofLevel
  dsimp only
  rw [List.filter_append, ← Log.ofLevel, ← Log.ofLevel, ofLevel_conflict_issues, List.nil_append,
    Automaton.ofLevel_reportConflicts]

end Definition

namespace Compiled

variable {c : Compiled}

/-- **Conflicts are logged exactly**, for every definition that compiles: once for each state and
text of an unresolved conflict, followed by the keys of the conflicts that read so, each once and in
the order of the records. -/
theorem conflicts_exact [Text.Xid] {ignoreCase : Bool} {commands : List Command}
    (h : (Definition.ofCommands ignoreCase commands).compile = .ok c) :
    ∃ (reports : List (StateId × String)) (inputs : StateId → String → List TermId),
      (c.log.ofLevel .conflict).map (fun issue => (issue.state?, issue.message)) =
        reports.map (fun (q, m) =>
          (some q, m ++ " on inputs: " ++ " ".intercalate ((inputs q m).map c.keyOf))) ∧
      reports.Nodup ∧
      (∀ q m, (q, m) ∈ reports ↔ ∃ k, c.HasReport q m k) ∧
      ∀ q m, (inputs q m).Nodup ∧ (∀ k, k ∈ inputs q m ↔ c.HasReport q m k) ∧
        (inputs q m).Sublist (c.recordKeys q) := by
  have hb := Definition.built_of_compile h
  have hmem : ∀ q m k, k ∈ Automaton.inputs (c.cfg.displayProduction c.display)
      (Automaton.conflicts c.disputes) q m ↔ c.HasReport q m k := by
    intro q m k
    simp only [Automaton.mem_inputs, hb.mem_conflicts_iff, HasReport]
    exact ⟨fun ⟨conflict, ⟨s, hs, hleft⟩, hm⟩ => ⟨s, conflict, hs, hleft, hm⟩,
      fun ⟨s, conflict, hs, hleft, hm⟩ => ⟨conflict, ⟨s, hs, hleft⟩, hm⟩⟩
  refine ⟨appendNew [] ((Automaton.described (c.cfg.displayProduction c.display)
      (Automaton.conflicts c.disputes)).map Prod.fst),
    Automaton.inputs (c.cfg.displayProduction c.display) (Automaton.conflicts c.disputes),
    ?_, nodup_appendNew List.nodup_nil, ?_, ?_⟩
  · have hlog : c.log.ofLevel .conflict =
        reportConflicts (c.cfg.displayProduction c.display) c.keyOf
          (Automaton.conflicts c.disputes) := by
      obtain ⟨root, -, rfl⟩ := Definition.compile_ok h
      exact Definition.ofLevel_conflict_compileCollection _ root _
    rw [hlog, Automaton.reportConflicts_eq, List.map_map]
    rfl
  · intro q m
    simp only [mem_appendNew, List.not_mem_nil, false_or, Automaton.mem_map_fst_described, hmem]
  · intro q m
    have hsublist : (Automaton.inputs (c.cfg.displayProduction c.display)
        (Automaton.conflicts c.disputes) q m).Sublist (c.recordKeys q) := by
      rw [hb.recordKeys_eq]
      exact Automaton.inputs_sublist c.disputes q m
    exact ⟨hsublist.nodup (hb.nodup_recordKeys q), hmem q m, hsublist⟩

/-- Behind `x` the conflicts about `z` are of both sorts, and reported apart. -/
theorem conflicts_exact_overlapping :
    (Definition.ofCommands false overlapping).compile = .ok overlappingCompiled ∧
      ∃ m m', m ≠ m' ∧ (∃ k, overlappingCompiled.HasReport 4 m k) ∧
        ∃ k, overlappingCompiled.HasReport 4 m' k := by
  obtain ⟨reports, inputs, hlog, hnodup, hmem, -⟩ := conflicts_exact compile_overlapping
  have hstates : (overlappingCompiled.log.ofLevel .conflict).map Issue.state? =
      [some 4, some 4] := by
    decide
  have hreports : reports.map Prod.fst = [4, 4] := by
    have hsome := congrArg (List.map Prod.fst) hlog
    rw [List.map_map, List.map_map] at hsome
    refine List.map_injective_iff.mpr (Option.some_injective StateId) ?_
    rw [List.map_map]
    exact hsome.symm.trans hstates
  match reports, hreports with
  | [(_, m), (_, m')], rfl =>
    refine ⟨compile_overlapping, m, m', ?_, (hmem 4 m).mp ?_, (hmem 4 m').mp ?_⟩
    · rintro rfl
      simp at hnodup
    · exact List.mem_cons_self
    · exact List.mem_cons_of_mem _ List.mem_cons_self

end Compiled

end Lalr

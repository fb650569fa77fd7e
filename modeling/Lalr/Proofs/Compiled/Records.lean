import Lalr.Proofs.Compiled.States

/-!
# The records of a compiled grammar

A record is told by the items of its state alone: where the state moves over the key (`MovesTo`),
which completed items have the key as a lookahead (`candidates`), and what the author asked for by
operators and hints. `RecordFor` says what the record then has to be.

**`records_exact`**: for every definition that compiles, a state has a record for exactly the keys
for which there is anything to do, one for each, and it is the record that it has to be.
-/

namespace Lalr

namespace Compiled

/-! ## What a record is told by -/

/-- Over the key the state moves to the one whose kernel has exactly the dots before the key
advanced, if there are any. -/
def MovesTo (c : Compiled) (s : State) (k : TermId) (target : StateId) : Prop :=
  (∃ item ∈ s.items, c.cfg.next item = some k) ∧
    ∃ t, c.automaton.states[target]? = some t ∧
      ∀ i, i ∈ t.kernel ↔ ∃ item ∈ s.items, c.cfg.next item = some k ∧ i = item.advance

/-- The productions whose completed item is in the state with the key as a lookahead, in the order
of the items. -/
def candidates (c : Compiled) (q : StateId) (s : State) (k : TermId) : List ProductionId :=
  (s.items.filter fun item =>
    c.cfg.isComplete item && k ∈ c.automaton.lookaheadsOf q item).map Item.production

/-- The term is registered as an operator. -/
def HasPrecedence (c : Compiled) (k : TermId) : Prop :=
  ∃ t, c.terms[k]? = some t ∧ t.precedence.isSome = true

/-- An item of the state asks to shift the key, where it has it behind the dot. -/
def PrefersShift (c : Compiled) (s : State) (k : TermId) : Prop :=
  ∃ item ∈ s.items, c.cfg.next item = some k ∧ ∃ p, c.cfg.productions[item.production]? = some p ∧
    (item.position, Hint.preferShift) ∈ p.hints

/-- The production asks to be reduced, at its end. -/
def PrefersReduce (c : Compiled) (i : ProductionId) : Prop :=
  ∃ p, c.cfg.productions[i]? = some p ∧ (p.rhs.length, Hint.preferReduce) ∈ p.hints

/-- The productions of a record, in the order in which it chooses, by those there are to choose
from: the first that asks to be reduced is moved to the front. -/
inductive Chooses (c : Compiled) : List ProductionId → List ProductionId → Prop
  | unasked {all : List ProductionId} (hall : ∀ i ∈ all, ¬ c.PrefersReduce i) : Chooses c all all
  | asked {before after : List ProductionId} {i : ProductionId}
      (hbefore : ∀ j ∈ before, ¬ c.PrefersReduce j) (hi : c.PrefersReduce i) :
      Chooses c (before ++ i :: after) (i :: (before ++ after))

/-- The kind of a record of the state, by where it moves and what it could reduce. -/
inductive Decides (c : Compiled) (s : State) (k : TermId) :
    Option StateId → List ProductionId → ActionKind → Prop
  | move {target : Option StateId} : Decides c s k target [] .shift
  | accept (hk : k = TermId.eof) : Decides c s k none [ProductionId.root] .accept
  | reduce {i : ProductionId} {rest : List ProductionId}
      (hroot : ¬ (k = TermId.eof ∧ i :: rest = [ProductionId.root])) :
      Decides c s k none (i :: rest) .reduce
  /-- Where both are possible, an operator is left to parse time. -/
  | operator {target : StateId} {i : ProductionId} {rest : List ProductionId}
      (hoperator : c.HasPrecedence k) : Decides c s k (some target) (i :: rest) .operator
  /-- Else a hint at the key decides. -/
  | shiftHint {target : StateId} {i : ProductionId} {rest : List ProductionId}
      (hoperator : ¬ c.HasPrecedence k) (hshift : c.PrefersShift s k) :
      Decides c s k (some target) (i :: rest) .shift
  /-- Else one of the production in front does. -/
  | reduceHint {target : StateId} {i : ProductionId} {rest : List ProductionId}
      (hoperator : ¬ c.HasPrecedence k) (hshift : ¬ c.PrefersShift s k) (hi : c.PrefersReduce i) :
      Decides c s k (some target) (i :: rest) .reduce
  /-- And where nothing decides, the key is shifted. -/
  | default {target : StateId} {i : ProductionId} {rest : List ProductionId}
      (hoperator : ¬ c.HasPrecedence k) (hshift : ¬ c.PrefersShift s k) (hi : ¬ c.PrefersReduce i) :
      Decides c s k (some target) (i :: rest) .shift

/-- The record is the one that a state has to have for a key. -/
structure RecordFor (c : Compiled) (q : StateId) (s : State) (k : TermId) (r : Record) : Prop where
  target  : ∀ target, r.target = some target ↔ c.MovesTo s k target
  reduces : c.Chooses (c.candidates q s k) r.reduces
  kind    : c.Decides s k r.target r.reduces r.kind

/-- The keys of the records of a state, in order. -/
def recordKeys (c : Compiled) (q : StateId) : List TermId := (c.records[q]?.getD []).map Prod.fst

variable {c : Compiled} {q : StateId} {k : TermId} {s : State}

/-! ## Disputes by items -/

theorem isOperatorIn_iff : isOperatorIn c.terms k = true ↔ c.HasPrecedence k := by
  unfold isOperatorIn HasPrecedence
  cases c.terms[k]? <;> simp [Term.isOperator]

theorem prefersReduce_iff {i : ProductionId} :
    (c.disputeAt q k).prefersReduce i = true ↔ c.PrefersReduce i := by
  show (c.cfg.productions[i]?.map Production.prefersReduce).getD false = true ↔ _
  unfold PrefersReduce
  cases c.cfg.productions[i]? <;> simp [Production.prefersReduce, Production.hasHint]

theorem hasHint_iff {item : Item} {hint : Hint} :
    c.cfg.hasHint item hint = true ↔
      ∃ p, c.cfg.productions[item.production]? = some p ∧ (item.position, hint) ∈ p.hints := by
  unfold Cfg.hasHint
  cases c.cfg.productions[item.production]? <;> simp [Production.hasHint]

theorem Built.itemsOf_eq (hb : c.Built) (hs : c.automaton.states[q]? = some s) :
    c.cfg.itemsOf q = s.items :=
  Cfg.itemsOf_eq (hb.states_eq ▸ hs)

theorem Built.prefersShift_iff (hb : c.Built) (hs : c.automaton.states[q]? = some s) :
    (c.disputeAt q k).prefersShift = true ↔ c.PrefersShift s k := by
  show ((c.cfg.itemsOf q).any fun item =>
    c.cfg.next item == some k && c.cfg.hasHint item .preferShift) = true ↔ _
  rw [hb.itemsOf_eq hs]
  simp only [List.any_eq_true, Bool.and_eq_true, beq_iff_eq, hasHint_iff]
  rfl

theorem Built.candidates_eq (hb : c.Built) (hs : c.automaton.states[q]? = some s) :
    (c.disputeAt q k).candidates = c.candidates q s k := by
  show ((((c.cfg.itemsOf q).filter c.cfg.isComplete).filter fun item =>
    k ∈ (Automaton.ofCfg c.cfg c.cfg.facts).lookaheadsOf q item).map Item.production) = _
  rw [hb.itemsOf_eq hs, ← hb.automaton, List.filter_filter]
  refine congrArg (List.map Item.production) (List.filter_congr fun item _ => ?_)
  exact Bool.and_comm _ _

/-- The state moves where the canonical collection says it does. -/
theorem Built.target_iff (hb : c.Built) (hs : c.automaton.states[q]? = some s)
    {target : StateId} : (c.disputeAt q k).target = some target ↔ c.MovesTo s k target := by
  have hcollection := hb.augmented.canonicalCollection
  rw [hb.states_eq] at hs
  show c.cfg.goto? q k = some target ↔ _
  constructor
  · intro hgoto
    obtain ⟨t, ht, hkernel⟩ := hcollection.moved q s k target hs hgoto
    exact ⟨(hcollection.moves q s k hs).mp (by rw [hgoto]; rfl), t, hb.states_eq ▸ ht, hkernel⟩
  · rintro ⟨hitem, t, ht, hkernel⟩
    rw [hb.states_eq] at ht
    obtain ⟨target', hgoto⟩ :=
      Option.isSome_iff_exists.mp ((hcollection.moves q s k hs).mpr hitem)
    obtain ⟨t', ht', hkernel'⟩ := hcollection.moved q s k target' hs hgoto
    -- Kernels are increasing, so two with the same items are one.
    have hsame : t'.kernel = t.kernel :=
      eq_of_pairwise_of_mem_iff Item.lt_irrefl Item.lt_trans
        (hcollection.increasing t' (List.mem_of_getElem? ht'))
        (hcollection.increasing t (List.mem_of_getElem? ht))
        fun i => (hkernel' i).trans (hkernel i).symm
    have heq := Cfg.eq_of_kernel (Cfg.kernel_of_state ht').1 (hsame ▸ (Cfg.kernel_of_state ht).1)
    rw [hgoto, heq]

/-! ## The record of a dispute -/

theorem chooses_ordered (c : Compiled) (q : StateId) (k : TermId) :
    c.Chooses (c.disputeAt q k).candidates (c.disputeAt q k).ordered := by
  cases hfind : (c.disputeAt q k).candidates.find? (c.disputeAt q k).prefersReduce with
  | none =>
    have hnone := List.find?_eq_none.mp hfind
    rw [Dispute.ordered_eq_candidates fun i hi => by simpa using hnone i hi]
    exact .unasked fun i hi hi' => hnone i hi (prefersReduce_iff.mpr hi')
  | some i =>
    obtain ⟨hi, before, after, hcandidates, hbefore⟩ := List.find?_eq_some_iff_append.mp hfind
    have hbefore : ∀ j ∈ before, (c.disputeAt q k).prefersReduce j = false := fun j hj => by
      simpa using hbefore j hj
    rw [Dispute.ordered_of_preferred hcandidates hi hbefore, hcandidates]
    refine .asked (fun j hj hj' => ?_) (prefersReduce_iff.mp hi)
    rw [← prefersReduce_iff (q := q) (k := k), hbefore j hj] at hj'
    exact Bool.false_ne_true hj'

theorem Built.decides_kind (hb : c.Built) (hs : c.automaton.states[q]? = some s) :
    c.Decides s k (c.disputeAt q k).target (c.disputeAt q k).ordered (c.disputeAt q k).kind := by
  have hoperator : (c.disputeAt q k).isOperator = true ↔ c.HasPrecedence k := isOperatorIn_iff
  have hshift := hb.prefersShift_iff (k := k) hs
  cases hordered : (c.disputeAt q k).ordered with
  | nil =>
    rw [Dispute.kind_of_ordered_nil hordered]
    exact .move
  | cons i rest =>
    cases htarget : (c.disputeAt q k).target with
    | none =>
      rw [Dispute.kind_of_target_none htarget hordered]
      have hkey : (c.disputeAt q k).key = k := rfl
      split
      · rename_i haccept
        obtain ⟨hk, rfl, rfl⟩ := haccept
        exact .accept (hkey ▸ hk)
      · rename_i hreduce
        refine .reduce fun h => hreduce ?_
        obtain ⟨rfl, rfl⟩ := List.cons.inj h.2
        exact ⟨h.1, rfl, rfl⟩
    | some target =>
      rw [Dispute.kind_of_target_some htarget hordered]
      by_cases h₁ : c.HasPrecedence k
      · rw [if_pos (hoperator.mpr h₁)]
        exact .operator h₁
      · rw [if_neg (mt hoperator.mp h₁)]
        by_cases h₂ : c.PrefersShift s k
        · rw [if_pos (hshift.mpr h₂)]
          exact .shiftHint h₁ h₂
        · rw [if_neg (mt hshift.mp h₂)]
          by_cases h₃ : c.PrefersReduce i
          · rw [if_pos (prefersReduce_iff.mpr h₃)]
            exact .reduceHint h₁ h₂ h₃
          · rw [if_neg (mt prefersReduce_iff.mp h₃)]
            exact .default h₁ h₂ h₃

theorem Built.recordFor (hb : c.Built) (hs : c.automaton.states[q]? = some s) :
    c.RecordFor q s k (c.disputeAt q k).resolve.1 := by
  rw [Dispute.resolve_fst]
  exact ⟨fun _ => hb.target_iff hs, hb.candidates_eq hs ▸ chooses_ordered c q k,
    hb.decides_kind hs⟩

/-- No key has two records. -/
theorem Built.nodup_recordKeys (hb : c.Built) (q : StateId) : (c.recordKeys q).Nodup := by
  rw [recordKeys, hb.records, disputes, hb.automaton, Automaton.records_getElem? hb.augmented]
  cases hs : c.cfg.states[q]? with
  | none => exact List.nodup_nil
  | some s =>
    rw [Option.map_some, Option.getD_some, List.map_map]
    exact (List.map_id _).symm ▸ nodup_appendNew (Automaton.nodup_moves hs)

/-- **The records are exact**, for every definition that compiles: there is a row of records for
each state, with no key twice, and a state has a record for a key iff it moves over the key or has a
candidate. No candidate is listed twice, and the record is the one that it has to be. -/
theorem records_exact [Text.Xid] {ignoreCase : Bool} {commands : List Command}
    (h : (Definition.ofCommands ignoreCase commands).compile = .ok c) :
    c.records.length = c.automaton.states.length ∧
      (∀ row ∈ c.records, (row.map Prod.fst).Nodup) ∧
      ∀ q s, c.automaton.states[q]? = some s → ∀ k,
        (c.candidates q s k).Nodup ∧
        ((∃ r, c.records.find? q k = some r) ↔
          (∃ target, c.MovesTo s k target) ∨ c.candidates q s k ≠ []) ∧
        ∀ r, c.records.find? q k = some r → c.RecordFor q s k r := by
  have hb := Definition.built_of_compile h
  refine ⟨hb.length_records, ?_, ?_⟩
  · intro row hmem
    obtain ⟨q, hq⟩ := List.mem_iff_getElem?.mp hmem
    have hnodup := hb.nodup_recordKeys q
    rwa [recordKeys, hq] at hnodup
  · intro q s hs k
    refine ⟨?_, ?_, ?_⟩
    · rw [← hb.candidates_eq hs]
      exact Automaton.nodup_candidates hb.augmented
    · have htarget : (c.disputeAt q k).target.isSome = true ↔ ∃ target, c.MovesTo s k target := by
        simp only [Option.isSome_iff_exists, hb.target_iff hs]
      simp only [hb.find?_iff, Dispute.IsPosed, htarget, hb.candidates_eq hs]
      constructor
      · rintro ⟨r, hposed, -⟩
        exact hposed
      · intro hposed
        exact ⟨_, hposed, rfl⟩
    · intro r hr
      obtain ⟨-, rfl⟩ := hb.find?_iff.mp hr
      exact hb.recordFor hs

/-- `S` is `X z`, `Y z` or `x z`, and both `X` and `Y` are `x`. -/
def overlapping : List Command :=
  [.literal "x", .literal "z", .nonterminal "S", .nonterminal "X", .nonterminal "Y",
    .rule 5 ⟨[[.term 6, .term 4], [.term 7, .term 4], [.term 3, .term 4]]⟩, .rule 6 ⟨[[.term 3]]⟩,
    .rule 7 ⟨[[.term 3]]⟩, .root 5]

/-- The overlapping alternatives, compiled. -/
def overlappingCompiled : Compiled :=
  let d := Definition.ofCommands false overlapping
  d.compileCollection 5 (d.collect 5)

theorem compile_overlapping :
    (Definition.ofCommands false overlapping).compile = .ok overlappingCompiled :=
  Definition.compile_eq_ok (by decide) (by decide)

/-- Behind `x` there are a move over `z` and two candidates. -/
theorem records_exact_overlapping :
    (Definition.ofCommands false overlapping).compile = .ok overlappingCompiled ∧
      ∃ s, overlappingCompiled.automaton.states[4]? = some s ∧
        overlappingCompiled.RecordFor 4 s 4 ⟨.shift, some 7, [4, 5]⟩ := by
  obtain ⟨s, hs⟩ : ∃ s, overlappingCompiled.automaton.states[4]? = some s :=
    Option.isSome_iff_exists.mp (by decide)
  have hfind : overlappingCompiled.records.find? 4 4 = some ⟨.shift, some 7, [4, 5]⟩ := by
    decide
  exact ⟨compile_overlapping, s, hs,
    ((records_exact compile_overlapping).2.2 4 s hs 4).2.2 _ hfind⟩

end Compiled

end Lalr

import Lalr.Proofs.Automaton.Record
import Lalr.Proofs.Compiled.Built

/-!
# What the parse table chooses

Whatever a compiled grammar makes of conflicts, hints and operators, the step it settles on is one
that the automaton allows (**`Built.allows_of_choose`**): a move of the automaton, the reduction of
a completed item with the symbol ahead as its lookahead, or accepting behind the root at the end of
input.

Where the automaton allows one step only, that is what the table asks for, and where it allows a
shift over an operator and one reduction, the table asks for either
(**`Built.action_of_operator`**). Without operators, hints and conflicts there is always one step
only (`Decided.action_of_goto`, `Decided.action_of_reducible`).
-/

namespace Lalr

/-- The steps that the automaton allows in a state for a key. -/
inductive Cfg.Allows (g : Cfg) (q : StateId) (k : TermId) :
    Choice StateId TermId ProductionId → Prop
  | shift {target : StateId} (h : g.goto? q k = some target) : Allows g q k (.shift target)
  | reduce {i : ProductionId} {p : Production} (hp : g.productions[i]? = some p)
      (hk : g.Lookahead q ⟨i, p.rhs.length⟩ k) : Allows g q k (.reduce i p.lhs p.rhs.length)
  | accept (hk : k = TermId.eof) (hl : g.Lookahead q ⟨ProductionId.root, 1⟩ k) :
      Allows g q k .accept

namespace Compiled

variable {c : Compiled} {q : StateId} {k : TermId}

/-- What the choice in a state for a key depends on. -/
def disputeAt (c : Compiled) (q : StateId) (k : TermId) : Dispute :=
  Automaton.disputeAt c.cfg (isOperatorIn c.terms) q k

theorem Built.find?_iff (hb : c.Built) {r : Record} :
    c.records.find? q k = some r ↔ (c.disputeAt q k).IsPosed ∧ r = (c.disputeAt q k).resolve.1 := by
  rw [hb.records, disputes, hb.automaton]
  exact Automaton.find?_records_iff hb.augmented

/-- A production that a record may reduce is one the automaton allows. -/
theorem Built.allows_reduce (hb : c.Built) {i : ProductionId} {p : Production}
    (hi : (c.disputeAt q k).ordered.head? = some i) (hp : c.cfg.productions[i]? = some p) :
    c.cfg.Allows q k (.reduce i p.lhs p.rhs.length) := by
  have hmem := Dispute.mem_ordered.mp (List.mem_of_mem_head? hi)
  obtain ⟨p', hp', hk⟩ := (Automaton.mem_candidates hb.augmented).mp hmem
  obtain rfl : p = p' := Option.some.inj (hp.symm.trans hp')
  exact .reduce hp hk

theorem Built.allows_accept (hb : c.Built) (h : (c.disputeAt q k).kind = .accept) :
    c.cfg.Allows q k .accept := by
  obtain ⟨hkey, -, hordered⟩ := Dispute.kind_eq_accept h
  have hmem : ProductionId.root ∈ (c.disputeAt q k).candidates :=
    Dispute.mem_ordered.mp (by rw [hordered]; exact List.mem_singleton_self _)
  obtain ⟨p, hp, hk⟩ := (Automaton.mem_candidates hb.augmented).mp hmem
  obtain rfl := Option.some.inj (hp.symm.trans hb.augmented.root_production)
  exact .accept hkey hk

theorem action_of_find? {ahead : Option TermId} {r : Record}
    (h : c.records.find? q (ahead.getD TermId.eof) = some r) : c.action q ahead = c.actionOf r := by
  obtain ⟨row, hrow, hr⟩ := Option.bind_eq_some_iff.mp h
  simp only [action, hrow, hr]

/-- Without a record the table refuses. -/
theorem action_of_find?_none {ahead : Option TermId}
    (h : c.records.find? q (ahead.getD TermId.eof) = none) :
    ∃ cause, c.action q ahead = .refuse cause := by
  unfold action
  split
  · exact ⟨_, rfl⟩
  · rename_i row hrow
    rw [Records.find?, hrow, Option.bind_some] at h
    rw [h]
    exact ⟨_, rfl⟩

/-- **The table settles only on steps that the automaton allows.** -/
theorem Built.allows_of_choose (hb : c.Built) {entries : List (Entry TermId)}
    {ahead : Option TermId} {choice : Choice StateId TermId ProductionId}
    (h : c.table.choose entries ahead (c.table.action q ahead) = .ok choice) :
    c.cfg.Allows q (ahead.getD TermId.eof) choice := by
  replace h : c.table.choose entries ahead (c.action q ahead) = .ok choice := h
  cases hfind : c.records.find? q (ahead.getD TermId.eof) with
  | none =>
    obtain ⟨cause, hcause⟩ := action_of_find?_none hfind
    rw [hcause] at h
    exact absurd h (by simp [Table.choose])
  | some r =>
    obtain ⟨-, rfl⟩ := hb.find?_iff.mp hfind
    rw [action_of_find? hfind, Dispute.resolve_fst] at h
    have hreduce : ∀ {i : ProductionId} {p : Production},
        ((c.disputeAt q (ahead.getD TermId.eof)).ordered.head?.bind fun i =>
          (c.cfg.productions[i]?).map fun p => (i, p)) = some (i, p) →
        c.cfg.Allows q (ahead.getD TermId.eof) (.reduce i p.lhs p.rhs.length) := by
      intro i p hip
      obtain ⟨j, hj, hp⟩ := Option.bind_eq_some_iff.mp hip
      obtain ⟨p', hp', heq⟩ := Option.map_eq_some_iff.mp hp
      obtain ⟨rfl, rfl⟩ := Prod.mk.inj heq
      exact hb.allows_reduce hj hp'
    unfold actionOf at h
    dsimp only at h
    split at h
    · rename_i hkind
      obtain rfl := Except.ok.inj h
      exact hb.allows_accept hkind
    · rename_i target _ htarget
      obtain rfl := Except.ok.inj h
      exact .shift htarget
    · rename_i i p _ hip
      obtain rfl := Except.ok.inj h
      exact hreduce hip
    · rename_i target i p _ htarget hip
      simp only [Table.choose] at h
      split at h
      · obtain rfl := Except.ok.inj h
        exact .shift htarget
      · obtain rfl := Except.ok.inj h
        exact hreduce hip
      · simp at h
    · simp [Table.choose] at h

/-! ## Clear choices -/

theorem Built.action_eq (hb : c.Built) {ahead : Option TermId}
    (hposed : (c.disputeAt q (ahead.getD TermId.eof)).IsPosed) :
    c.table.action q ahead = c.actionOf (c.disputeAt q (ahead.getD TermId.eof)).resolve.1 :=
  action_of_find? (hb.find?_iff.mpr ⟨hposed, rfl⟩)

/-- A production that is the only one to be reduced is the one that a record reduces. -/
theorem Built.ordered_eq (hb : c.Built) {i : ProductionId} (hi : c.cfg.Reducible q k i)
    (honly : ∀ j, c.cfg.Reducible q k j → j = i) : (c.disputeAt q k).ordered = [i] := by
  have hmem : ∀ {j}, j ∈ (c.disputeAt q k).candidates ↔ c.cfg.Reducible q k j :=
    Automaton.mem_candidates hb.augmented
  have hnodup : (c.disputeAt q k).candidates.Nodup := Automaton.nodup_candidates hb.augmented
  refine Dispute.ordered_of_candidates (List.perm_singleton.mp ?_)
  refine (List.perm_ext_iff_of_nodup hnodup (List.nodup_singleton i)).mpr fun j => ?_
  rw [hmem, List.mem_singleton]
  exact ⟨honly j, fun hj => hj ▸ hi⟩

/-- **Where the automaton moves and nothing can be reduced, the table shifts.** -/
theorem Built.action_of_goto (hb : c.Built) {target : StateId} {ahead : Option TermId}
    (h : c.cfg.goto? q (ahead.getD TermId.eof) = some target)
    (hnone : ∀ i, ¬ c.cfg.Reducible q (ahead.getD TermId.eof) i) :
    c.table.action q ahead = .shift target := by
  have htarget : (c.disputeAt q (ahead.getD TermId.eof)).target = some target := h
  have hposed : (c.disputeAt q (ahead.getD TermId.eof)).IsPosed := Or.inl (by rw [htarget]; rfl)
  have hordered : (c.disputeAt q (ahead.getD TermId.eof)).ordered = [] := by
    rw [Dispute.ordered_eq_nil_iff, List.eq_nil_iff_forall_not_mem]
    exact fun i hi => hnone i ((Automaton.mem_candidates hb.augmented).mp hi)
  have haction := hb.action_eq hposed
  rw [Dispute.resolve_fst, Dispute.kind, hordered, htarget] at haction
  exact haction

/-- **Where a single completed item has the symbol ahead as its lookahead and the automaton does
not move, the table reduces** it, or accepts if it is the augmented root's. -/
theorem Built.action_of_reducible (hb : c.Built) (ahead : Option TermId) {i : ProductionId}
    {p : Production} (hp : c.cfg.productions[i]? = some p)
    (hk : c.cfg.Lookahead q ⟨i, p.rhs.length⟩ (ahead.getD TermId.eof))
    (hgoto : c.cfg.goto? q (ahead.getD TermId.eof) = none)
    (honly : ∀ j, c.cfg.Reducible q (ahead.getD TermId.eof) j → j = i) :
    c.table.action q ahead =
      if ahead.getD TermId.eof = TermId.eof ∧ i = ProductionId.root then .accept
      else .reduce i p.lhs p.rhs.length := by
  have hordered := hb.ordered_eq ⟨p, hp, hk⟩ honly
  have hposed : (c.disputeAt q (ahead.getD TermId.eof)).IsPosed :=
    Or.inr fun hnil => by simp [Dispute.ordered_eq_nil_iff.mpr hnil] at hordered
  have htarget : (c.disputeAt q (ahead.getD TermId.eof)).target = none := hgoto
  have hkey : (c.disputeAt q (ahead.getD TermId.eof)).key = ahead.getD TermId.eof := rfl
  have hkind := Dispute.kind_of_target_none htarget hordered
  rw [hkey] at hkind
  rw [hb.action_eq hposed, Dispute.resolve_fst, hkind, hordered, htarget]
  by_cases hroot : ahead.getD TermId.eof = TermId.eof ∧ i = ProductionId.root
  · simp [actionOf, hroot]
  · have hnot : ¬ (ahead.getD TermId.eof = TermId.eof ∧ i = ProductionId.root ∧
        ([] : List ProductionId) = []) := fun h => hroot ⟨h.1, h.2.1⟩
    rw [if_neg hnot, if_neg hroot]
    simp [actionOf, hp]

/-- **Where the automaton moves over an operator and a single production can be reduced, the table
leaves the choice to parse time.** -/
theorem Built.action_of_operator (hb : c.Built) {ahead : Option TermId} {target : StateId}
    (hgoto : c.cfg.goto? q (ahead.getD TermId.eof) = some target)
    (hoperator : isOperatorIn c.terms (ahead.getD TermId.eof) = true) {i : ProductionId}
    {p : Production} (hp : c.cfg.productions[i]? = some p)
    (hk : c.cfg.Lookahead q ⟨i, p.rhs.length⟩ (ahead.getD TermId.eof))
    (honly : ∀ j, c.cfg.Reducible q (ahead.getD TermId.eof) j → j = i) :
    c.table.action q ahead = .operator target i p.lhs p.rhs.length := by
  have hordered := hb.ordered_eq ⟨p, hp, hk⟩ honly
  have htarget : (c.disputeAt q (ahead.getD TermId.eof)).target = some target := hgoto
  have hposed : (c.disputeAt q (ahead.getD TermId.eof)).IsPosed := Or.inl (by rw [htarget]; rfl)
  have hkind : (c.disputeAt q (ahead.getD TermId.eof)).kind = .operator := by
    rw [Dispute.kind, hordered, htarget]
    exact congrArg Prod.fst (if_pos hoperator)
  rw [hb.action_eq hposed, Dispute.resolve_fst, hkind, hordered, htarget]
  simp [actionOf, hp]

/-! ## Nothing to settle -/

/-- The grammar has no operators, no hints and no conflicts. -/
structure Decided (c : Compiled) : Prop where
  built     : c.Built
  operators : ∀ x, isOperatorIn c.terms x = false
  hints     : ∀ p ∈ c.cfg.productions, p.hints = []
  conflicts : Automaton.conflicts c.disputes = []

/-- A plain definition without logged conflicts is decided. -/
theorem decided_of_compile [Text.Xid] {ignoreCase : Bool} {commands : List Command}
    (h : (Definition.ofCommands ignoreCase commands).compile = .ok c)
    (hplain : (Definition.ofCommands ignoreCase commands).isPlain = true)
    (hlog : c.log.ofLevel .conflict = []) : c.Decided := by
  obtain ⟨hoperators, hhints⟩ :=
    (Definition.wellFormed_ofCommands ignoreCase commands).plain hplain h
  exact ⟨Definition.built_of_compile h, hoperators, hhints, Definition.conflicts_eq_nil h hlog⟩

namespace Decided

theorem prefersShift_eq_false (hd : c.Decided) : (c.disputeAt q k).prefersShift = false := by
  refine List.any_eq_false.mpr ?_
  intro item _
  have hhint : c.cfg.hasHint item .preferShift = false := by
    unfold Cfg.hasHint
    cases hp : c.cfg.productions[item.production]? with
    | none => rfl
    | some p =>
      have hnil := hd.hints p (List.mem_of_getElem? hp)
      simp [Production.hasHint, hnil]
  simp [hhint]

theorem prefersReduce_eq_false (hd : c.Decided) (i : ProductionId) :
    (c.disputeAt q k).prefersReduce i = false := by
  show (c.cfg.productions[i]?.map Production.prefersReduce).getD false = false
  cases hp : c.cfg.productions[i]? with
  | none => rfl
  | some p =>
    have hnil := hd.hints p (List.mem_of_getElem? hp)
    simp [Production.prefersReduce, Production.hasHint, hnil]

/-- In no state is there a choice. -/
theorem unique (hd : c.Decided) (hposed : (c.disputeAt q k).IsPosed) :
    ((c.disputeAt q k).target = none ∨ (c.disputeAt q k).candidates = []) ∧
      (c.disputeAt q k).candidates.length ≤ 1 := by
  have hconflicts := hd.conflicts
  rw [disputes, hd.built.automaton] at hconflicts
  exact Dispute.unique_of_resolve_snd
    (Automaton.resolve_snd_eq_nil hd.built.augmented hconflicts hposed)
    (hd.operators k) hd.prefersShift_eq_false hd.prefersReduce_eq_false

theorem eq_of_reducible (hd : c.Decided) {i j : ProductionId} (hi : c.cfg.Reducible q k i)
    (hj : c.cfg.Reducible q k j) : i = j := by
  have hmem : ∀ {i}, c.cfg.Reducible q k i → i ∈ (c.disputeAt q k).candidates :=
    fun hi => (Automaton.mem_candidates hd.built.augmented).mpr hi
  have hlen := (hd.unique (Or.inr (List.ne_nil_of_mem (hmem hi)))).2
  obtain ⟨l, hl⟩ := List.length_eq_one_iff.mp
    (Nat.le_antisymm hlen (List.length_pos_of_mem (hmem hi)))
  have hi' := hmem hi
  have hj' := hmem hj
  rw [hl, List.mem_singleton] at hi' hj'
  exact hi'.trans hj'.symm

theorem not_reducible_of_goto (hd : c.Decided) {i : ProductionId} {target : StateId}
    (h : c.cfg.goto? q k = some target) : ¬ c.cfg.Reducible q k i := by
  intro hi
  have hmem : i ∈ (c.disputeAt q k).candidates :=
    (Automaton.mem_candidates hd.built.augmented).mpr hi
  have htarget : (c.disputeAt q k).target = some target := h
  rcases (hd.unique (Or.inr (List.ne_nil_of_mem hmem))).1 with hnone | hnil
  · rw [hnone] at htarget
    exact absurd htarget (by simp)
  · rw [hnil] at hmem
    exact absurd hmem List.not_mem_nil

/-- **Where the automaton moves, the table shifts.** -/
theorem action_of_goto (hd : c.Decided) {target : StateId} {ahead : Option TermId}
    (h : c.cfg.goto? q (ahead.getD TermId.eof) = some target) :
    c.table.action q ahead = .shift target :=
  hd.built.action_of_goto h fun _ => hd.not_reducible_of_goto h

/-- **Where a completed item has the symbol ahead as its lookahead, the table reduces** it, or
accepts if it is the augmented root's. -/
theorem action_of_reducible (hd : c.Decided) (ahead : Option TermId) {i : ProductionId}
    {p : Production} (hp : c.cfg.productions[i]? = some p)
    (hk : c.cfg.Lookahead q ⟨i, p.rhs.length⟩ (ahead.getD TermId.eof)) :
    c.table.action q ahead =
      if ahead.getD TermId.eof = TermId.eof ∧ i = ProductionId.root then .accept
      else .reduce i p.lhs p.rhs.length := by
  have hi : c.cfg.Reducible q (ahead.getD TermId.eof) i := ⟨p, hp, hk⟩
  refine hd.built.action_of_reducible ahead hp hk ?_ fun j hj => hd.eq_of_reducible hj hi
  refine Option.eq_none_iff_forall_ne_some.mpr fun target htarget => ?_
  exact hd.not_reducible_of_goto htarget hi

end Decided

end Compiled

end Lalr

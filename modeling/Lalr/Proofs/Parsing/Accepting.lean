import Lalr.Proofs.Automaton.Root
import Lalr.Proofs.Parsing.Soundness

/-!
# Where accepting is lost

Completing the augmented root at the end of input should be recorded as accepting. It is, unless
another production is complete in the same state with the end of input as its lookahead: the two
make a reduce-reduce conflict, and as the augmented root comes first it is reduced like any other
production (`RootDisputed`). **`root_reduction_exact`** says that this is the only way.

A parser that reduces the augmented root has nowhere to go from there. So the defect is fatal: a
grammar that has it accepts nothing at all. A root that derives itself by a unit rule has it
(`root_reduced_unitLoop`).
-/

namespace Lalr

/-! ## What actions say of records -/

namespace Table

variable {State Symbol Rule : Type} {table : Table State Symbol Rule}
  {entries : List (Entry Symbol)} {ahead : Option Symbol} {action : Action State Symbol Rule}

theorem eq_accept_of_choose (h : table.choose entries ahead action = .ok .accept) :
    action = .accept := by
  cases action with
  | accept => rfl
  | operator target rule lhs arity =>
    simp only [choose] at h
    split at h <;> simp at h
  | shift target => simp [choose] at h
  | reduce rule lhs arity => simp [choose] at h
  | refuse cause => simp [choose] at h

theorem eq_reduce_of_choose {rule : Rule} {lhs : Symbol} {arity : Nat}
    (h : table.choose entries ahead action = .ok (.reduce rule lhs arity)) :
    action = .reduce rule lhs arity ∨ ∃ target, action = .operator target rule lhs arity := by
  cases action with
  | accept => simp [choose] at h
  | operator target rule' lhs' arity' =>
    simp only [choose] at h
    split at h
    · simp at h
    · obtain ⟨rfl, rfl, rfl⟩ := by simpa using h
      exact Or.inr ⟨target, rfl⟩
    · simp at h
  | shift target => simp [choose] at h
  | reduce rule' lhs' arity' =>
    obtain ⟨rfl, rfl, rfl⟩ := by simpa [choose] using h
    exact Or.inl rfl
  | refuse cause => simp [choose] at h

end Table

namespace Compiled

variable {c : Compiled} {q : StateId} {k : TermId}

theorem kind_of_actionOf_accept {r : Record} (h : c.actionOf r = .accept) : r.kind = .accept := by
  unfold actionOf at h
  dsimp only at h
  split at h
  · assumption
  · simp at h
  · simp at h
  · simp at h
  · simp at h

/-- A record that asks for a reduction is one of a reduction or of an operator, and the production
is the first it has. -/
theorem kind_of_actionOf_reduce {r : Record} {i : ProductionId} {lhs : TermId} {arity : Nat}
    (h : c.actionOf r = .reduce i lhs arity ∨
      ∃ target, c.actionOf r = .operator target i lhs arity) :
    (r.kind = .reduce ∨ r.kind = .operator) ∧ r.reduces.head? = some i := by
  have hhead : ∀ {i' : ProductionId} {p : Production},
      (r.reduces.head?.bind fun i => (c.cfg.productions[i]?).map fun p => (i, p)) = some (i', p) →
      r.reduces.head? = some i' := by
    intro i' p hip
    obtain ⟨j, hj, hp⟩ := Option.bind_eq_some_iff.mp hip
    obtain ⟨p', -, heq⟩ := Option.map_eq_some_iff.mp hp
    obtain ⟨rfl, -⟩ := Prod.mk.inj heq
    exact hj
  unfold actionOf at h
  dsimp only at h
  split at h
  · simp at h
  · simp at h
  · rename_i hkind hip
    obtain ⟨rfl, -, -⟩ := by simpa using h
    exact ⟨Or.inl hkind, hhead hip⟩
  · rename_i hkind _ hip
    obtain ⟨rfl, -, -⟩ := by simpa using h
    exact ⟨Or.inr hkind, hhead hip⟩
  · simp at h

/-- The action is that of a record, or a refusal. -/
theorem exists_record_of_action {ahead : Option TermId}
    {action : Action StateId TermId ProductionId} (h : c.action q ahead = action)
    (hne : ∀ cause, action ≠ .refuse cause) :
    ∃ r, c.records.find? q (ahead.getD TermId.eof) = some r ∧ c.actionOf r = action := by
  cases hfind : c.records.find? q (ahead.getD TermId.eof) with
  | none =>
    obtain ⟨cause, hcause⟩ := action_of_find?_none hfind
    exact absurd (h.symm.trans hcause) (hne cause)
  | some r => exact ⟨r, rfl, (action_of_find? hfind).symm.trans h⟩

/-! ## The defect -/

/-- The augmented root is complete in the state, but so is another production before the end of
input; the automaton does not move over the end of input, and no rule asks to be reduced. -/
structure RootDisputed (c : Compiled) (q : StateId) : Prop where
  complete  : (⟨ProductionId.root, 1⟩ : Item) ∈ c.cfg.itemsOf q
  blocked   : c.cfg.goto? q TermId.eof = none
  other     : ∃ i, i ≠ ProductionId.root ∧ c.cfg.Reducible q TermId.eof i
  unsettled : ∀ i p, c.cfg.Reducible q TermId.eof i → c.cfg.productions[i]? = some p →
    p.prefersReduce = false

theorem Built.reducible_root_iff (hb : c.Built) :
    c.cfg.Reducible q k ProductionId.root ↔
      k = TermId.eof ∧ (⟨ProductionId.root, 1⟩ : Item) ∈ c.cfg.itemsOf q := by
  rw [← hb.augmented.lookahead_root_iff]
  constructor
  · rintro ⟨p, hp, hk⟩
    obtain rfl := Option.some.inj (hp.symm.trans hb.augmented.root_production)
    exact hk
  · exact fun hk => ⟨_, hb.augmented.root_production, hk⟩

theorem Built.prefersReduce_root (hb : c.Built) :
    (c.disputeAt q k).prefersReduce ProductionId.root = false := by
  show (c.cfg.productions[ProductionId.root]?.map Production.prefersReduce).getD false = false
  rw [hb.augmented.root_production]
  rfl

/-- The augmented root comes first among the candidates. -/
theorem Built.head_candidates (hb : c.Built)
    (hroot : ProductionId.root ∈ (c.disputeAt q k).candidates) :
    (c.disputeAt q k).candidates.head? = some ProductionId.root := by
  obtain ⟨rfl, hi⟩ := hb.reducible_root_iff.mp ((Automaton.mem_candidates hb.augmented).mp hroot)
  have hcomplete : c.cfg.isComplete ⟨ProductionId.root, 1⟩ = true :=
    (hb.augmented.isComplete_iff hi hb.augmented.root_production).mpr rfl
  have hlookahead := (hb.augmented.mem_lookaheadsOf_iff hi).mpr
    (hb.augmented.lookahead_root_iff.mpr ⟨rfl, hi⟩)
  obtain ⟨rest, hrest⟩ := hb.augmented.items_root_complete hi
  show ((((c.cfg.itemsOf q).filter c.cfg.isComplete).filter fun item =>
    TermId.eof ∈ (Automaton.ofCfg c.cfg c.cfg.facts).lookaheadsOf q item).map
      Item.production).head? = _
  rw [hrest, List.filter_cons_of_pos hcomplete, List.filter_cons_of_pos (by simpa using hlookahead)]
  rfl

/-- The augmented root is chosen if it can be and no rule asks to be reduced. -/
theorem Built.head_ordered_iff (hb : c.Built) :
    (c.disputeAt q k).ordered.head? = some ProductionId.root ↔
      ProductionId.root ∈ (c.disputeAt q k).candidates ∧
        ∀ i ∈ (c.disputeAt q k).candidates, (c.disputeAt q k).prefersReduce i = false := by
  unfold Dispute.ordered
  cases hfind : (c.disputeAt q k).candidates.find? (c.disputeAt q k).prefersReduce with
  | some i =>
    have hprefers := List.find?_some hfind
    constructor
    · intro hhead
      obtain rfl : i = ProductionId.root := Option.some.inj hhead
      rw [hb.prefersReduce_root] at hprefers
      exact absurd hprefers Bool.false_ne_true
    · rintro ⟨-, hnone⟩
      rw [hnone i (List.mem_of_find?_eq_some hfind)] at hprefers
      exact absurd hprefers Bool.false_ne_true
  | none =>
    have hnone := List.find?_eq_none.mp hfind
    exact ⟨fun hhead => ⟨List.mem_of_mem_head? hhead, fun i hi => by simpa using hnone i hi⟩,
      fun h => hb.head_candidates h.1⟩

/-- Where the automaton could move over the end of input, the augmented root is not reduced. -/
theorem Built.kind_of_target (hb : c.Built) {target : StateId}
    (htarget : (c.disputeAt q TermId.eof).target = some target) {rest : List ProductionId}
    (hordered : (c.disputeAt q TermId.eof).ordered = ProductionId.root :: rest) :
    (c.disputeAt q TermId.eof).kind = .shift := by
  have hoperator : (c.disputeAt q TermId.eof).isOperator = false := hb.eof
  unfold Dispute.kind
  rw [hordered, htarget]
  by_cases hshift : (c.disputeAt q TermId.eof).prefersShift = true
  · simp [Dispute.shiftOrReduce, hoperator, hshift]
  · simp [Dispute.shiftOrReduce, hoperator, hshift, hb.prefersReduce_root]

/-- A dispute comes to a reduction of the augmented root if nothing but other productions
stands against it. -/
theorem Built.kind_reduce_iff (hb : c.Built) {rest : List ProductionId}
    (hordered : (c.disputeAt q TermId.eof).ordered = ProductionId.root :: rest) :
    ((c.disputeAt q TermId.eof).kind = .reduce ∨ (c.disputeAt q TermId.eof).kind = .operator) ↔
      (c.disputeAt q TermId.eof).target = none ∧ rest ≠ [] := by
  cases htarget : (c.disputeAt q TermId.eof).target with
  | some target => simp [hb.kind_of_target htarget hordered]
  | none =>
    have hkey : (c.disputeAt q TermId.eof).key = TermId.eof := rfl
    rw [Dispute.kind_of_target_none htarget hordered]
    by_cases hrest : rest = []
    · simp [hkey, hrest]
    · simp [hrest]

/-- The augmented root is disputed where it is chosen before another production, and the automaton
does not move. -/
theorem Built.rootDisputed_iff (hb : c.Built) :
    c.RootDisputed q ↔ (c.disputeAt q TermId.eof).target = none ∧
      ∃ i rest, (c.disputeAt q TermId.eof).ordered = ProductionId.root :: i :: rest := by
  have hprefers : ∀ {i : ProductionId} {p : Production}, c.cfg.productions[i]? = some p →
      (c.disputeAt q TermId.eof).prefersReduce i = p.prefersReduce := by
    intro i p hp
    show (c.cfg.productions[i]?.map Production.prefersReduce).getD false = _
    rw [hp]
    rfl
  have hmem : ∀ {i : ProductionId}, i ∈ (c.disputeAt q TermId.eof).candidates ↔
      c.cfg.Reducible q TermId.eof i := Automaton.mem_candidates hb.augmented
  constructor
  · intro h
    obtain ⟨i, hne, hi⟩ := h.other
    have hroot := hmem.mpr (hb.reducible_root_iff.mpr ⟨rfl, h.complete⟩)
    have hhead := hb.head_ordered_iff.mpr ⟨hroot, fun j hj => by
      obtain ⟨p, hp, hk⟩ := hmem.mp hj
      rw [hprefers hp]
      exact h.unsettled j p ⟨p, hp, hk⟩ hp⟩
    obtain ⟨rest, hordered⟩ := List.head?_eq_some_iff.mp hhead
    have hother : i ∈ ProductionId.root :: rest :=
      hordered ▸ Dispute.mem_ordered.mpr (hmem.mpr hi)
    cases rest with
    | nil => exact absurd (List.mem_singleton.mp hother) hne
    | cons j rest => exact ⟨h.blocked, j, rest, hordered⟩
  · rintro ⟨htarget, i, rest, hordered⟩
    obtain ⟨hroot, hunsettled⟩ := hb.head_ordered_iff.mp (by rw [hordered]; rfl)
    have hcandidates := (Dispute.ordered_eq_candidates hunsettled).symm.trans hordered
    have hnodup : (c.disputeAt q TermId.eof).candidates.Nodup :=
      Automaton.nodup_candidates hb.augmented
    rw [hcandidates] at hnodup
    refine ⟨(hb.reducible_root_iff.mp (hmem.mp hroot)).2, htarget, ⟨i, ?_, hmem.mp ?_⟩, ?_⟩
    · rintro rfl
      exact (List.nodup_cons.mp hnodup).1 List.mem_cons_self
    · rw [hcandidates]
      exact List.mem_cons_of_mem _ List.mem_cons_self
    · intro j p hj hp
      rw [← hprefers hp]
      exact hunsettled j (hmem.mpr hj)

/-- **The augmented root is reduced, and not accepted, just where it is disputed.** -/
theorem Built.exists_root_reduction_iff (hb : c.Built) :
    (∃ r, c.records.find? q k = some r ∧ (r.kind = .reduce ∨ r.kind = .operator) ∧
      r.reduces.head? = some ProductionId.root) ↔ k = TermId.eof ∧ c.RootDisputed q := by
  rw [hb.rootDisputed_iff]
  constructor
  · rintro ⟨r, hfind, hkind, hhead⟩
    obtain ⟨-, rfl⟩ := hb.find?_iff.mp hfind
    rw [Dispute.resolve_fst] at hkind hhead
    have hroot := (hb.head_ordered_iff.mp hhead).1
    obtain ⟨rfl, -⟩ := hb.reducible_root_iff.mp ((Automaton.mem_candidates hb.augmented).mp hroot)
    obtain ⟨rest, hordered⟩ := List.head?_eq_some_iff.mp hhead
    obtain ⟨htarget, hrest⟩ := (hb.kind_reduce_iff hordered).mp hkind
    obtain ⟨i, rest, rfl⟩ := List.exists_cons_of_ne_nil hrest
    exact ⟨rfl, htarget, i, rest, hordered⟩
  · rintro ⟨rfl, htarget, i, rest, hordered⟩
    have hposed : (c.disputeAt q TermId.eof).IsPosed := by
      refine Or.inr ?_
      intro hnil
      rw [Dispute.ordered_eq_nil_iff.mpr hnil] at hordered
      simp at hordered
    refine ⟨_, hb.find?_iff.mpr ⟨hposed, rfl⟩, ?_⟩
    rw [Dispute.resolve_fst]
    exact ⟨(hb.kind_reduce_iff hordered).mpr ⟨htarget, List.cons_ne_nil _ _⟩, by rw [hordered]; rfl⟩

/-! ## Runs -/

/-- A parser reduces the augmented root only where it is disputed. -/
theorem Built.rootDisputed_of_nextEvent (hb : c.Built) {m m' : Machine StateId TermId}
    {source source' : Source TermId} {args : List (Entry TermId)}
    (h : m.nextEvent c.table source = (.ok (.reduce ProductionId.root, args), m', source')) :
    ∃ q, c.RootDisputed q := by
  obtain ⟨q, entries, ahead, lhs, arity, hchoose⟩ := Machine.choose_of_reduce h
  have hreduce := Table.eq_reduce_of_choose hchoose
  obtain ⟨r, hfind, hr⟩ : ∃ r, c.records.find? q (ahead.getD TermId.eof) = some r ∧
      (c.actionOf r = .reduce ProductionId.root lhs arity ∨
        ∃ target, c.actionOf r = .operator target ProductionId.root lhs arity) := by
    rcases hreduce with hreduce | ⟨target, hoperator⟩
    · obtain ⟨r, hfind, hr⟩ := exists_record_of_action hreduce fun _ h => nomatch h
      exact ⟨r, hfind, Or.inl hr⟩
    · obtain ⟨r, hfind, hr⟩ := exists_record_of_action hoperator fun _ h => nomatch h
      exact ⟨r, hfind, Or.inr ⟨target, hr⟩⟩
  exact ⟨q, (hb.exists_root_reduction_iff.mp ⟨r, hfind, kind_of_actionOf_reduce hr⟩).2⟩

/-- The augmented root is disputed behind the root or nowhere. -/
theorem RootDisputed.goto_eq (hb : c.Built) (h : c.RootDisputed q) :
    c.cfg.goto? StateId.initial c.root = some q := by
  rcases hb.augmented.root_complete_cases h.complete with rfl | hgoto
  · obtain ⟨i, hne, p, hp, hk⟩ := h.other
    have heq := hb.augmented.eq_of_mem_final (hk.mem_itemsOf hb.augmented)
    exact absurd (congrArg Item.production heq) hne
  · exact hgoto

/-- Where the augmented root is disputed, the table does not accept. -/
theorem RootDisputed.not_accept (hb : c.Built) (h : c.RootDisputed q)
    {entries : List (Entry TermId)} {ahead : Option TermId}
    (hchoose : c.table.choose entries ahead (c.table.action q ahead) = .ok .accept) : False := by
  obtain ⟨r, hfind, hr⟩ := exists_record_of_action (Table.eq_accept_of_choose hchoose)
    fun _ h => nomatch h
  have hkind := kind_of_actionOf_accept hr
  obtain ⟨-, rfl⟩ := hb.find?_iff.mp hfind
  rw [Dispute.resolve_fst] at hkind
  obtain ⟨hkey, -, hordered⟩ := Dispute.kind_eq_accept hkind
  have hkey : ahead.getD TermId.eof = TermId.eof := hkey
  obtain ⟨-, i, rest, hordered'⟩ := hb.rootDisputed_iff.mp h
  rw [hkey, hordered'] at hordered
  simp at hordered

/-- A grammar in which the augmented root is disputed accepts nothing. -/
theorem RootDisputed.not_accepted (hb : c.Built) (h : c.RootDisputed q) {source : Source TermId}
    (hsource : ∀ t : Token TermId, .token t ∈ source → c.isTerminal t.symbol = true) {n : Nat}
    {done : List (Call TermId ProductionId)} {m m' : Machine StateId TermId}
    {rest rest' : Source TermId} {args : List (Entry TermId)}
    (hrun : Machine.calls c.table n (Machine.start c.table) source = (done, m, rest)) :
    m.nextEvent c.table rest ≠ (.ok (.accept, args), m', rest') := by
  intro hnext
  have hmode : m.mode ≠ .accepted := by
    intro hmode
    rw [Machine.nextEvent_of_accepted hmode] at hnext
    simp at hnext
  have hcalls := (Sound.start hsource).calls hb n
  rw [hrun] at hcalls
  obtain ⟨ts, hsound, -, -⟩ := hcalls.resolve_left hmode
  obtain ⟨ts', -, -, hreports⟩ := hsound.nextEvent hb hmode
  rw [hnext] at hreports
  -- The machine accepts in the state behind the root, which is the disputed one.
  obtain ⟨q₁, hstates, hgoto⟩ := hreports.states
  obtain rfl : q = q₁ := Option.some.inj ((h.goto_eq hb).symm.trans hgoto)
  obtain ⟨q₂, states, entries, ahead, -, hstates', hchoose⟩ := Machine.choose_of_accept hnext
  obtain ⟨rfl, -⟩ := List.cons.inj (hstates.symm.trans hstates')
  exact h.not_accept hb hchoose

/-- **Accepting is lost just where the augmented root is disputed**, for every definition that
compiles. The first part is about every record, and the second about every call of a parser in
whatever state. The third says that the grammar is of no use then: no call of any run over
terminals accepts. -/
theorem root_reduction_exact [Text.Xid] {ignoreCase : Bool} {commands : List Command}
    (h : (Definition.ofCommands ignoreCase commands).compile = .ok c) :
    (∀ q k, (∃ r, c.records.find? q k = some r ∧ (r.kind = .reduce ∨ r.kind = .operator) ∧
      r.reduces.head? = some ProductionId.root) ↔ k = TermId.eof ∧ c.RootDisputed q) ∧
    (∀ (m m' : Machine StateId TermId) (source source' : Source TermId)
      (args : List (Entry TermId)),
      m.nextEvent c.table source = (.ok (.reduce ProductionId.root, args), m', source') →
      ∃ q, c.RootDisputed q) ∧
    (∀ q, c.RootDisputed q → ∀ source : Source TermId,
      (∀ t : Token TermId, .token t ∈ source → c.isTerminal t.symbol = true) →
      ∀ n done m rest, Machine.calls c.table n (Machine.start c.table) source = (done, m, rest) →
        ∀ args m' rest', m.nextEvent c.table rest ≠ (.ok (.accept, args), m', rest')) := by
  have hb := Definition.built_of_compile h
  exact ⟨fun q k => hb.exists_root_reduction_iff,
    fun m m' source source' args hnext => hb.rootDisputed_of_nextEvent hnext,
    fun q hdisputed source hsource n done m rest hrun args m' rest' =>
      hdisputed.not_accepted hb hsource hrun⟩

/-- A root that may derive itself: `S` is `S` or `x`. -/
def unitLoop : List Command :=
  [.literal "x", .nonterminal "S", .rule 4 ⟨[[.term 4], [.term 3]]⟩, .root 4]

/-- The unit loop, compiled. -/
def unitLoopCompiled : Compiled :=
  let d := Definition.ofCommands false unitLoop
  d.compileCollection 4 (d.collect 4)

theorem compile_unitLoop : (Definition.ofCommands false unitLoop).compile = .ok unitLoopCompiled :=
  Definition.compile_eq_ok (by decide) (by decide)

theorem find?_unitLoop : unitLoopCompiled.records.find? 2 TermId.eof =
    some { kind := .reduce, target := none, reduces := [ProductionId.root, 1] } := by
  decide

/-- Behind the root the record is a reduction of the augmented root, and the run over `x` reports
it and is then stuck. -/
theorem root_reduced_unitLoop :
    (Definition.ofCommands false unitLoop).compile = .ok unitLoopCompiled ∧
      unitLoopCompiled.records.find? 2 TermId.eof =
        some { kind := .reduce, target := none, reduces := [ProductionId.root, 1] } ∧
      (Machine.calls unitLoopCompiled.table 3 (Machine.start unitLoopCompiled.table)
        [.token ⟨3, "x"⟩]).1.map Call.event =
          [.ok (.reduce 2), .ok (.reduce ProductionId.root),
            .error (.rejected .incorrectSymbol)] := by
  refine ⟨compile_unitLoop, find?_unitLoop, ?_⟩
  decide +kernel

theorem root_reduction_exact_unitLoop :
    (Definition.ofCommands false unitLoop).compile = .ok unitLoopCompiled ∧
      unitLoopCompiled.RootDisputed 2 := by
  have hexact := (root_reduction_exact compile_unitLoop).1 2 TermId.eof
  exact ⟨compile_unitLoop, (hexact.mp ⟨_, find?_unitLoop, Or.inl rfl, rfl⟩).2⟩

end Compiled

end Lalr

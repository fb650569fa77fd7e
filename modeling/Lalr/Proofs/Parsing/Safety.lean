import Lalr.Proofs.Parsing.Accepting
import Lalr.Proofs.Parsing.Termination

/-!
# Errors that cannot happen

A machine over an arbitrary table may run out of states or entries, or be sent where there is
nothing. Over a compiled table it cannot, whatever it reads (**`only_input_errors`**): every error
is one of the source or of the input. `Fault` lists them, each with what it takes.

Every error branch is closed by a fact of its own about the table:

* the top of the stack is a state of the automaton, so there are records for it;
* the kind of a record fits its target and its productions (`actionOf_ne_refuse`);
* a production that is reduced is spelled by the top of the stack (`Path.of_item`);
* where a reduction goes back to, the automaton moves over its left-hand side, and nothing can be
  reduced there (`Built.shifts_lhs`);
* only operators are left to parse time (`Dispute.isOperator_of_kind`).
-/

namespace Lalr

theorem Dispute.isOperator_of_kind {d : Dispute} (h : d.kind = .operator) :
    d.isOperator = true := by
  unfold kind at h
  split at h
  · simp at h
  · split at h <;> simp at h
  · unfold shiftOrReduce at h
    split at h
    · assumption
    · repeat' split at h
      all_goals simp at h

namespace Cfg

variable {g : Cfg} {root : TermId}

/-- Every state on a path is one of the automaton. -/
theorem Path.exists_state (hg : g.Augmented root) {q : StateId} {states : List StateId}
    {xs : List TermId} (h : g.Path (q :: states) xs) : ∃ s, g.states[q]? = some s := by
  have hkernel : ∃ kernel, g.kernels[q]? = some kernel := by
    cases h with
    | initial => exact ⟨_, g.kernels_initial⟩
    | step _ hgoto => exact ⟨_, (hg.goto_iff.mp hgoto).2⟩
  obtain ⟨kernel, hkernel⟩ := hkernel
  exact ⟨_, state_eq_some_iff.mpr ⟨kernel, hkernel, rfl⟩⟩

/-- Where a production other than the augmented root starts, the automaton moves over its left-hand
side. -/
theorem Path.exists_goto_lhs (hg : g.Augmented root) {q : StateId} {states : List StateId}
    {xs : List TermId} (h : g.Path (q :: states) xs) {i : ProductionId} {p : Production}
    (hp : g.productions[i]? = some p) (hi : Item.start i ∈ g.itemsOf q)
    (hne : i ≠ ProductionId.root) : ∃ target, g.goto? q p.lhs = some target := by
  obtain ⟨kernel, hkernel, hitems⟩ := exists_kernel_of_mem_itemsOf hi
  have hclosure := hi
  rw [hitems] at hclosure
  rcases closure_cases (hg.nodup_kernel hkernel) hclosure with hmem | ⟨item, hitem, p', hx, hp', -⟩
  · -- A kernel has its dots moved, but for the initial one.
    cases h with
    | initial =>
      obtain rfl := Option.some.inj (hkernel.symm.trans g.kernels_initial)
      exact absurd (congrArg Item.production (List.mem_singleton.mp hmem)) hne
    | step _ hgoto =>
      obtain rfl := Option.some.inj (hkernel.symm.trans (hg.goto_iff.mp hgoto).2)
      obtain ⟨item, -, -, heq⟩ := mem_moved.mp hmem
      exact absurd (congrArg Item.position heq) (Nat.succ_ne_zero _).symm
  · obtain rfl : p = p' := Option.some.inj (hp.symm.trans hp')
    rw [← hitems] at hitem
    exact hg.exists_goto hitem hx

end Cfg

namespace Compiled

variable {c : Compiled} {m m' : Machine StateId TermId} {source source' : Source TermId}
  {q : StateId} {k : TermId}

/-! ## What the table answers -/

/-- **The kind of a record fits what it has.** -/
theorem Built.actionOf_ne_refuse (hb : c.Built) (hposed : (c.disputeAt q k).IsPosed)
    (cause : Refusal) : c.actionOf (c.disputeAt q k).resolve.1 ≠ .refuse cause := by
  have hproduction : ∀ {i : ProductionId} {rest : List ProductionId},
      (c.disputeAt q k).ordered = i :: rest → ∃ p, c.cfg.productions[i]? = some p := by
    intro i rest hordered
    have hmem := Dispute.mem_ordered.mp (hordered ▸ List.mem_cons_self)
    obtain ⟨p, hp, -⟩ := (Automaton.mem_candidates hb.augmented).mp hmem
    exact ⟨p, hp⟩
  rw [Dispute.resolve_fst, Dispute.kind]
  cases hordered : (c.disputeAt q k).ordered with
  | nil =>
    -- Nothing to reduce: then there is a move.
    rcases hposed with htarget | hcandidates
    · obtain ⟨target, htarget⟩ := Option.isSome_iff_exists.mp htarget
      simp [actionOf, htarget]
    · exact absurd (Dispute.ordered_eq_nil_iff.mp hordered) hcandidates
  | cons i rest =>
    obtain ⟨p, hp⟩ := hproduction hordered
    cases htarget : (c.disputeAt q k).target with
    | none =>
      dsimp only
      split <;> simp [actionOf, hp]
    | some target =>
      simp only [Dispute.shiftOrReduce]
      repeat' split
      all_goals simp [actionOf, hp]

/-- A state of the automaton refuses nothing but a symbol. -/
theorem Built.eq_incorrectSymbol (hb : c.Built) {s : State} (hs : c.cfg.states[q]? = some s)
    {ahead : Option TermId} {cause : Refusal} (h : c.table.action q ahead = .refuse cause) :
    cause = .incorrectSymbol := by
  cases hfind : c.records.find? q (ahead.getD TermId.eof) with
  | some r =>
    obtain ⟨hposed, rfl⟩ := hb.find?_iff.mp hfind
    exact absurd ((action_of_find? hfind).symm.trans h) (hb.actionOf_ne_refuse hposed cause)
  | none =>
    have hrow : ∃ row, c.records[q]? = some row := by
      rw [hb.records, disputes, hb.automaton, Automaton.records_getElem? hb.augmented]
      exact ⟨_, congrArg _ hs⟩
    obtain ⟨row, hrow⟩ := hrow
    rw [Records.find?, hrow, Option.bind_some] at hfind
    have haction : c.table.action q ahead = .refuse .incorrectSymbol := by
      simp only [table, action, hrow, hfind]
    exact (Action.refuse.inj (haction.symm.trans h)).symm

/-- Only an operator is left to parse time. -/
theorem Built.operator_of_action (hb : c.Built) {ahead : Option TermId} {target : StateId}
    {i : ProductionId} {lhs : TermId} {arity : Nat}
    (h : c.table.action q ahead = .operator target i lhs arity) :
    ∃ x, ahead = some x ∧ isOperatorIn c.terms x = true := by
  obtain ⟨r, hfind, haction⟩ := exists_record_of_action h fun cause hcause => nomatch hcause
  obtain ⟨-, rfl⟩ := hb.find?_iff.mp hfind
  rw [Dispute.resolve_fst] at haction
  have hkind : (c.disputeAt q (ahead.getD TermId.eof)).kind = .operator := by
    unfold actionOf at haction
    dsimp only at haction
    split at haction
    all_goals first | assumption | simp at haction
  have hoperator : isOperatorIn c.terms (ahead.getD TermId.eof) = true :=
    Dispute.isOperator_of_kind hkind
  cases ahead with
  | none => exact absurd (hoperator.symm.trans hb.eof) (by decide)
  | some x => exact ⟨x, rfl, hoperator⟩

/-- **The table goes over a left-hand side where its production started.** -/
theorem Built.shifts_lhs (hb : c.Built) {states : List StateId} {xs : List TermId}
    (hpath : c.cfg.Path (q :: states) xs) {i : ProductionId} {p : Production}
    (hp : c.cfg.productions[i]? = some p) (hi : Item.start i ∈ c.cfg.itemsOf q)
    (hne : i ≠ ProductionId.root) :
    ∃ target, c.table.action q (some p.lhs) = .shift target := by
  obtain ⟨target, hgoto⟩ := hpath.exists_goto_lhs hb.augmented hp hi hne
  have hnone : ∀ j, ¬ c.cfg.Reducible q p.lhs j := by
    rintro j ⟨p', hp', hk⟩
    exact hb.augmented.not_both p.lhs (hk.terminal hb.augmented)
      (hb.augmented.lhs_mem p (List.mem_of_getElem? hp))
  have haction : c.table.action q (some p.lhs) = .shift target := hb.action_of_goto hgoto hnone
  exact ⟨target, haction⟩

/-! ## What can go wrong -/

/-- The errors that a machine may come to with a result of looking ahead. -/
inductive Fault (c : Compiled) : Except ParseError (Option TermId) → ParseError → Prop
  | lexer (message : String) : Fault c (.error (.lexer message)) (.lexer message)
  | symbol (ahead : Option TermId) : Fault c (.ok ahead) (.rejected .incorrectSymbol)
  | operator {x : TermId} (h : isOperatorIn c.terms x = true) :
      Fault c (.ok (some x)) (.rejected .nonAssociative)
  /-- The end of input is asked for as a token, so some production has it. -/
  | endOfInput {p : Production} (hp : p ∈ c.cfg.productions) (h : TermId.eof ∈ p.rhs) :
      Fault c (.ok none) .unexpectedEnd

/-- The table refuses a symbol of the input, or an operator. -/
theorem Built.fault_of_choose (hb : c.Built) {s : State} (hs : c.cfg.states[q]? = some s)
    {entries : List (Entry TermId)} {ahead : Option TermId} {cause : Refusal}
    (h : c.table.choose entries ahead (c.table.action q ahead) = .error cause) :
    c.Fault (.ok ahead) (.rejected cause) := by
  cases haction : c.table.action q ahead with
  | refuse cause' =>
    rw [haction] at h
    obtain rfl : cause' = cause := Except.error.inj h
    rw [hb.eq_incorrectSymbol hs haction]
    exact .symbol ahead
  | operator target i lhs arity =>
    obtain ⟨x, rfl, hoperator⟩ := hb.operator_of_action haction
    rw [haction, Table.choose] at h
    split at h
    · simp at h
    · simp at h
    · obtain rfl := Except.error.inj h
      exact .operator hoperator
  | shift target => simp [haction, Table.choose] at h
  | reduce i lhs arity => simp [haction, Table.choose] at h
  | accept => simp [haction, Table.choose] at h

/-- **A step that the automaton allows fails only at the end of input.** -/
theorem Located.fault_of_perform (h : c.Located m) (hb : c.Built) {states : List StateId}
    (hstates : m.states = q :: states) {ahead : Option TermId}
    (hgoto : m.mode = .goto → ∃ x rest, m.entries = .nonterminal x :: rest ∧ ahead = some x ∧
      x ∈ c.cfg.nonterminals)
    (hread : m.mode ≠ .goto → ahead = m.held.map Token.symbol)
    {choice : Choice StateId TermId ProductionId}
    (hallows : c.cfg.Allows q (ahead.getD TermId.eof) choice) {cause : ParseError}
    (herror : m.perform source choice = .error cause m' source') : c.Fault (.ok ahead) cause := by
  by_cases hm : m.mode = .goto
  · obtain ⟨x, rest, hentries, rfl, hx⟩ := hgoto hm
    obtain ⟨target, rfl, -⟩ := Sound.shift_of_goto hb hx hallows
    rw [Machine.perform, if_pos hm] at herror
    cases herror
  · have hpath := h.path
    rw [hstates, Machine.spelled, if_neg hm] at hpath
    have hlen := hpath.length_eq
    rw [← hstates, List.length_map] at hlen
    cases hallows with
    | shift htarget =>
      rw [Machine.perform, if_neg hm] at herror
      cases hheld : m.held with
      | some t =>
        rw [hheld] at herror
        cases herror
      | none =>
        rw [hheld] at herror
        obtain ⟨rfl, -, -⟩ := Pass.error.inj herror
        obtain rfl : ahead = none := by rw [hread hm, hheld]; rfl
        obtain ⟨⟨item, -, hx⟩, -⟩ := hb.augmented.goto_iff.mp htarget
        obtain ⟨p, hp, hget⟩ := Cfg.next_eq_some_iff.mp hx
        exact .endOfInput (List.mem_of_getElem? hp) (List.mem_of_getElem? hget)
    | reduce hp hk =>
      obtain ⟨hle, -⟩ := hpath.of_item hb.augmented hp (hk.mem_itemsOf hb.augmented)
      rw [List.length_map] at hle
      rw [Machine.perform, if_neg (by omega), if_neg (Nat.not_lt.mpr hle)] at herror
      cases herror
    | accept _ hl =>
      obtain ⟨-, hxs, -⟩ := hpath.of_root_complete hb.augmented (hl.mem_itemsOf hb.augmented)
      obtain ⟨entry, hentries, -⟩ := List.map_eq_singleton_iff.mp hxs
      rw [Machine.perform, hentries] at herror
      cases herror

/-- **Every error of a pass is a fault.** -/
theorem Located.fault_of_pass (h : c.Located m) (hb : c.Built) {cause : ParseError}
    (herror : Machine.pass c.table m source = .error cause m' source') :
    c.Fault (m.lookAhead source).1 cause := by
  obtain ⟨q, states, hstates⟩ := h.path.exists_cons
  have hstate : ∃ s, c.cfg.states[q]? = some s := by
    have hpath := h.path
    rw [hstates] at hpath
    exact hpath.exists_state hb.augmented
  obtain ⟨s, hs⟩ := hstate
  rcases hlook : m.lookAhead source with ⟨cause' | ahead, m₁, source₁⟩
  · rw [h.pass_of_lookAhead_error hlook] at herror
    obtain ⟨rfl, -, -⟩ := Pass.error.inj herror
    by_cases hmode : m.mode = .goto
    · obtain ⟨x, rest, hentries, -⟩ := h.head hmode
      exact nomatch (Machine.lookAhead_of_entry hmode hentries).symm.trans hlook
    · unfold Machine.lookAhead at hlook
      rw [if_neg hmode] at hlook
      repeat' split at hlook
      · exact nomatch hlook
      · obtain ⟨rfl, -⟩ := by simpa using hlook
        exact .lexer _
      · exact nomatch hlook
  · have heq := (Machine.lookAhead_eq hlook).1
    have hmode : m₁.mode = m.mode := by rw [heq]
    have hentries : m₁.entries = m.entries := by rw [heq]
    unfold Machine.pass at herror
    simp only [hstates, hlook] at herror
    split at herror
    · rename_i cause' hchoose
      obtain ⟨rfl, -, -⟩ := Pass.error.inj herror
      exact hb.fault_of_choose hs hchoose
    · rename_i choice hchoose
      refine (h.lookAhead hlook).fault_of_perform hb (by rw [heq]; exact hstates) ?_ ?_
        (hb.allows_of_choose hchoose) herror
      · intro hm
        rw [hmode] at hm
        obtain ⟨x, rest, hx, hmem⟩ := h.head hm
        obtain ⟨entry, rest', hentry, rfl⟩ := Machine.lookAhead_of_goto hm hlook
        obtain ⟨rfl, rfl⟩ := List.cons.inj (hentry.symm.trans hx)
        exact ⟨x, rest', by rw [hentries, hx], rfl, hmem⟩
      · intro hm
        exact Machine.lookAhead_of_not_goto (hmode ▸ hm) hlook

/-- **Behind a reduction the machine goes on**, unless it has reduced the augmented root. -/
theorem Located.pass_of_reduce (h : c.Located m) (hb : c.Built) (hmode : m.mode ≠ .accepted)
    {i : ProductionId} {args : List (Entry TermId)}
    (hreduce : Machine.pass c.table m source = .event (.reduce i) args m' source')
    (hne : i ≠ ProductionId.root) :
    ∃ p q states entries target, c.cfg.productions[i]? = some p ∧
      m' = { states := q :: states, entries := .nonterminal p.lhs :: entries, mode := .goto,
             held := m'.held } ∧
      c.table.action q (some p.lhs) = .shift target ∧
      Machine.pass c.table m' source' =
        .goOn { m' with states := target :: m'.states, mode := .reading } source' := by
  have hgoto : m.mode ≠ .goto := by
    intro hm
    rcases h.pass_goto hb hm source with ⟨_, hpass⟩ | ⟨_, _, _, _, _, -, -, -, hpass⟩
    all_goals exact nomatch hreduce.symm.trans hpass
  rcases hlook : m.lookAhead source with ⟨cause | ahead, m₁, source₁⟩
  · exact nomatch hreduce.symm.trans (h.pass_of_lookAhead_error hlook)
  · have hreads := h.pass_reading hb (reading_of_ne hmode hgoto) hlook
    rw [hreduce] at hreads
    cases hreads with
    | reduce hp _ hq hk hrest hm' _ =>
      obtain ⟨states, hstates⟩ := List.head?_eq_some_iff.mp hq
      have hpath := h.path
      rw [hstates, Machine.spelled, if_neg hgoto] at hpath
      -- The production started in the state that the reduction goes back to.
      obtain ⟨-, -, q₁, states₁, hdrop, hpath', hstart⟩ :=
        hpath.of_item hb.augmented hp (hk.mem_itemsOf hb.augmented)
      obtain ⟨rfl, rfl⟩ := List.cons.inj ((hstates ▸ hrest).symm.trans hdrop)
      obtain ⟨target, haction⟩ := hb.shifts_lhs hpath' hp hstart hne
      refine ⟨_, _, _, _, target, hp, by rw [hm'], haction, ?_⟩
      simp [hm', Machine.pass, Machine.lookAhead, Entry.symbol, haction, Table.choose,
        Machine.perform]

/-! ## Whole runs -/

/-- A production that has a symbol comes from a rule that mentions it. -/
theorem exists_rule_of_mem_rhs [Text.Xid] {ignoreCase : Bool} {commands : List Command}
    (h : (Definition.ofCommands ignoreCase commands).compile = .ok c) {p : Production}
    (hp : p ∈ c.cfg.productions) {x : TermId} (hx : x ∈ p.rhs) :
    ∃ id ∈ c.cfg.nonterminals, ∃ e, c.terms[id]?.bind Term.rule = some e ∧ x ∈ e.terms := by
  obtain ⟨root, -, rfl⟩ := Definition.compile_ok h
  obtain ⟨id, hid, t, e, s, ht, he, hs, rfl⟩ := Collection.exists_of_mem_productions hp
  obtain ⟨o, ho, hox⟩ := List.mem_filterMap.mp (Collection.mem_symbols hx).1
  have hlevel : x ∈ Operand.levelTerms e.alternatives :=
    List.mem_filterMap.mpr ⟨o, List.mem_flatten.mpr ⟨s, hs, ho⟩, hox⟩
  refine ⟨id, hid, e, ?_, List.mem_append_left _ hlevel⟩
  rw [Definition.rule_compileCollection, ht]
  exact he

/-- **No internal errors**, for every definition that compiles, every source and every call of every
run. The machine never runs out of states or entries and is never in a state without records; a
nonassociative operator is refused only where an operator is ahead; the end of input is unexpected
only if some rule mentions it. Behind every reduction but that of the augmented root the table goes
over the left-hand side, and so does the machine. -/
theorem only_input_errors [Text.Xid] {ignoreCase : Bool} {commands : List Command}
    (h : (Definition.ofCommands ignoreCase commands).compile = .ok c) {n : Nat}
    {done : List (Call TermId ProductionId)} {m : Machine StateId TermId} {rest : Source TermId}
    (hrun : Machine.calls c.table n (Machine.start c.table) source = (done, m, rest)) :
    (∀ cause m' rest', m.nextEvent c.table rest = (.error cause, m', rest') →
      cause ≠ .noState ∧ cause ≠ .noEntry ∧ cause ≠ .rejected .incorrectState ∧
      (cause = .rejected .nonAssociative →
        ∃ x, m.aheadOfEvent c.table rest = .ok (some x) ∧ isOperatorIn c.terms x = true) ∧
      (cause = .unexpectedEnd →
        ∃ id ∈ c.cfg.nonterminals, ∃ e, c.terms[id]?.bind Term.rule = some e ∧
          TermId.eof ∈ e.terms)) ∧
    (∀ i args m' rest', m.nextEvent c.table rest = (.ok (.reduce i, args), m', rest') →
      i ≠ ProductionId.root →
      ∃ p q states entries target, c.cfg.productions[i]? = some p ∧ m'.mode = .goto ∧
        m'.states = q :: states ∧ m'.entries = .nonterminal p.lhs :: entries ∧
        c.table.action q (some p.lhs) = .shift target ∧
        Machine.pass c.table m' rest' =
          .goOn { m' with states := target :: m'.states, mode := .reading } rest') := by
  have hb := Definition.built_of_compile h
  have hlocated := Machine.calls_keeps (Located.pass_of_built hb) n source fun _ => Located.start c
  rw [hrun] at hlocated
  have hbefore : m.mode ≠ .accepted → c.Located (m.beforeEvent c.table rest).1 ∧
      (m.beforeEvent c.table rest).1.mode ≠ .accepted := by
    intro hmode
    refine Machine.beforeEvent_keeps ?_ hmode (hlocated hmode) rest
    intro m₁ source₁ m₂ source₂ hmode₁ hlocated₁ hpass
    have hkept := Located.pass_of_built hb m₁ source₁ hmode₁ fun _ => hlocated₁
    rw [hpass] at hkept
    refine hkept ?_
    rw [Pass.machine, Machine.reading_of_goOn hpass]
    decide
  constructor
  · intro cause m' rest' hnext
    by_cases hmode : m.mode = .accepted
    · rw [Machine.nextEvent_of_accepted hmode] at hnext
      obtain ⟨rfl, -⟩ := by simpa using hnext
      simp
    · have hfault := (hbefore hmode).1.fault_of_pass hb
        (Machine.pass_beforeEvent_of_error hmode hnext)
      rw [Machine.aheadOfEvent]
      generalize (Machine.lookAhead _ _).1 = ahead at hfault
      cases hfault with
      | lexer message => simp
      | symbol ahead => simp
      | operator hoperator => simpa using hoperator
      | endOfInput hp heof => simpa using exists_rule_of_mem_rhs h hp heof
  · intro i args m' rest' hnext hne
    have hmode : m.mode ≠ .accepted := by
      intro hmode
      rw [Machine.nextEvent_of_accepted hmode] at hnext
      simp at hnext
    obtain ⟨hlocated', hmode'⟩ := hbefore hmode
    obtain ⟨p, q, states, entries, target, hp, hm', haction, hpass⟩ :=
      hlocated'.pass_of_reduce hb hmode' (Machine.pass_beforeEvent hnext) hne
    exact ⟨p, q, states, entries, target, hp, by rw [hm'], by rw [hm'], by rw [hm'], haction,
      hpass⟩

/-- Comparisons, which cannot be chained, up to an explicit end of input. -/
def comparisons : List Command :=
  [.literal "x", .literal "<", .nonterminal "E", .nonterminal "S", .operators ⟨0, .nonassoc⟩ [4],
    .rule 5 ⟨[[.term 5, .term 4, .term 5], [.term 3]]⟩, .rule 6 ⟨[[.term 5, .term 0]]⟩, .root 6]

/-- The comparisons, compiled. -/
def comparisonsCompiled : Compiled :=
  let d := Definition.ofCommands false comparisons
  d.compileCollection 6 (d.collect 6)

/-- A chain of comparisons. -/
def comparisonChain : Source TermId :=
  [.token ⟨3, "x"⟩, .token ⟨4, "<"⟩, .token ⟨3, "x"⟩, .token ⟨4, "<"⟩, .token ⟨3, "x"⟩]

/-- A run over a source so far. -/
def comparisonRun (n : Nat) (source : Source TermId) :
    List (Call TermId ProductionId) × Machine StateId TermId × Source TermId :=
  Machine.calls comparisonsCompiled.table n (Machine.start comparisonsCompiled.table) source

set_option maxRecDepth 10000 in
theorem only_input_errors_comparisons :
    (Definition.ofCommands false comparisons).compile = .ok comparisonsCompiled ∧
      -- The second operator of the chain is refused.
      (∃ x, (comparisonRun 2 comparisonChain).2.1.aheadOfEvent comparisonsCompiled.table
          (comparisonRun 2 comparisonChain).2.2 = .ok (some x) ∧
        isOperatorIn comparisonsCompiled.terms x = true) ∧
      -- The end of input is no token.
      (∃ id ∈ comparisonsCompiled.cfg.nonterminals, ∃ e,
        comparisonsCompiled.terms[id]?.bind Term.rule = some e ∧ TermId.eof ∈ e.terms) ∧
      -- Behind the first `x` the machine goes over the left-hand side.
      ∃ p target, comparisonsCompiled.cfg.productions[3]? = some p ∧
        comparisonsCompiled.table.action 0 (some p.lhs) = .shift target := by
  have hcompile : (Definition.ofCommands false comparisons).compile = .ok comparisonsCompiled :=
    Definition.compile_eq_ok (by decide) (by decide)
  have hclash : (comparisonRun 2 comparisonChain).2.1.nextEvent comparisonsCompiled.table
      (comparisonRun 2 comparisonChain).2.2 =
      (.error (.rejected .nonAssociative),
        { states := [6, 5, 2, 0], entries := [.nonterminal 5, .token ⟨4, "<"⟩, .nonterminal 5],
          mode := .reading, held := some ⟨4, "<"⟩ }, [.token ⟨3, "x"⟩]) := by
    decide +kernel
  have hend : (comparisonRun 1 [.token ⟨3, "x"⟩]).2.1.nextEvent comparisonsCompiled.table
      (comparisonRun 1 [.token ⟨3, "x"⟩]).2.2 =
      (.error .unexpectedEnd,
        { states := [2, 0], entries := [.nonterminal 5], mode := .reading, held := none }, []) := by
    decide +kernel
  have hreduce : (comparisonRun 0 [.token ⟨3, "x"⟩]).2.1.nextEvent comparisonsCompiled.table
      (comparisonRun 0 [.token ⟨3, "x"⟩]).2.2 =
      (.ok (.reduce 3, [.token ⟨3, "x"⟩]),
        { states := [0], entries := [.nonterminal 5], mode := .goto, held := none }, []) := by
    decide +kernel
  refine ⟨hcompile, ?_, ?_, ?_⟩
  · exact ((only_input_errors hcompile rfl).1 _ _ _ hclash).2.2.2.1 rfl
  · exact ((only_input_errors hcompile rfl).1 _ _ _ hend).2.2.2.2 rfl
  · obtain ⟨p, q, states, entries, target, hp, -, hstates, -, haction, -⟩ :=
      (only_input_errors hcompile rfl).2 _ _ _ _ hreduce (by decide)
    obtain ⟨rfl, -⟩ := List.cons.inj hstates
    exact ⟨p, target, hp, haction⟩

end Compiled

end Lalr

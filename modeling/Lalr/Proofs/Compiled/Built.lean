import Lalr.Compiled.Basic
import Lalr.Proofs.Automaton.Report
import Lalr.Proofs.Definition.Collection

/-!
# What compiling guarantees

Everything that is said of compiled grammars rests on a few facts about how they are built, for
whatever commands the definition was made by (**`built_of_compile`**): the grammar is closed under
its augmented root, the automaton and the records are those of this grammar, the end of input is
not an operator, and no nonterminal counts as a terminal.

A definition is **plain** if it has neither operators nor hints (`isPlain`); what is compiled from
it has none either. A log without conflicts means that no dispute has left one.
-/

namespace Lalr

namespace Compiled

/-- The disputes of the compiled grammar. -/
def disputes (c : Compiled) : List (List Dispute) :=
  c.automaton.allDisputes c.cfg (isOperatorIn c.terms)

/-- The term with this id is a terminal. -/
def isTerminal (c : Compiled) (id : TermId) : Bool := (c.terms[id]?.map Term.isTerminal).getD false

/-- What compiling guarantees of its result. -/
structure Built (c : Compiled) : Prop where
  augmented    : c.cfg.Augmented c.root
  automaton    : c.automaton = Automaton.ofCfg c.cfg c.cfg.facts
  records      : c.records = Automaton.records c.disputes
  eof          : isOperatorIn c.terms TermId.eof = false
  nonterminals : ∀ x ∈ c.cfg.nonterminals, c.isTerminal x = false

namespace Built

variable {c : Compiled}

theorem states_eq (hb : c.Built) : c.automaton.states = c.cfg.states := by
  rw [hb.automaton]
  rfl

/-- Every state has its records. -/
theorem length_records (hb : c.Built) : c.records.length = c.automaton.states.length := by
  rw [hb.records, disputes, Automaton.records, Automaton.allDisputes, List.length_map,
    List.length_map, List.length_zipIdx]

end Built

end Compiled

/-! ## Terms in the spelling by which they are looked up

But for the key of a literal, the term is as it was. -/

namespace Term

variable (ignoreCase : Bool) (t : Term)

theorem id_normalize : (t.normalize ignoreCase).id = t.id := by
  unfold normalize
  split <;> rfl

theorem isTerminal_normalize : (t.normalize ignoreCase).isTerminal = t.isTerminal := by
  unfold normalize
  split <;> rfl

theorem isLiteral_normalize : (t.normalize ignoreCase).isLiteral = t.isLiteral := by
  unfold normalize
  split <;> rfl

theorem matcher_normalize : (t.normalize ignoreCase).matcher = t.matcher := by
  unfold normalize
  split <;> rfl

theorem precedence_normalize : (t.normalize ignoreCase).precedence = t.precedence := by
  unfold normalize
  split <;> rfl

theorem rule_normalize : (t.normalize ignoreCase).rule = t.rule := by
  unfold normalize
  split <;> rfl

end Term

/-! ## Operators -/

theorem isOperatorIn_map {f : Term → Term} (hf : ∀ t, (f t).precedence = t.precedence)
    (terms : List Term) (id : TermId) : isOperatorIn (terms.map f) id = isOperatorIn terms id := by
  unfold isOperatorIn
  rw [List.getElem?_map]
  cases terms[id]? with
  | none => rfl
  | some t => simp only [Option.map_some, Option.getD_some, Term.isOperator, hf]

/-- Making terms ready for scanning does not touch operators. -/
theorem isOperatorIn_prepareTerms [Text.Xid] (ignoreCase : Bool) (terms : List Term)
    (ids : List TermId) (id : TermId) :
    isOperatorIn (prepareTerms ignoreCase terms ids) id = isOperatorIn terms id := by
  unfold prepareTerms
  apply isOperatorIn_map
  intro t
  rfl

namespace Definition

variable {d : Definition} {c : Compiled}

/-- The terms that are compiled are those collected, but for what scanning needs. -/
theorem isOperatorIn_compileCollection [Text.Xid] (d : Definition) (root : TermId)
    (collection : Collection) :
    isOperatorIn (d.compileCollection root collection).terms = isOperatorIn collection.terms := by
  funext id
  unfold compileCollection
  rw [isOperatorIn_prepareTerms, isOperatorIn_map (Term.precedence_normalize d.ignoreCase)]

theorem isTerminal_compileCollection [Text.Xid] (d : Definition) (root : TermId)
    (collection : Collection) (id : TermId) :
    (d.compileCollection root collection).isTerminal id = collection.isTerminal id := by
  unfold Compiled.isTerminal compileCollection prepareTerms Collection.isTerminal
  dsimp only
  rw [List.getElem?_map, List.getElem?_map]
  cases collection.terms[id]? with
  | none => rfl
  | some t => exact t.isTerminal_normalize d.ignoreCase

theorem rule_compileCollection [Text.Xid] (d : Definition) (root : TermId) (collection : Collection)
    (id : TermId) :
    (d.compileCollection root collection).terms[id]?.bind Term.rule =
      collection.terms[id]?.bind Term.rule := by
  unfold compileCollection prepareTerms
  dsimp only
  rw [List.getElem?_map, List.getElem?_map]
  cases collection.terms[id]? with
  | none => rfl
  | some t => exact t.rule_normalize d.ignoreCase

theorem compile_ok [Text.Xid] (h : d.compile = .ok c) :
    ∃ root, d.root = some root ∧ c = d.compileCollection root (d.collect root) := by
  unfold compile at h
  split at h
  · simp at h
  · rename_i root hroot
    dsimp only at h
    split at h
    · exact ⟨root, hroot, (Except.ok.inj h).symm⟩
    · simp at h

theorem compile_eq_ok [Text.Xid] {root : TermId} (hroot : d.root = some root)
    (hrules : (d.collect root).withoutRule.isEmpty = true) :
    d.compile = .ok (d.compileCollection root (d.collect root)) := by
  rw [compile, hroot]
  exact if_pos hrules

/-- The records were made of the terms before they were prepared; the operators are the same. -/
theorem disputes_compileCollection [Text.Xid] (d : Definition) (root : TermId)
    (collection : Collection) :
    (d.compileCollection root collection).disputes =
      (Automaton.ofCfg collection.cfg collection.cfg.facts).allDisputes collection.cfg
        (isOperatorIn (collection.terms.map (Term.normalize d.ignoreCase))) := by
  have hoperators : isOperatorIn (collection.terms.map (Term.normalize d.ignoreCase)) =
      isOperatorIn collection.terms :=
    funext fun id => isOperatorIn_map (Term.precedence_normalize d.ignoreCase) _ id
  rw [Compiled.disputes, isOperatorIn_compileCollection, hoperators]
  rfl

/-- A well-formed definition compiles to a well-built grammar. -/
theorem WellFormed.built [Text.Xid] (hd : d.WellFormed) (h : d.compile = .ok c) : c.Built := by
  obtain ⟨root, hroot, rfl⟩ := compile_ok h
  obtain ⟨hwalk, hvisited⟩ := hd.walk_collect hroot hd.rules
  refine ⟨hwalk.augmented_cfg hd hroot hvisited, rfl, ?_, ?_, ?_⟩
  · rw [disputes_compileCollection]
    rfl
  · obtain ⟨t, ht, -, hnone⟩ := hd.eof
    obtain ⟨t', ht', -, hprec⟩ := hwalk.kept _ t ht
    rw [isOperatorIn_compileCollection, isOperatorIn, ht']
    simp only [Option.map_some, Option.getD_some, Term.isOperator, hprec, hnone, Option.isSome_none]
  · intro x hx
    rw [isTerminal_compileCollection]
    exact (Collection.mem_nonterminals.mp hx).2

/-- **Whatever compiles is well built.** -/
theorem built_of_compile [Text.Xid] {ignoreCase : Bool} {commands : List Command}
    (h : (ofCommands ignoreCase commands).compile = .ok c) : c.Built :=
  (wellFormed_ofCommands ignoreCase commands).built h

/-! ## Plain definitions -/

/-- The definition has neither operators nor hints. -/
def isPlain (d : Definition) : Bool :=
  d.terms.all fun t =>
    t.precedence.isNone && (t.rule.map (·.every (fun _ => true) fun _ => false)).getD true

theorem precedence_of_isPlain (h : d.isPlain = true) : ∀ t ∈ d.terms, t.precedence = none := by
  intro t ht
  have hall := List.all_eq_true.mp h t ht
  rw [Bool.and_eq_true, Option.isNone_iff_eq_none] at hall
  exact hall.1

theorem every_of_isPlain (h : d.isPlain = true) {t : Term} (ht : t ∈ d.terms) {e : Expr}
    (he : t.rule = some e) : e.every (fun _ => true) (fun _ => false) = true := by
  have hall := List.all_eq_true.mp h t ht
  rw [Bool.and_eq_true, he] at hall
  exact hall.2

/-- **A plain definition compiles to a grammar without operators and hints.** -/
theorem WellFormed.plain [Text.Xid] (hd : d.WellFormed) (hplain : d.isPlain = true)
    (h : d.compile = .ok c) :
    (∀ x, isOperatorIn c.terms x = false) ∧ ∀ p ∈ c.cfg.productions, p.hints = [] := by
  obtain ⟨root, hroot, rfl⟩ := compile_ok h
  have hrules : ∀ t ∈ d.terms, ∀ e, t.rule = some e →
      e.every d.isUsable (fun _ => false) = true := by
    intro t ht e he
    have hboth := Operand.everyAlternatives_and e.alternatives (hd.rules t ht e he)
      (every_of_isPlain hplain ht he)
    refine Expr.every_mono ?_ ?_ hboth
    · intro x hx
      exact (Bool.and_eq_true_iff.mp hx).1
    · intro x hx
      exact (Bool.and_eq_true_iff.mp hx).2
  obtain ⟨hwalk, -⟩ := hd.walk_collect hroot hrules
  refine ⟨?_, fun p hp => hwalk.hints_eq_nil hp⟩
  intro x
  rw [isOperatorIn_compileCollection, isOperatorIn]
  cases ht : (d.collect root).terms[x]? with
  | none => rfl
  | some t =>
    have hnone := hwalk.precedence_eq_none (precedence_of_isPlain hplain) ht
    simp only [Option.map_some, Option.getD_some, Term.isOperator, hnone, Option.isSome_none]

/-! ## Logs without conflicts -/

theorem eq_nil_of_reportConflicts {production : ProductionId → String} {keyOf : TermId → String}
    {conflicts : List (StateId × TermId × Conflict)}
    (h : (reportConflicts production keyOf conflicts).ofLevel .conflict = []) :
    conflicts = [] := by
  cases conflicts with
  | nil => rfl
  | cons conflict rest =>
    obtain ⟨q, key, conflict⟩ := conflict
    have hkey : (q, conflict.describe production q) ∈ appendNew []
        ((Automaton.described production ((q, key, conflict) :: rest)).map Prod.fst) :=
      mem_appendNew.mpr (Or.inr List.mem_cons_self)
    rw [Automaton.ofLevel_reportConflicts, Automaton.reportConflicts_eq] at h
    rw [List.map_eq_nil_iff.mp h] at hkey
    exact absurd hkey List.not_mem_nil

/-- A log without conflicts leaves none. -/
theorem conflicts_eq_nil [Text.Xid] (h : d.compile = .ok c) (hlog : c.log.ofLevel .conflict = []) :
    Automaton.conflicts c.disputes = [] := by
  obtain ⟨root, -, rfl⟩ := compile_ok h
  rw [disputes_compileCollection]
  unfold compileCollection Log.ofLevel at hlog
  rw [List.filter_append] at hlog
  exact eq_nil_of_reportConflicts (List.append_eq_nil_iff.mp hlog).2

end Definition

end Lalr

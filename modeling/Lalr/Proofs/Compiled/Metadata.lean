import Lalr.Proofs.Automaton.Record
import Lalr.Proofs.Compiled.Built
import Lalr.Proofs.Definition.Metadata

/-!
# Metadata and the analysis

Hints, precedences, nicknames and match priorities settle conflicts, name things and order the
scanner. They take no part in the analysis: definitions that differ in them only are compiled to the
same automaton (**`analysis_ignores_metadata`**).

Collection commutes with forgetting them, so it remains to be shown that no stage of the analysis
looks at hints: everything that is computed from a grammar is computed from the grammar without
(`Cfg.keepHints`), up to the records. A record takes its target and its productions from the
automaton; metadata decides its kind and which production comes first.

Preferring the shift is what a record does anyway, so such hints silence a conflict and nothing
else, unless they overrule a preference to reduce.
-/

namespace Lalr

variable {keep : Hint → Bool}

/-! ## No stage looks at hints -/

namespace Cfg

variable (g : Cfg)

theorem getElem?_productions_keepHints (i : ProductionId) :
    (g.keepHints keep).productions[i]? = g.productions[i]?.map (Production.keepHints keep) :=
  List.getElem?_map

theorem length_productions_keepHints :
    (g.keepHints keep).productions.length = g.productions.length :=
  List.length_map _

@[simp] theorem productionsOf_keepHints : (g.keepHints keep).productionsOf = g.productionsOf := by
  funext x
  unfold productionsOf keepHints
  rw [List.zipIdx_map, List.filter_map, List.map_map]
  rfl

@[simp] theorem next_keepHints : (g.keepHints keep).next = g.next := by
  funext item
  rw [next, getElem?_productions_keepHints, Option.bind_map]
  rfl

@[simp] theorem lhs?_keepHints : (g.keepHints keep).lhs? = g.lhs? := by
  funext item
  rw [lhs?, getElem?_productions_keepHints, Option.map_map]
  rfl

@[simp] theorem tail_keepHints : (g.keepHints keep).tail = g.tail := by
  funext item
  rw [tail, tail, getElem?_productions_keepHints]
  cases g.productions[item.production]? <;> rfl

@[simp] theorem isComplete_keepHints : (g.keepHints keep).isComplete = g.isComplete := by
  funext item
  rw [isComplete, next_keepHints]
  rfl

@[simp] theorem items_keepHints : (g.keepHints keep).items = g.items := by
  unfold items keepHints
  rw [List.zipIdx_map, List.flatMap_map]
  rfl

@[simp] theorem itemCount_keepHints : (g.keepHints keep).itemCount = g.itemCount := by
  unfold itemCount keepHints
  rw [List.map_map]
  rfl

/-! ### States -/

@[simp] theorem startItems_keepHints : (g.keepHints keep).startItems = g.startItems := by
  funext x
  rw [startItems, productionsOf_keepHints]
  rfl

@[simp] theorem expand_keepHints : (g.keepHints keep).expand = g.expand := by
  funext item
  rw [expand, expand, next_keepHints, startItems_keepHints]

@[simp] theorem closure_keepHints : (g.keepHints keep).closure = g.closure := by
  funext kernel
  rw [closure, closure, expand_keepHints, length_productions_keepHints]

@[simp] theorem movable_keepHints : (g.keepHints keep).movable = g.movable := by
  funext items
  rw [movable, movable, next_keepHints]

@[simp] theorem moved_keepHints : (g.keepHints keep).moved = g.moved := by
  funext items x
  rw [moved, moved, next_keepHints]

@[simp] theorem kernels_keepHints : (g.keepHints keep).kernels = g.kernels := by
  have hmoved : (g.keepHints keep).movedKernels = g.movedKernels := by
    funext kernel
    rw [movedKernels, movedKernels, closure_keepHints, movable_keepHints, moved_keepHints]
  rw [kernels, kernels, hmoved, itemCount_keepHints]

@[simp] theorem states_keepHints : (g.keepHints keep).states = g.states := by
  have hstate : (g.keepHints keep).stateOf = g.stateOf := by
    funext kernels kernel
    rw [stateOf, stateOf, closure_keepHints, movable_keepHints, moved_keepHints]
  rw [states, states, kernels_keepHints, hstate]

/-! ### Facts -/

@[simp] theorem nullable_keepHints : (g.keepHints keep).nullable = g.nullable := by
  have hdecide : (g.keepHints keep).decideNullable = g.decideNullable := by
    funext known x
    unfold decideNullable keepHints
    simp only [List.filter_map, List.any_map, List.isEmpty_map]
    rfl
  have hturn : NullScan.turn (g.keepHints keep) = NullScan.turn g := by
    funext s x
    rw [NullScan.turn, NullScan.turn, hdecide]
  have hsettle : NullScan.settle (g.keepHints keep) = NullScan.settle g := by
    funext fuel s
    induction fuel generalizing s with
    | zero => rfl
    | succ fuel ih =>
      rw [NullScan.settle, NullScan.settle, NullScan.pass, NullScan.pass, hturn]
      simp only [ih]
  rw [nullable, nullable, nullScan, nullScan, hsettle]
  rfl

@[simp] theorem facts_keepHints : (g.keepHints keep).facts = g.facts := by
  have hread : FirstScan.read (g.keepHints keep) = FirstScan.read g := by
    funext nullable lhs s u
    induction u generalizing s with
    | nil => rfl
    | cons x rest ih =>
      rw [FirstScan.read, FirstScan.read, ih]
      rfl
  have hscan : (g.keepHints keep).firstScan = g.firstScan := by
    funext nullable
    unfold firstScan
    rw [hread]
    exact List.foldl_map
  unfold facts firsts firstGraph
  rw [nullable_keepHints, hscan]
  rfl

theorem tailOf_keepHints : (g.keepHints keep).tailOf = g.tailOf := by
  funext facts item
  unfold tailOf
  rw [getElem?_productions_keepHints, Option.bind_map]
  rfl

@[simp] theorem tailFirsts_keepHints : (g.keepHints keep).tailFirsts = g.tailFirsts := by
  funext facts item
  rw [tailFirsts, tailFirsts, tailOf_keepHints]

@[simp] theorem tailNullable_keepHints : (g.keepHints keep).tailNullable = g.tailNullable := by
  funext facts item
  rw [tailNullable, tailNullable, tailOf_keepHints]

end Cfg

/-! ### Lookaheads -/

namespace Automaton

/-- **The automaton does not depend on hints.** -/
@[simp] theorem ofCfg_keepHints (g : Cfg) (facts : Facts) :
    ofCfg (g.keepHints keep) facts = ofCfg g facts := by
  have htargets : targets (g.keepHints keep) = targets g := by
    funext facts q s item
    unfold targets
    rw [Cfg.next_keepHints, Cfg.tailNullable_keepHints, Cfg.startItems_keepHints]
  have hgraph : targetGraph (g.keepHints keep) = targetGraph g := by
    funext facts states occurrences
    unfold targetGraph
    rw [htargets]
  have hoffers : offers (g.keepHints keep) = offers g := by
    funext facts s
    unfold offers
    rw [Cfg.next_keepHints, Cfg.tailFirsts_keepHints]
  have hseed : seed (g.keepHints keep) = seed g := by
    funext offers q s item
    unfold seed
    rw [Cfg.lhs?_keepHints]
  have hseeds : seeds (g.keepHints keep) = seeds g := by
    funext facts states
    unfold seeds
    rw [hoffers, hseed]
  unfold ofCfg
  rw [Cfg.states_keepHints, hgraph, hseeds]

@[simp] theorem completed_keepHints (a : Automaton) (g : Cfg) :
    a.completed (g.keepHints keep) = a.completed g := by
  funext q s
  unfold completed
  rw [Cfg.isComplete_keepHints]

end Automaton

/-! ## Records -/

/-- A record that nothing is preferred in moves where it can, unless an operator is to decide. -/
theorem Dispute.resolve_fst_congr {d d' : Dispute} (hkey : d.key = d'.key)
    (htarget : d.target = d'.target) (hcandidates : d.candidates = d'.candidates)
    (hoperator : d.isOperator = d'.isOperator) (hreduce : ∀ p, d.prefersReduce p = false)
    (hreduce' : ∀ p, d'.prefersReduce p = false) : d.resolve.1 = d'.resolve.1 := by
  have hordered : d.ordered = d'.ordered := by
    rw [ordered_eq_candidates fun p _ => hreduce p, ordered_eq_candidates fun p _ => hreduce' p,
      hcandidates]
  have hshift : ∀ p, (d.shiftOrReduce p).1 = (d'.shiftOrReduce p).1 := by
    intro p
    unfold shiftOrReduce
    rw [hoperator, hreduce, hreduce']
    cases d'.isOperator <;> cases d.prefersShift <;> cases d'.prefersShift <;> rfl
  rw [resolve_fst, resolve_fst, kind, kind, hordered, htarget, hkey]
  simp only [hshift]

namespace Automaton

variable {g g' : Cfg} {isOperator isOperator' : TermId → Bool}

/-- The records, state by state and key by key. -/
theorem records_eq (a : Automaton) (g : Cfg) (isOperator : TermId → Bool) :
    records (a.allDisputes g isOperator) = a.states.zipIdx.map fun sq =>
      (drafts sq.1 (a.completed g sq.2 sq.1)).map fun entry =>
        (entry.1, (dispute g isOperator sq.1 entry.1 entry.2).resolve.1) := by
  unfold records allDisputes disputes
  rw [List.map_map]
  refine List.map_congr_left fun sq _ => ?_
  exact List.map_map

/-- **Records have the same keys, targets and productions to choose from.** -/
theorem records_agree (a : Automaton) (h : a.completed g = a.completed g') :
    List.Forall₂ (List.Forall₂ fun r r' =>
        r.1 = r'.1 ∧ r.2.target = r'.2.target ∧ r.2.reduces.Perm r'.2.reduces)
      (records (a.allDisputes g isOperator)) (records (a.allDisputes g' isOperator')) := by
  rw [records_eq, records_eq, h, List.forall₂_map_left_iff, List.forall₂_map_right_iff,
    List.forall₂_same]
  intro sq _
  rw [List.forall₂_map_left_iff, List.forall₂_map_right_iff, List.forall₂_same]
  intro entry _
  have hcandidates : (dispute g isOperator sq.1 entry.1 entry.2).candidates =
      (dispute g' isOperator' sq.1 entry.1 entry.2).candidates := rfl
  rw [Dispute.resolve_fst, Dispute.resolve_fst]
  refine ⟨rfl, rfl, (Dispute.ordered_perm _).trans ?_⟩
  rw [hcandidates]
  exact (Dispute.ordered_perm _).symm

/-- **Where no production asks to be reduced, hints leave the records alone.** -/
theorem records_congr (a : Automaton) (h : a.completed g = a.completed g')
    (hg : ∀ p ∈ g.productions, p.prefersReduce = false)
    (hg' : ∀ p ∈ g'.productions, p.prefersReduce = false) :
    records (a.allDisputes g isOperator) = records (a.allDisputes g' isOperator) := by
  have hnone : ∀ {g : Cfg}, (∀ p ∈ g.productions, p.prefersReduce = false) →
      ∀ i : ProductionId, (g.productions[i]?.map Production.prefersReduce).getD false = false := by
    intro g hg i
    cases hp : g.productions[i]? with
    | none => rfl
    | some p => exact hg p (List.mem_of_getElem? hp)
  rw [records_eq, records_eq, h]
  refine List.map_congr_left fun sq _ => List.map_congr_left fun entry _ => ?_
  exact congrArg (Prod.mk entry.1)
    (Dispute.resolve_fst_congr rfl rfl rfl rfl (hnone hg) (hnone hg'))

end Automaton

/-! ## Compiling -/

variable {labels : Bool}

theorem Term.normalize_forget (ignoreCase : Bool) (t : Term) :
    (t.forget keep labels).normalize ignoreCase = (t.normalize ignoreCase).forget keep labels := by
  unfold normalize
  rw [isLiteral_forget]
  split <;> rfl

theorem Collection.normalize_forget (ignoreCase : Bool) (c : Collection) :
    (c.forget keep labels).terms.map (Term.normalize ignoreCase) =
      (c.terms.map (Term.normalize ignoreCase)).map (Term.forget keep labels) := by
  rw [terms_forget, List.map_map, List.map_map]
  exact List.map_congr_left fun t _ => t.normalize_forget ignoreCase

theorem filterMap_getElem?_forget (terms : List Term) (ids : List TermId) :
    ids.filterMap ((terms.map (Term.forget keep labels))[·]?) =
      (ids.filterMap (terms[·]?)).map (Term.forget keep labels) := by
  rw [List.map_filterMap]
  refine List.filterMap_congr fun id _ => ?_
  exact List.getElem?_map

theorem keywordsOf_forget [Text.Xid] (terms : List Term) (ids : List TermId) :
    keywordsOf (terms.map (Term.forget keep labels)) ids = keywordsOf terms ids := by
  unfold keywordsOf
  rw [filterMap_getElem?_forget, List.filter_map, List.map_map]
  rfl

theorem prepareTerms_forget [Text.Xid] (ignoreCase : Bool) (terms : List Term) (ids : List TermId) :
    prepareTerms ignoreCase (terms.map (Term.forget keep labels)) ids =
      (prepareTerms ignoreCase terms ids).map (Term.forget keep labels) := by
  unfold prepareTerms
  rw [keywordsOf_forget, List.map_map, List.map_map]
  rfl

/-- The scanner takes the labels it needs from the terms, and no hints. -/
theorem scannables_forget (terms : List Term) (ids : List TermId) :
    scannables (terms.map (Term.forget keep true)) ids = scannables terms ids := by
  unfold scannables
  refine List.filterMap_congr fun id _ => ?_
  rw [List.getElem?_map]
  cases terms[id]? <;> rfl

theorem Collection.issues_forget (c : Collection) : (c.forget keep true).issues = c.issues := by
  have hrule : ∀ id : TermId, (((c.forget keep true).terms[id]?).bind Term.rule).isNone =
      ((c.terms[id]?).bind Term.rule).isNone := by
    intro id
    rw [terms_forget, List.getElem?_map]
    cases c.terms[id]? with
    | none => rfl
    | some t => exact Option.isNone_map
  have hwithout : (c.forget keep true).withoutRule = c.withoutRule := by
    unfold withoutRule
    simp only [nonterminals_forget, hrule]
  have hunreachable : (c.forget keep true).unreachable = c.unreachable := by
    unfold unreachable
    simp only [isTerminal_forget, terms_forget, List.length_map]
    rfl
  unfold issues
  rw [hwithout, hunreachable]
  simp only [terms_forget, filterMap_getElem?_forget, List.map_map]
  rfl

namespace Definition

variable (d : Definition) (root : TermId) (c : Collection)

theorem terms_compileCollection_forget [Text.Xid] :
    (d.compileCollection root (c.forget keep labels)).terms =
      (d.compileCollection root c).terms.map (Term.forget keep labels) := by
  unfold compileCollection
  dsimp only
  rw [c.normalize_forget, prepareTerms_forget, Collection.terminals_forget]

theorem scanner_compileCollection_forget [Text.Xid] :
    (d.compileCollection root (c.forget keep true)).scanner =
      (d.compileCollection root c).scanner := by
  unfold compileCollection
  dsimp only
  rw [c.normalize_forget, scannables_forget, Collection.terminals_forget]

/-- Outside its conflicts, the log has the issues of the collection. -/
theorem log_compileCollection [Text.Xid] :
    (d.compileCollection root c).log.filter (fun issue => issue.level != .conflict) =
      c.issues := by
  unfold compileCollection
  dsimp only
  rw [List.filter_append]
  have hissues : c.issues.filter (fun issue => issue.level != .conflict) = c.issues := by
    refine List.filter_eq_self.mpr fun issue hissue => ?_
    rcases List.mem_append.mp hissue with hissue | hissue
    · obtain ⟨t, -, rfl⟩ := List.mem_map.mp hissue
      rfl
    · obtain ⟨t, -, rfl⟩ := List.mem_map.mp hissue
      rfl
  rw [hissues, List.filter_eq_nil_iff.mpr, List.append_nil]
  intro issue hissue
  obtain ⟨pair, -, rfl⟩ := List.mem_map.mp hissue
  exact Bool.false_ne_true

end Definition

/-! ## Two definitions -/

/-- No rule has the hint, at any depth. -/
def Definition.lacksHint (d : Definition) (hint : Hint) : Bool :=
  d.terms.all fun t => (t.rule.map (·.every (fun _ => true) (· != hint))).getD true

namespace Compiled

/-- The analysis of both grammars is the same, and so is what their records may do. -/
structure SameAnalysis (c c' : Compiled) : Prop where
  productions  : c.cfg.productions.map (fun p => (p.lhs, p.rhs)) =
    c'.cfg.productions.map fun p => (p.lhs, p.rhs)
  items        : c.cfg.items = c'.cfg.items
  next         : c.cfg.next = c'.cfg.next
  tailFirsts   : c.cfg.tailFirsts c.facts = c'.cfg.tailFirsts c'.facts
  tailNullable : c.cfg.tailNullable c.facts = c'.cfg.tailNullable c'.facts
  /-- The states with their kernels and items, where lookaheads spread, and what comes of it. -/
  automaton    : c.automaton = c'.automaton
  records      : List.Forall₂ (List.Forall₂ fun r r' =>
    r.1 = r'.1 ∧ r.2.target = r'.2.target ∧ r.2.reduces.Perm r'.2.reduces) c.records c'.records

/-- The grammars are the same but for preferences to shift in their rules, and for the conflicts
in the log. Tokens and actions are the same, so every run is. -/
structure SameButConflicts [Text.Xid] (c c' : Compiled) : Prop where
  ignoreCase : c.ignoreCase = c'.ignoreCase
  root       : c.root = c'.root
  terms      : c.terms.map (Term.forget (· != .preferShift) true) =
    c'.terms.map (Term.forget (· != .preferShift) true)
  cfg        : c.cfg.keepHints (· != .preferShift) = c'.cfg.keepHints (· != .preferShift)
  facts      : c.facts = c'.facts
  automaton  : c.automaton = c'.automaton
  records    : c.records = c'.records
  scanner    : c.scanner = c'.scanner
  log        : c.log.filter (fun issue => issue.level != .conflict) =
    c'.log.filter fun issue => issue.level != .conflict
  tokens     : c.tokens = c'.tokens
  table      : c.table = c'.table

end Compiled

namespace Definition

variable {d d' : Definition} {root : TermId} {c c' : Compiled} {labels : Bool}

theorem every_of_lacksHint {hint : Hint} (h : d.lacksHint hint = true) :
    ∀ t ∈ d.terms, ∀ e, t.rule = some e → e.every (fun _ => true) (· != hint) = true := by
  intro t ht e he
  have hall := List.all_eq_true.mp h t ht
  rw [he] at hall
  exact hall

/-- What is equal after forgetting is collected to what is equal after forgetting. -/
theorem collect_forget_congr (h : d.forget keep labels = d'.forget keep labels) :
    (d.collect root).forget keep labels = (d'.collect root).forget keep labels := by
  rw [← collect_forget, ← collect_forget, h]

theorem cfg_keepHints_congr (h : d.forget keep labels = d'.forget keep labels) :
    (d.collect root).cfg.keepHints keep = (d'.collect root).cfg.keepHints keep := by
  rw [← Collection.cfg_forget, ← Collection.cfg_forget, collect_forget_congr h]

/-- Without a hint in the rules there is none in the productions. -/
theorem hints_ne_of_lacksHint {hint : Hint} (h : d.lacksHint hint = true) :
    ∀ p ∈ (d.collect root).cfg.productions, ∀ mark ∈ p.hints, mark.2 ≠ hint := by
  intro p hp mark hmark
  have hkept : (d.collect root).cfg.keepHints (· != hint) = (d.collect root).cfg := by
    rw [← Collection.cfg_forget, ← collect_forget, d.forget_eq_self (every_of_lacksHint h)]
  rw [← hkept] at hp
  obtain ⟨p, -, rfl⟩ := List.mem_map.mp hp
  simpa using (List.mem_filter.mp hmark).2

end Definition

/-- What does not look at hints is the same for grammars that differ in hints only. -/
theorem Cfg.eq_of_keepHints {α : Type} (f : Cfg → α) (hf : ∀ g, f (g.keepHints keep) = f g)
    {g g' : Cfg} (h : g.keepHints keep = g'.keepHints keep) : f g = f g' := by
  rw [← hf g, h, hf g']

namespace Compiled

variable {d d' : Definition} {c c' : Compiled} {root : TermId}

/-- The collections of grammars that differ in hints only are analysed alike. -/
theorem sameAnalysis_of_keepHints [Text.Xid] {l l' : Collection}
    (h : l.cfg.keepHints keep = l'.cfg.keepHints keep) :
    SameAnalysis (d.compileCollection root l) (d'.compileCollection root l') := by
  have hfacts : l.cfg.facts = l'.cfg.facts := Cfg.eq_of_keepHints _ (fun g => by simp) h
  have hautomaton : Automaton.ofCfg l.cfg l.cfg.facts = Automaton.ofCfg l'.cfg l'.cfg.facts :=
    Cfg.eq_of_keepHints (fun g => Automaton.ofCfg g g.facts) (fun g => by simp) h
  refine ⟨?_, ?_, ?_, ?_, ?_, hautomaton, ?_⟩
  · refine Cfg.eq_of_keepHints (fun g => g.productions.map fun p => (p.lhs, p.rhs)) ?_ h
    intro g
    rw [Cfg.keepHints, List.map_map]
    rfl
  · exact Cfg.eq_of_keepHints Cfg.items (fun g => by simp) h
  · exact Cfg.eq_of_keepHints Cfg.next (fun g => by simp) h
  · exact Cfg.eq_of_keepHints (fun g => g.tailFirsts g.facts) (fun g => by simp) h
  · exact Cfg.eq_of_keepHints (fun g => g.tailNullable g.facts) (fun g => by simp) h
  · show List.Forall₂ _ (Automaton.records ((Automaton.ofCfg l.cfg l.cfg.facts).allDisputes _ _))
      (Automaton.records ((Automaton.ofCfg l'.cfg l'.cfg.facts).allDisputes _ _))
    rw [hautomaton]
    refine Automaton.records_agree _ ?_
    exact Cfg.eq_of_keepHints (Automaton.completed _) (fun g => by simp) h

/-- Actions take left-hand sides and arities from the productions, and nothing else. -/
theorem SameAnalysis.actionOf_eq (h : SameAnalysis c c') : c.actionOf = c'.actionOf := by
  funext r
  unfold actionOf
  cases r.reduces.head? with
  | none => rfl
  | some i =>
    have hi := congrArg (fun ps : List (TermId × List TermId) => ps[i]?) h.productions
    simp only [List.getElem?_map] at hi
    rw [Option.bind_some, Option.bind_some]
    cases hp : c.cfg.productions[i]? with
    | none =>
      rw [hp] at hi
      rw [Option.map_eq_none_iff.mp hi.symm]
    | some p =>
      rw [hp] at hi
      obtain ⟨p', hp', heq⟩ := Option.map_eq_some_iff.mp hi.symm
      obtain ⟨hlhs, hrhs⟩ := Prod.mk.inj heq
      rw [hp', Option.map_some, Option.map_some]
      cases r.kind <;> cases r.target <;> simp only [hlhs, hrhs]

theorem isOperatorIn_forget (terms : List Term) :
    isOperatorIn (terms.map (Term.forget keep true)) = isOperatorIn terms := by
  funext id
  exact isOperatorIn_map (by intro t; rfl) terms id

/-- What is read off a term with its labels is the same. -/
theorem bind_getElem?_of_forget {α : Type} {f : Term → Option α}
    (hf : ∀ t : Term, f (t.forget keep true) = f t) {terms terms' : List Term}
    (h : terms.map (Term.forget keep true) = terms'.map (Term.forget keep true)) (id : TermId) :
    terms[id]?.bind f = terms'[id]?.bind f := by
  have hid := congrArg (fun ts : List Term => ts[id]?.bind f) h
  simpa only [List.getElem?_map, Option.bind_map, Function.comp_def, hf] using hid

/-- **Preferences to shift change no record** where nothing prefers to be reduced. -/
theorem sameButConflicts_of_forget [Text.Xid] {l l' : Collection}
    (h : l.forget (· != .preferShift) true = l'.forget (· != .preferShift) true)
    (hreduce : ∀ p ∈ l.cfg.productions, p.prefersReduce = false)
    (hreduce' : ∀ p ∈ l'.cfg.productions, p.prefersReduce = false) :
    SameButConflicts (d.compileCollection root l) (d.compileCollection root l') := by
  have hcfg : l.cfg.keepHints (· != .preferShift) = l'.cfg.keepHints (· != .preferShift) := by
    rw [← Collection.cfg_forget, ← Collection.cfg_forget, h]
  have hterms : (d.compileCollection root l).terms.map (Term.forget (· != .preferShift) true) =
      (d.compileCollection root l').terms.map (Term.forget (· != .preferShift) true) := by
    rw [← Definition.terms_compileCollection_forget, ← Definition.terms_compileCollection_forget, h]
  have hanalysis : SameAnalysis (d.compileCollection root l) (d.compileCollection root l') :=
    sameAnalysis_of_keepHints hcfg
  have hoperators : isOperatorIn (l.terms.map (Term.normalize d.ignoreCase)) =
      isOperatorIn (l'.terms.map (Term.normalize d.ignoreCase)) := by
    rw [← isOperatorIn_forget, ← Collection.normalize_forget, h, Collection.normalize_forget,
      isOperatorIn_forget]
  have hrecords : (d.compileCollection root l).records = (d.compileCollection root l').records := by
    show Automaton.records ((Automaton.ofCfg l.cfg l.cfg.facts).allDisputes _ _) =
      Automaton.records ((Automaton.ofCfg l'.cfg l'.cfg.facts).allDisputes _ _)
    rw [hoperators, show Automaton.ofCfg l.cfg l.cfg.facts = _ from hanalysis.automaton]
    refine Automaton.records_congr _ ?_ hreduce hreduce'
    exact Cfg.eq_of_keepHints (Automaton.completed _) (fun g => by simp) hcfg
  have hscanner : (d.compileCollection root l).scanner = (d.compileCollection root l').scanner := by
    rw [← Definition.scanner_compileCollection_forget, h,
      Definition.scanner_compileCollection_forget]
  have hlog : (d.compileCollection root l).log.filter (fun issue => issue.level != .conflict) =
      (d.compileCollection root l').log.filter fun issue => issue.level != .conflict := by
    rw [Definition.log_compileCollection, Definition.log_compileCollection,
      ← Collection.issues_forget, h, Collection.issues_forget]
  have hmatchers : (d.compileCollection root l).matcherOf =
      (d.compileCollection root l').matcherOf :=
    funext (bind_getElem?_of_forget (fun _ => rfl) hterms)
  have haction : (d.compileCollection root l).action = (d.compileCollection root l').action := by
    funext q ahead
    unfold action
    rw [hrecords, hanalysis.actionOf_eq]
  have hfacts : l.cfg.facts = l'.cfg.facts := Cfg.eq_of_keepHints _ (fun g => by simp) hcfg
  refine ⟨rfl, rfl, hterms, hcfg, hfacts, hanalysis.automaton, hrecords, hscanner, hlog, ?_, ?_⟩
  · unfold tokens
    rw [hmatchers, hscanner]
  · unfold table
    rw [haction, funext (bind_getElem?_of_forget (fun _ => rfl) hterms)]

/-- **Metadata does not touch the analysis.** Two definitions may differ in the hints of their
rules, at any depth, and in the precedences, nicknames and match priorities of their terms: if both
compile, their productions, items, states and lookaheads are the same, and so is how lookaheads
spread; each record has the same target and the same productions to reduce, up to order. If they
only differ in preferences to shift, and there are none to reduce, then all records are the same,
and the grammars differ in logged conflicts only. -/
theorem analysis_ignores_metadata [Text.Xid]
    (hsame : d.forget (fun _ => false) false = d'.forget (fun _ => false) false)
    (h : d.compile = .ok c) (h' : d'.compile = .ok c') :
    SameAnalysis c c' ∧
      (d.forget (· != .preferShift) true = d'.forget (· != .preferShift) true →
        d.lacksHint .preferReduce = true → d'.lacksHint .preferReduce = true →
        SameButConflicts c c') := by
  obtain ⟨root, hroot, rfl⟩ := Definition.compile_ok h
  obtain ⟨root', hroot', rfl⟩ := Definition.compile_ok h'
  have hroots : d.root = d'.root := by
    have hforgotten := congrArg Definition.root hsame
    exact hforgotten
  obtain rfl : root = root' := Option.some.inj (hroot.symm.trans (hroots.trans hroot'))
  constructor
  · exact sameAnalysis_of_keepHints (Definition.cfg_keepHints_congr hsame)
  · intro hshift hlacks hlacks'
    have hcase : d.ignoreCase = d'.ignoreCase := by
      have hforgotten := congrArg Definition.ignoreCase hsame
      exact hforgotten
    have hcompile : ∀ l, d'.compileCollection root l = d.compileCollection root l := by
      intro l
      unfold Definition.compileCollection
      rw [hcase]
    have hreduce : ∀ {d : Definition}, d.lacksHint .preferReduce = true →
        ∀ p ∈ (d.collect root).cfg.productions, p.prefersReduce = false := by
      intro d hlacks p hp
      refine Bool.eq_false_iff.mpr fun hprefers => ?_
      have hmem := List.contains_iff_mem.mp hprefers
      exact Definition.hints_ne_of_lacksHint hlacks p hp _ hmem rfl
    rw [hcompile]
    exact sameButConflicts_of_forget (Definition.collect_forget_congr hshift) (hreduce hlacks)
      (hreduce hlacks')

/-- Conditionals with an optional `else`, which may carry marks before it. -/
def conditionals (marks : List Operand) : List Command :=
  [.literal "if", .literal "else", .literal "x", .nonterminal "S",
    .rule 6 ⟨[[.term 3, .term 6], [.term 3, .term 6] ++ marks ++ [.term 4, .term 6], [.term 5]]⟩,
    .root 6]

/-- The conditionals, compiled. -/
def conditionalsCompiled (marks : List Operand) : Compiled :=
  let d := Definition.ofCommands false (conditionals marks)
  d.compileCollection 6 (d.collect 6)

/-- A preference to shift the `else` silences the conflict about it. -/
theorem analysis_ignores_metadata_conditionals :
    SameAnalysis (conditionalsCompiled []) (conditionalsCompiled [.hint .preferShift]) ∧
      SameButConflicts (conditionalsCompiled []) (conditionalsCompiled [.hint .preferShift]) ∧
      (conditionalsCompiled []).log.length = 1 ∧
      (conditionalsCompiled [.hint .preferShift]).log = [] := by
  have hcompile : (Definition.ofCommands false (conditionals [])).compile =
      .ok (conditionalsCompiled []) :=
    Definition.compile_eq_ok (by decide) (by decide)
  have hcompile' : (Definition.ofCommands false (conditionals [.hint .preferShift])).compile =
      .ok (conditionalsCompiled [.hint .preferShift]) :=
    Definition.compile_eq_ok (by decide) (by decide)
  have hsame : (Definition.ofCommands false (conditionals [])).forget (fun _ => false) false =
      (Definition.ofCommands false (conditionals [.hint .preferShift])).forget
        (fun _ => false) false := by
    rfl
  have hshift : (Definition.ofCommands false (conditionals [])).forget (· != .preferShift) true =
      (Definition.ofCommands false (conditionals [.hint .preferShift])).forget
        (· != .preferShift) true := by
    rfl
  obtain ⟨hanalysis, hconflicts⟩ := analysis_ignores_metadata hsame hcompile hcompile'
  exact ⟨hanalysis, hconflicts hshift (by decide) (by decide),
    by decide, by decide⟩

end Compiled

end Lalr

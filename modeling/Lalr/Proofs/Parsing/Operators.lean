import Lalr.Proofs.Automaton.Validity
import Lalr.Proofs.Parsing.Completeness
import Lalr.Proofs.Parsing.Grouping

/-!
# Operator grammars

An operator grammar has one nonterminal, and each of its productions combines two expressions by an
operator or is an operand. Such a grammar is ambiguous, and the table leaves every choice that
matters to parse time. This module follows the machine over words of operands and operators.

The stack spells operands and operators in turn (`stackOf`), so there are few situations:

* an operand is shifted (`action_of_next`), and then reduced whatever comes (`action_operand`);
* behind a single expression an operator is shifted, and the end of input accepts
  (`action_single`, `action_accept`);
* behind an operation the end of input reduces (`action_operation_eof`), and an operator is compared
  with the nearest one on the stack (**`action_operation`**).

The expressions on the stack wait in order of precedence (`Waiting`). The induction is on the input
(**`outcome_before_operand`**) and, since a reduction reads nothing, within it on the stack
(**`outcome_before_operator`**, `outcome_at_end`). **`operators_group`** is the result: the run
accepts, with a derivation tree that is grouped by precedence, or it refuses an operator as not
associative, and this happens iff the word has a clash.
-/

namespace Lalr

open ParseTree

namespace Compiled

variable {c : Compiled} {i : ProductionId} {p : Production} {k t o : TermId} {pending : Pending}
  {q : StateId} {states : List StateId}

/-- The terminal is an expression by itself. -/
def IsOperand (c : Compiled) (t : TermId) : Prop := ∃ p ∈ c.cfg.productions.tail, p.rhs = [t]

/-- The terminal combines two expressions. -/
def IsOperator (c : Compiled) (o : TermId) : Prop :=
  ∃ p ∈ c.cfg.productions.tail, p.rhs = [c.root, o, c.root]

instance (c : Compiled) (t : TermId) : Decidable (c.IsOperand t) :=
  inferInstanceAs (Decidable (∃ p ∈ c.cfg.productions.tail, p.rhs = [t]))

instance (c : Compiled) (o : TermId) : Decidable (c.IsOperator o) :=
  inferInstanceAs (Decidable (∃ p ∈ c.cfg.productions.tail, p.rhs = [c.root, o, c.root]))

/-- **An operator grammar.** -/
structure OperatorGrammar (c : Compiled) : Prop where
  /-- The root is the only nonterminal, apart from the augmented root. -/
  nonterminals : ∀ x ∈ c.cfg.nonterminals, x = TermId.root ∨ x = c.root
  /-- A production other than the augmented root's has an operator between two expressions, or is a
  terminal that is no operator. -/
  productions  : ∀ p ∈ c.cfg.productions.tail,
    (∃ o ∈ c.cfg.terminals, p.rhs = [c.root, o, c.root] ∧ c.table.precedence o ≠ none) ∨
      ∃ t ∈ c.cfg.terminals, p.rhs = [t] ∧ t ≠ TermId.eof ∧ c.table.precedence t = none
  /-- No operator and no operand has two productions. -/
  distinct     : (c.cfg.productions.map Production.rhs).Nodup
  /-- The operators of one priority have one associativity. -/
  assoc        : ∀ o ∈ c.cfg.terminals, ∀ o' ∈ c.cfg.terminals, ∀ a ∈ c.table.precedence o,
    ∀ b ∈ c.table.precedence o', a.priority = b.priority → a.assoc = b.assoc

/-- Operands with operators between them. -/
inductive OperatorWord (c : Compiled) : List (Token TermId) → Prop
  | operand {t : Token TermId} (ht : c.IsOperand t.symbol) : OperatorWord c [t]
  | operation {t o : Token TermId} {rest : List (Token TermId)} (ht : c.IsOperand t.symbol)
      (ho : c.IsOperator o.symbol) (h : OperatorWord c rest) : OperatorWord c (t :: o :: rest)

/-- The run over the word reports the reductions, and then how it ends. -/
def RunsTo (c : Compiled) (word : List (Token TermId)) (reductions : List ProductionId)
    (last : Except ParseError (Event ProductionId)) : Prop :=
  (Machine.calls c.table (reductions.length + 1) (Machine.start c.table)
    (word.map .token)).1.map Call.event = reductions.map (fun i => .ok (.reduce i)) ++ [last]

/-- The production of the root has the right-hand side. -/
def RootRule (c : Compiled) (i : ProductionId) (rhs : List TermId) : Prop :=
  ∃ hints, c.cfg.productions[i]? = some ⟨c.root, rhs, hints⟩

theorem isOperatorIn_of_precedence (h : c.table.precedence k ≠ none) :
    isOperatorIn c.terms k = true := by
  replace h : c.terms[k]?.bind Term.precedence ≠ none := h
  unfold isOperatorIn
  cases ht : c.terms[k]? with
  | none => simp [ht] at h
  | some term =>
    rw [ht, Option.bind_some] at h
    simpa [Term.isOperator, Option.isSome_iff_ne_none] using h

namespace OperatorGrammar

/-! ## Productions -/

theorem operator_spec (hc : c.OperatorGrammar) (ho : c.IsOperator o) :
    o ∈ c.cfg.terminals ∧ c.table.precedence o ≠ none := by
  obtain ⟨p, hp, hrhs⟩ := ho
  rcases hc.productions p hp with ⟨o', ho', hrhs', hprec⟩ | ⟨t, -, hrhs', -⟩
  · obtain rfl : o = o' := by simpa [hrhs] using hrhs'
    exact ⟨ho', hprec⟩
  · simp [hrhs] at hrhs'

theorem operand_spec (hc : c.OperatorGrammar) (ht : c.IsOperand t) :
    t ∈ c.cfg.terminals ∧ t ≠ TermId.eof ∧ c.table.precedence t = none := by
  obtain ⟨p, hp, hrhs⟩ := ht
  rcases hc.productions p hp with ⟨o', -, hrhs', -⟩ | ⟨t', ht', hrhs', hne, hprec⟩
  · simp [hrhs] at hrhs'
  · obtain rfl : t = t' := by simpa [hrhs] using hrhs'
    exact ⟨ht', hne, hprec⟩

theorem operator_ne_eof (hc : c.OperatorGrammar) (hb : c.Built) (ho : c.IsOperator o) :
    o ≠ TermId.eof := by
  rintro rfl
  have htrue := isOperatorIn_of_precedence (hc.operator_spec ho).2
  rw [hb.eof] at htrue
  exact nomatch htrue

theorem operator_ne_root (hc : c.OperatorGrammar) (hb : c.Built) (ho : c.IsOperator o) :
    o ≠ c.root := by
  rintro rfl
  exact hb.augmented.not_both _ (hc.operator_spec ho).1 hb.augmented.root_mem

theorem operand_ne_root (hc : c.OperatorGrammar) (hb : c.Built) (ht : c.IsOperand t) :
    t ≠ c.root := by
  rintro rfl
  exact hb.augmented.not_both _ (hc.operand_spec ht).1 hb.augmented.root_mem

theorem operand_ne_operator (hc : c.OperatorGrammar) (ht : c.IsOperand t)
    (ho : c.IsOperator o) : t ≠ o := by
  rintro rfl
  exact (hc.operator_spec ho).2 (hc.operand_spec ht).2.2

/-- **The productions of an operator grammar.** -/
theorem production_cases (hc : c.OperatorGrammar) (hb : c.Built)
    (hp : c.cfg.productions[i]? = some p) :
    (i = ProductionId.root ∧ p.rhs = [c.root]) ∨
      (∃ o, c.IsOperator o ∧ p.rhs = [c.root, o, c.root]) ∨ ∃ t, c.IsOperand t ∧ p.rhs = [t] := by
  cases i with
  | zero =>
    obtain rfl := Option.some.inj (hp.symm.trans hb.augmented.root_production)
    exact Or.inl ⟨rfl, rfl⟩
  | succ j =>
    have hmem : p ∈ c.cfg.productions.tail := by
      refine List.mem_of_getElem? (i := j) ?_
      rw [List.getElem?_tail]
      exact hp
    rcases hc.productions p hmem with ⟨o, -, hrhs, -⟩ | ⟨t, -, hrhs, -⟩
    · exact Or.inr (Or.inl ⟨o, ⟨p, hmem, hrhs⟩, hrhs⟩)
    · exact Or.inr (Or.inr ⟨t, ⟨p, hmem, hrhs⟩, hrhs⟩)

/-- A production other than the augmented root's is one of the root. -/
theorem exists_production (hc : c.OperatorGrammar) (hb : c.Built)
    (hp : p ∈ c.cfg.productions.tail) : ∃ i, c.RootRule i p.rhs := by
  obtain ⟨j, hj⟩ := List.mem_iff_getElem?.mp hp
  rw [List.getElem?_tail] at hj
  have hlhs : p.lhs = c.root := by
    rcases hc.nonterminals _ (hb.augmented.lhs_mem p (List.mem_of_getElem? hj)) with hroot | hroot
    · exact absurd (hb.augmented.root_unique _ p hj hroot) (Nat.succ_ne_zero j)
    · exact hroot
  refine ⟨j + 1, p.hints, ?_⟩
  rw [← hlhs]
  exact hj

theorem exists_operand (hc : c.OperatorGrammar) (hb : c.Built) (ht : c.IsOperand t) :
    ∃ i, c.RootRule i [t] := by
  obtain ⟨p, hp, hrhs⟩ := ht
  rw [← hrhs]
  exact hc.exists_production hb hp

theorem exists_operation (hc : c.OperatorGrammar) (hb : c.Built) (ho : c.IsOperator o) :
    ∃ i, c.RootRule i [c.root, o, c.root] := by
  obtain ⟨p, hp, hrhs⟩ := ho
  rw [← hrhs]
  exact hc.exists_production hb hp

/-- The augmented root's production is none of the root. -/
theorem ne_root (hb : c.Built) {rhs : List TermId} (h : c.RootRule i rhs) :
    i ≠ ProductionId.root := by
  rintro rfl
  obtain ⟨hints, hp⟩ := h
  have hroot := hb.augmented.root_production
  have heq : c.root = TermId.root :=
    congrArg Production.lhs (Option.some.inj (hp.symm.trans hroot))
  refine hb.augmented.root_not_mem _ hb.augmented.root_mem_productions ?_
  rw [← heq]
  exact List.mem_singleton_self _

theorem eq_of_rhs (hc : c.OperatorGrammar) {j : ProductionId} {rhs : List TermId}
    (hi : c.cfg.productions[i]?.map Production.rhs = some rhs)
    (hj : c.cfg.productions[j]?.map Production.rhs = some rhs) : i = j := by
  rw [← List.getElem?_map] at hi hj
  exact (List.getElem?_inj (List.getElem?_eq_some_iff.mp hi).1 hc.distinct).mp (hi.trans hj.symm)

/-- **What may stand behind a dot**: an expression, an operator, or an operand and nothing more. -/
theorem next_cases (hc : c.OperatorGrammar) (hb : c.Built) {item : Item} {x : TermId}
    (hx : c.cfg.next item = some x) :
    x = c.root ∨ c.IsOperator x ∨ c.IsOperand x ∧ c.cfg.next item.advance = none := by
  obtain ⟨p, hp, hget⟩ := Cfg.next_eq_some_iff.mp hx
  have hmem := List.mem_of_getElem? hget
  rcases hc.production_cases hb hp with ⟨-, hrhs⟩ | ⟨o, ho, hrhs⟩ | ⟨t, ht, hrhs⟩
  · exact Or.inl (by simpa [hrhs] using hmem)
  · simp only [hrhs, List.mem_cons, List.not_mem_nil, or_false] at hmem
    rcases hmem with rfl | rfl | rfl
    · exact Or.inl rfl
    · exact Or.inr (Or.inl ho)
    · exact Or.inl rfl
  · obtain rfl : x = t := by simpa [hrhs] using hmem
    have hposition : item.position = 0 := by
      have hlt := (List.getElem?_eq_some_iff.mp hget).1
      simpa [hrhs] using hlt
    refine Or.inr (Or.inr ⟨ht, ?_⟩)
    rw [Cfg.next, show item.advance.production = item.production from rfl, hp]
    simp [hrhs, Item.advance]

/-- **What can be reduced is what the stack ends in.** -/
theorem reducible_cases (hc : c.OperatorGrammar) (hb : c.Built) {xs : List TermId}
    (hpath : c.cfg.Path (q :: states) xs) (h : c.cfg.Reducible q k i) :
    (xs = [c.root] ∧ i = ProductionId.root ∧ k = TermId.eof) ∨
      (∃ o ys, xs = c.root :: o :: c.root :: ys ∧
        c.cfg.productions[i]?.map Production.rhs = some [c.root, o, c.root]) ∨
      ∃ t ys, xs = t :: ys ∧ c.IsOperand t ∧
        c.cfg.productions[i]?.map Production.rhs = some [t] := by
  obtain ⟨p, hp, hk⟩ := h
  have hitem := hk.mem_itemsOf hb.augmented
  obtain ⟨ys, -, -, hys, -, -⟩ := hpath.of_complete hb.augmented hp hitem
  rcases hc.production_cases hb hp with ⟨rfl, hrhs⟩ | ⟨o, -, hrhs⟩ | ⟨t, ht, hrhs⟩
  · rw [hrhs] at hitem
    exact Or.inl ⟨(hpath.of_root_complete hb.augmented hitem).2.1, rfl,
      hb.augmented.eq_eof_of_lookahead_root hk rfl⟩
  · refine Or.inr (Or.inl ⟨o, ys, ?_, by rw [hp, Option.map_some, hrhs]⟩)
    simpa [hrhs] using hys
  · refine Or.inr (Or.inr ⟨t, ys, ?_, ht, by rw [hp, Option.map_some, hrhs]⟩)
    simpa [hrhs] using hys

end OperatorGrammar

/-! ## The stack -/

/-- The stack above which an operand is expected. -/
def stackOf (c : Compiled) : Pending → List (Entry TermId)
  | [] => []
  | (_, o) :: pending => .token o :: .nonterminal c.root :: c.stackOf pending

/-- The symbols on that stack. -/
def symbolsOf (c : Compiled) (pending : Pending) : List TermId :=
  (c.stackOf pending).map Entry.symbol

/-- What waits on the stack are expressions with operators behind them. -/
def Pushed (c : Compiled) (pending : Pending) : Prop :=
  ∀ x ∈ pending, c.cfg.Forest [c.root] [x.1] ∧ c.IsOperator x.2.symbol

/-- The symbol may come behind an expression. -/
def Follows (c : Compiled) (k : TermId) : Prop := k = TermId.eof ∨ c.IsOperator k

theorem Pushed.cons {tree : ParseTree} {o : Token TermId} (h : c.Pushed pending)
    (htree : c.cfg.Forest [c.root] [tree]) (ho : c.IsOperator o.symbol) :
    c.Pushed ((tree, o) :: pending) := by
  intro x hx
  rcases List.mem_cons.mp hx with rfl | hx
  · exact ⟨htree, ho⟩
  · exact h x hx

theorem Pushed.tail {x : ParseTree × Token TermId} (h : c.Pushed (x :: pending)) :
    c.Pushed pending :=
  fun y hy => h y (List.mem_cons_of_mem x hy)

namespace OperatorGrammar

/-- Where an operand is expected, the dot of an item stands before its last symbol, the root. -/
theorem exists_expecting (hc : c.OperatorGrammar) (hb : c.Built) :
    ∀ {pending : Pending}, c.Pushed pending → ∃ item,
      c.cfg.Viable (c.symbolsOf pending).reverse item ∧
      c.cfg.Foreseen (c.symbolsOf pending).reverse item TermId.eof ∧
      c.cfg.next item = some c.root ∧ c.cfg.tail item = []
  | [], _ => by
    have hroot := hb.augmented.root_production
    refine ⟨⟨ProductionId.root, 0⟩, .start, .start, Cfg.next_eq_some_iff.mpr ⟨_, hroot, rfl⟩, ?_⟩
    rw [Cfg.tail_eq hroot]
    rfl
  | (l, o) :: pending, hpushed => by
    obtain ⟨item, hviable, hforeseen, hx, htail⟩ := hc.exists_expecting hb hpushed.tail
    obtain ⟨i, hints, hp⟩ := hc.exists_operation hb (hpushed _ List.mem_cons_self).2
    have hfirst : c.cfg.next (Item.start i) = some c.root :=
      Cfg.next_eq_some_iff.mpr ⟨_, hp, rfl⟩
    have hsecond : c.cfg.next (Item.start i).advance = some o.symbol :=
      Cfg.next_eq_some_iff.mpr ⟨_, hp, rfl⟩
    have hempty : c.cfg.Derives (c.cfg.tail item) [] := by
      rw [htail]
      exact .refl []
    have hsymbols : (c.symbolsOf ((l, o) :: pending)).reverse =
        (c.symbolsOf pending).reverse ++ [c.root] ++ [o.symbol] := by
      simp [symbolsOf, stackOf, Entry.symbol]
    rw [hsymbols]
    refine ⟨(Item.start i).advance.advance, ((hviable.close hp hx).advance hfirst).advance hsecond,
      ((hforeseen.inherit hp hx hempty).advance hfirst).advance hsecond,
      Cfg.next_eq_some_iff.mpr ⟨_, hp, rfl⟩, ?_⟩
    rw [Cfg.tail_eq hp]
    rfl

theorem viable_start (hc : c.OperatorGrammar) (hb : c.Built) (hpushed : c.Pushed pending)
    {rhs : List TermId} (h : c.RootRule i rhs) :
    c.cfg.Viable (c.symbolsOf pending).reverse (Item.start i) := by
  obtain ⟨hints, hp⟩ := h
  obtain ⟨item, hviable, -, hx, -⟩ := hc.exists_expecting hb hpushed
  exact hviable.close hp hx

/-- **Whatever may come behind an expression is foreseen for every production of the root.** -/
theorem foreseen_start (hc : c.OperatorGrammar) (hb : c.Built) (hpushed : c.Pushed pending)
    {rhs : List TermId} (h : c.RootRule i rhs) (hk : c.Follows k) :
    c.cfg.Foreseen (c.symbolsOf pending).reverse (Item.start i) k := by
  obtain ⟨hints, hp⟩ := h
  rcases hk with rfl | hk
  · obtain ⟨item, -, hforeseen, hx, htail⟩ := hc.exists_expecting hb hpushed
    refine hforeseen.inherit hp hx ?_
    rw [htail]
    exact .refl []
  · obtain ⟨j, hints', hp'⟩ := hc.exists_operation hb hk
    have hx : c.cfg.next (Item.start j) = some c.root :=
      Cfg.next_eq_some_iff.mpr ⟨_, hp', rfl⟩
    refine .offer (hc.viable_start hb hpushed ⟨hints', hp'⟩) hp hx
      ⟨(hc.operator_spec hk).1, [c.root], ?_⟩
    rw [Cfg.tail_eq hp']
    exact .refl _

/-! ## What the table asks for -/

/-- Where an operand is expected, nothing can be reduced: the stack ends in an operator. -/
theorem not_reducible (hc : c.OperatorGrammar) (hb : c.Built) (hpushed : c.Pushed pending)
    (hpath : c.cfg.Path (q :: states) (c.symbolsOf pending)) : ¬ c.cfg.Reducible q k i := by
  intro h
  have hcases := hc.reducible_cases hb hpath h
  cases pending with
  | nil => simp [symbolsOf, stackOf] at hcases
  | cons x pending =>
    have ho := (hpushed x List.mem_cons_self).2
    rcases hcases with ⟨hsymbols, -⟩ | ⟨o, ys, hsymbols, -⟩ | ⟨t, ys, hsymbols, ht, -⟩
    · exact hc.operator_ne_root hb ho (List.cons.inj hsymbols).1
    · exact hc.operator_ne_root hb ho (List.cons.inj hsymbols).1
    · exact hc.operand_ne_operator ht ho (List.cons.inj hsymbols).1.symm

/-- Where an operand is expected, the table shifts what an item has behind its dot. -/
theorem action_of_next (hc : c.OperatorGrammar) (hb : c.Built) (hpushed : c.Pushed pending)
    (hpath : c.cfg.Path (q :: states) (c.symbolsOf pending)) {item : Item} {x : TermId}
    (hviable : c.cfg.Viable (c.symbolsOf pending).reverse item) (hx : c.cfg.next item = some x) :
    ∃ target, c.cfg.goto? q x = some target ∧ c.table.action q (some x) = .shift target := by
  obtain ⟨target, htarget⟩ := hb.augmented.exists_goto
    (hviable.mem_itemsOf hb.augmented (hpath.stateAfter_reverse rfl)) hx
  exact ⟨target, htarget, hb.action_of_goto htarget fun _ => hc.not_reducible hb hpushed hpath⟩

/-- No rule mentions the end of input. -/
theorem goto_eof (hc : c.OperatorGrammar) (hb : c.Built) (q : StateId) :
    c.cfg.goto? q TermId.eof = none := by
  refine Option.eq_none_iff_forall_ne_some.mpr fun target htarget => ?_
  obtain ⟨⟨item, -, hx⟩, -⟩ := hb.augmented.goto_iff.mp htarget
  rcases hc.next_cases hb hx with heof | ho | ⟨ht, -⟩
  · exact hb.augmented.not_both _ hb.augmented.eof_mem (heof ▸ hb.augmented.root_mem)
  · exact hc.operator_ne_eof hb ho rfl
  · exact (hc.operand_spec ht).2.1 rfl

/-- Behind an operand every item is complete. -/
theorem next_behind_operand (hc : c.OperatorGrammar) (hb : c.Built) (ht : c.IsOperand t)
    {xs ys : List TermId} {item : Item} (h : c.cfg.Viable ys item) (hys : ys = xs ++ [t]) :
    c.cfg.next item = none := by
  induction h generalizing xs with
  | start => simp at hys
  | close _ _ hx ih => exact nomatch (ih hys).symm.trans hx
  | advance _ hx _ =>
    rename_i item x _ _
    obtain rfl : x = t := List.singleton_inj.mp (List.append_inj' hys rfl).2
    rcases hc.next_cases hb hx with hroot | ho | ⟨-, hnone⟩
    · exact absurd hroot (hc.operand_ne_root hb ht)
    · exact absurd rfl (hc.operand_ne_operator ht ho)
    · exact hnone

/-- **Behind an operand the table reduces it.** -/
theorem action_operand (hc : c.OperatorGrammar) (hb : c.Built) (hpushed : c.Pushed pending)
    (hpath : c.cfg.Path (q :: states) (t :: c.symbolsOf pending)) (ht : c.IsOperand t)
    (h : c.RootRule i [t]) {ahead : Option TermId} (hk : c.Follows (ahead.getD TermId.eof)) :
    c.table.action q ahead = .reduce i c.root 1 := by
  obtain ⟨hints, hp⟩ := h
  have hstate := hpath.stateAfter_reverse rfl
  rw [List.reverse_cons] at hstate
  have hx : c.cfg.next (Item.start i) = some t := Cfg.next_eq_some_iff.mpr ⟨_, hp, rfl⟩
  have hlookahead :=
    ((hc.foreseen_start hb hpushed ⟨hints, hp⟩ hk).advance hx).lookahead hb.augmented hstate
  have hgoto : c.cfg.goto? q (ahead.getD TermId.eof) = none := by
    refine Option.eq_none_iff_forall_ne_some.mpr fun target htarget => ?_
    obtain ⟨⟨item, hitem, hnext⟩, -⟩ := hb.augmented.goto_iff.mp htarget
    have hviable := (hb.augmented.viable_iff hstate).mpr hitem
    exact nomatch (hc.next_behind_operand hb ht hviable rfl).symm.trans hnext
  have honly : ∀ j, c.cfg.Reducible q (ahead.getD TermId.eof) j → j = i := by
    intro j hj
    rcases hc.reducible_cases hb hpath hj with ⟨hsymbols, -⟩ | ⟨o, ys, hsymbols, -⟩ |
      ⟨t', ys, hsymbols, -, hrhs⟩
    · exact absurd (List.cons.inj hsymbols).1 (hc.operand_ne_root hb ht)
    · exact absurd (List.cons.inj hsymbols).1 (hc.operand_ne_root hb ht)
    · obtain ⟨rfl, -⟩ := List.cons.inj hsymbols
      exact hc.eq_of_rhs hrhs (by rw [hp]; rfl)
  rw [hb.action_of_reducible ahead hp hlookahead hgoto honly]
  exact if_neg fun h => ne_root hb ⟨hints, hp⟩ h.2

/-- Behind an expression the automaton moves over every operator. -/
theorem exists_goto_operator (hc : c.OperatorGrammar) (hb : c.Built) (hpushed : c.Pushed pending)
    (hpath : c.cfg.Path (q :: states) (c.root :: c.symbolsOf pending)) (ho : c.IsOperator o) :
    ∃ target, c.cfg.goto? q o = some target := by
  obtain ⟨i, hints, hp⟩ := hc.exists_operation hb ho
  have hstate := hpath.stateAfter_reverse rfl
  rw [List.reverse_cons] at hstate
  have hfirst : c.cfg.next (Item.start i) = some c.root :=
    Cfg.next_eq_some_iff.mpr ⟨_, hp, rfl⟩
  have hsecond : c.cfg.next (Item.start i).advance = some o :=
    Cfg.next_eq_some_iff.mpr ⟨_, hp, rfl⟩
  have hviable := (hc.viable_start hb hpushed ⟨hints, hp⟩).advance hfirst
  exact hb.augmented.exists_goto (hviable.mem_itemsOf hb.augmented hstate) hsecond

/-- Behind a single expression only the augmented root can be reduced. -/
theorem eq_root_of_reducible (hc : c.OperatorGrammar) (hb : c.Built)
    (hpath : c.cfg.Path (q :: states) [c.root]) (h : c.cfg.Reducible q k i) :
    i = ProductionId.root ∧ k = TermId.eof := by
  rcases hc.reducible_cases hb hpath h with ⟨-, hroot⟩ | ⟨o, ys, hsymbols, -⟩ |
    ⟨t, ys, hsymbols, ht, -⟩
  · exact hroot
  · simp at hsymbols
  · exact absurd (List.cons.inj hsymbols).1.symm (hc.operand_ne_root hb ht)

/-- **Behind a single expression the table shifts an operator.** -/
theorem action_single (hc : c.OperatorGrammar) (hb : c.Built)
    (hpath : c.cfg.Path (q :: states) [c.root]) (ho : c.IsOperator o) :
    ∃ target, c.cfg.goto? q o = some target ∧ c.table.action q (some o) = .shift target := by
  have hpushed : c.Pushed [] := fun x hx => absurd hx List.not_mem_nil
  obtain ⟨target, htarget⟩ := hc.exists_goto_operator hb hpushed hpath ho
  refine ⟨target, htarget, hb.action_of_goto htarget fun i hi => ?_⟩
  exact hc.operator_ne_eof hb ho (hc.eq_root_of_reducible hb hpath hi).2

/-- **Behind a single expression the table accepts at the end of input.** -/
theorem action_accept (hc : c.OperatorGrammar) (hb : c.Built)
    (hpath : c.cfg.Path (q :: states) [c.root]) : c.table.action q none = .accept := by
  have hroot := hb.augmented.root_production
  have hx : c.cfg.next ⟨ProductionId.root, 0⟩ = some c.root :=
    Cfg.next_eq_some_iff.mpr ⟨_, hroot, rfl⟩
  have hlookahead := (Cfg.Foreseen.start.advance hx).lookahead hb.augmented
    (hpath.stateAfter_reverse rfl)
  rw [hb.action_of_reducible none hroot hlookahead (hc.goto_eof hb q) fun j hj =>
    (hc.eq_root_of_reducible hb hpath hj).1]
  exact if_pos ⟨rfl, rfl⟩

/-- Behind an operation its production can be reduced, and no other. -/
theorem reducible_operation (hc : c.OperatorGrammar) (hb : c.Built) (hpushed : c.Pushed pending)
    (hpath : c.cfg.Path (q :: states) (c.root :: o :: c.root :: c.symbolsOf pending))
    (h : c.RootRule i [c.root, o, c.root]) (hk : c.Follows k) :
    c.cfg.Lookahead q ⟨i, 3⟩ k ∧ ∀ j, c.cfg.Reducible q k j → j = i := by
  obtain ⟨hints, hp⟩ := h
  constructor
  · have hstate := hpath.stateAfter_reverse rfl
    rw [List.reverse_cons, List.reverse_cons, List.reverse_cons] at hstate
    have hnext : ∀ {n x}, [c.root, o, c.root][n]? = some x → c.cfg.next ⟨i, n⟩ = some x :=
      fun hget => Cfg.next_eq_some_iff.mpr ⟨_, hp, hget⟩
    have hforeseen := (((hc.foreseen_start hb hpushed ⟨hints, hp⟩ hk).advance (hnext rfl)).advance
      (hnext rfl)).advance (hnext rfl)
    exact hforeseen.lookahead hb.augmented hstate
  · intro j hj
    rcases hc.reducible_cases hb hpath hj with ⟨hsymbols, -⟩ | ⟨o', ys, hsymbols, hrhs⟩ |
      ⟨t, ys, hsymbols, ht, -⟩
    · simp at hsymbols
    · obtain ⟨rfl, -⟩ : o = o' ∧ c.symbolsOf pending = ys := by simpa using hsymbols
      exact hc.eq_of_rhs hrhs (by rw [hp]; rfl)
    · exact absurd (List.cons.inj hsymbols).1.symm (hc.operand_ne_root hb ht)

/-- Behind an operation the table reduces at the end of input. -/
theorem action_operation_eof (hc : c.OperatorGrammar) (hb : c.Built) (hpushed : c.Pushed pending)
    (hpath : c.cfg.Path (q :: states) (c.root :: o :: c.root :: c.symbolsOf pending))
    (h : c.RootRule i [c.root, o, c.root]) : c.table.action q none = .reduce i c.root 3 := by
  obtain ⟨hlookahead, honly⟩ := hc.reducible_operation hb hpushed hpath h (Or.inl rfl)
  obtain ⟨hints, hp⟩ := h
  rw [hb.action_of_reducible none hp hlookahead (hc.goto_eof hb q) honly]
  exact if_neg fun h => ne_root hb ⟨hints, hp⟩ h.2

/-- **Behind an operation the table leaves it to parse time whether an operator is shifted.** -/
theorem action_operation (hc : c.OperatorGrammar) (hb : c.Built) {l : ParseTree}
    {o : Token TermId} (hpushed : c.Pushed ((l, o) :: pending))
    (hpath : c.cfg.Path (q :: states) (c.root :: c.symbolsOf ((l, o) :: pending)))
    (h : c.RootRule i [c.root, o.symbol, c.root]) (hk : c.IsOperator k) :
    ∃ target, c.cfg.goto? q k = some target ∧
      c.table.action q (some k) = .operator target i c.root 3 := by
  obtain ⟨target, htarget⟩ := hc.exists_goto_operator hb hpushed hpath hk
  obtain ⟨hlookahead, honly⟩ := hc.reducible_operation hb hpushed.tail hpath h (Or.inr hk)
  obtain ⟨hints, hp⟩ := h
  have hoperator : isOperatorIn c.terms ((some k).getD TermId.eof) = true :=
    isOperatorIn_of_precedence (hc.operator_spec hk).2
  exact ⟨target, htarget, hb.action_of_operator htarget hoperator hp hlookahead honly⟩

end OperatorGrammar

/-! ## Runs -/

/-- The machine reads with these entries on its stack and these tokens before it. -/
structure Reading (c : Compiled) (m : Machine StateId TermId) (source : Source TermId)
    (entries : List (Entry TermId)) (input : List (Token TermId)) : Prop where
  ready : m.Ready source input
  stack : m.entries = entries
  path  : c.cfg.Path m.states (entries.map Entry.symbol)

/-- How a run over the word ends that has made the reductions `done` before: it accepts with a
derivation tree that is grouped, or it refuses an operator and the word has a clash. -/
def Outcome (c : Compiled) (word : List (Token TermId)) (done : List ProductionId)
    (m : Machine StateId TermId) (source : Source TermId) : Prop :=
  (∃ tree rules, Machine.Ends c.table m source rules (.ok .accept) ∧
    c.cfg.Forest [c.root] [tree] ∧ tree.Grouped c.table.precedence ∧ tree.yield = word ∧
    tree.postorder = done ++ rules) ∨
  ∃ rules, Machine.Ends c.table m source rules (.error (.rejected .nonAssociative)) ∧
    Clash (operatorsIn c.table.precedence word)

variable {m m' : Machine StateId TermId} {source source' : Source TermId}
  {entries : List (Entry TermId)} {input later word : List (Token TermId)}
  {done : List ProductionId}

theorem Outcome.of_goOn (hmode : m.mode ≠ .accepted)
    (hpass : Machine.pass c.table m source = .goOn m' source')
    (h : c.Outcome word done m' source') : c.Outcome word done m source := by
  rcases h with ⟨tree, rules, hends, htree⟩ | ⟨rules, hends, hclash⟩
  · exact Or.inl ⟨tree, rules, .silent hmode hpass hends, htree⟩
  · exact Or.inr ⟨rules, .silent hmode hpass hends, hclash⟩

theorem Outcome.of_reduce {args : List (Entry TermId)} (hmode : m.mode ≠ .accepted)
    (hpass : Machine.pass c.table m source = .event (.reduce i) args m' source')
    (h : c.Outcome word (done ++ [i]) m' source') : c.Outcome word done m source := by
  rcases h with ⟨tree, rules, hends, hforest, hgrouped, hyield, hpost⟩ | ⟨rules, hends, hclash⟩
  · refine Or.inl ⟨tree, i :: rules, .reduce hmode hpass hends, hforest, hgrouped, hyield, ?_⟩
    rw [hpost, List.append_assoc, List.singleton_append]
  · exact Or.inr ⟨i :: rules, .reduce hmode hpass hends, hclash⟩

namespace Reading

theorem mode_ne (h : c.Reading m source entries input) : m.mode ≠ .accepted :=
  Mode.ne_accepted h.ready.mode

theorem exists_state (h : c.Reading m source entries input) : ∃ q states,
    m.states = q :: states ∧ c.cfg.Path (q :: states) (entries.map Entry.symbol) := by
  obtain ⟨q, states, hstates⟩ := h.path.exists_cons
  exact ⟨q, states, hstates, hstates ▸ h.path⟩

/-- A shift pushes the token. -/
theorem shift {t : Token TermId} (h : c.Reading m source entries (t :: later))
    (hstates : m.states = q :: states) {target : StateId}
    (hgoto : c.cfg.goto? q t.symbol = some target)
    (hchoose : c.table.choose entries (some t.symbol) (c.table.action q (some t.symbol)) =
      .ok (.shift target))
    (hnext : ∀ m' source', c.Reading m' source' (.token t :: entries) later →
      c.Outcome word done m' source') : c.Outcome word done m source := by
  rw [← h.stack] at hchoose
  refine .of_goOn h.mode_ne (h.ready.pass_shift hstates hchoose) (hnext _ _ ?_)
  refine ⟨⟨rfl, later, rfl, rfl⟩, by rw [h.stack], ?_⟩
  have hpath := h.path
  rw [hstates] at hpath ⊢
  exact .step hpath hgoto

/-- A reduction replaces the entries of a right-hand side by the root. -/
theorem reduce {es : List (Entry TermId)}
    (h : c.Reading m source (es ++ c.stackOf pending) input) (hc : c.OperatorGrammar)
    (hb : c.Built) (hpushed : c.Pushed pending) (hstates : m.states = q :: states)
    (hchoose : c.table.choose (es ++ c.stackOf pending) (input.head?.map Token.symbol)
      (c.table.action q (input.head?.map Token.symbol)) = .ok (.reduce i c.root es.length))
    (hnext : ∀ m' source', c.Reading m' source' (.nonterminal c.root :: c.stackOf pending) input →
      c.Outcome word (done ++ [i]) m' source') : c.Outcome word done m source := by
  rw [← h.stack] at hchoose
  -- The states below the right-hand side lie on the path of what waits.
  have hpath := h.path
  rw [List.map_append] at hpath
  have hbelow := hpath.drop
  rw [List.length_map] at hbelow
  obtain ⟨q', states', hdrop⟩ := hbelow.exists_cons
  rw [hdrop] at hbelow
  have hlen : es.length ≤ m.states.length := by
    have hlength := hpath.length_eq
    simp only [List.length_append, List.length_map] at hlength
    omega
  have hfront : m.states = m.states.take es.length ++ q' :: states' := by
    rw [← hdrop, List.take_append_drop]
  have hpass := h.ready.pass_reduce hstates hchoose hfront (List.length_take_of_le hlen) h.stack
    rfl
  -- From there the automaton moves over the root.
  obtain ⟨item, hviable, -, hx, -⟩ := hc.exists_expecting hb hpushed
  obtain ⟨target, htarget, haction⟩ := hc.action_of_next hb hpushed hbelow hviable hx
  refine .of_reduce h.mode_ne hpass (.of_goOn Mode.noConfusion
    (Machine.pass_of_goto rfl rfl rfl haction) (hnext _ _ ?_))
  exact ⟨Machine.ready_of_head rfl rfl, rfl, .step hbelow htarget⟩

end Reading

namespace OperatorGrammar

/-- An operand is shifted and reduced. -/
theorem outcome_of_operand (hc : c.OperatorGrammar) (hb : c.Built) (hpushed : c.Pushed pending)
    {t : Token TermId} (h : c.Reading m source (c.stackOf pending) (t :: later))
    (ht : c.IsOperand t.symbol) (hrule : c.RootRule i [t.symbol])
    (hk : c.Follows (firstOf later))
    (hnext : ∀ m' source', c.Reading m' source' (.nonterminal c.root :: c.stackOf pending) later →
      c.Outcome word (done ++ [i]) m' source') : c.Outcome word done m source := by
  obtain ⟨q, states, hstates, hpath⟩ := h.exists_state
  have hx : c.cfg.next (Item.start i) = some t.symbol := by
    obtain ⟨hints, hp⟩ := hrule
    exact Cfg.next_eq_some_iff.mpr ⟨_, hp, rfl⟩
  obtain ⟨target, htarget, haction⟩ :=
    hc.action_of_next hb hpushed hpath (hc.viable_start hb hpushed hrule) hx
  refine h.shift hstates htarget (by rw [haction]; rfl) fun m₁ source₁ h₁ => ?_
  obtain ⟨q₁, states₁, hstates₁, hpath₁⟩ := h₁.exists_state
  change c.Reading m₁ source₁ ([.token t] ++ c.stackOf pending) later at h₁
  refine h₁.reduce hc hb hpushed hstates₁ ?_ hnext
  rw [hc.action_operand hb hpushed hpath₁ ht hrule hk]
  rfl

theorem forest_operand {t : Token TermId} (h : c.RootRule i [t.symbol]) :
    c.cfg.Forest [c.root] [.node i [.leaf t]] := by
  obtain ⟨hints, hp⟩ := h
  exact .node hp (.leaf t .nil) .nil

theorem forest_operation {l r : ParseTree} {o : Token TermId}
    (h : c.RootRule i [c.root, o.symbol, c.root]) (hl : c.cfg.Forest [c.root] [l])
    (hr : c.cfg.Forest [c.root] [r]) : c.cfg.Forest [c.root] [.node i [l, .leaf o, r]] := by
  obtain ⟨hints, hp⟩ := h
  have hchildren : c.cfg.Forest [c.root, o.symbol, c.root] [l, .leaf o, r] :=
    hl.append (.leaf o hr)
  exact .node hp hchildren .nil

/-- An operation on top of the stack is reduced, and stands where its operands stood. -/
theorem outcome_of_operation (hc : c.OperatorGrammar) (hb : c.Built) {l tree : ParseTree}
    {o : Token TermId} (hpushed : c.Pushed ((l, o) :: pending))
    (h : c.Reading m source (.nonterminal c.root :: c.stackOf ((l, o) :: pending)) input)
    (hstates : m.states = q :: states)
    (hchoose : c.table.choose (.nonterminal c.root :: c.stackOf ((l, o) :: pending))
      (input.head?.map Token.symbol) (c.table.action q (input.head?.map Token.symbol)) =
        .ok (.reduce i c.root 3))
    (hnext : ∀ m' source', c.Reading m' source' (.nonterminal c.root :: c.stackOf pending) input →
      c.Outcome (Pending.yield pending ++ (node i [l, .leaf o, tree]).yield ++ input)
        (Pending.postorder pending ++ (node i [l, .leaf o, tree]).postorder) m' source') :
    c.Outcome (Pending.yield ((l, o) :: pending) ++ tree.yield ++ input)
      (Pending.postorder ((l, o) :: pending) ++ tree.postorder) m source := by
  have hyield : Pending.yield ((l, o) :: pending) ++ tree.yield =
      Pending.yield pending ++ (node i [l, .leaf o, tree]).yield := by
    simp [Pending.yield, yield_operation]
  have hpost : Pending.postorder ((l, o) :: pending) ++ tree.postorder ++ [i] =
      Pending.postorder pending ++ (node i [l, .leaf o, tree]).postorder := by
    simp [Pending.postorder, postorder_operation]
  change c.Reading m source
    ([.nonterminal c.root, .token o, .nonterminal c.root] ++ c.stackOf pending) input at h
  refine h.reduce hc hb hpushed.tail hstates hchoose ?_
  rw [hyield, hpost]
  exact hnext

/-- **Behind an expression, at the end of input**: all that waits is reduced. -/
theorem outcome_at_end (hc : c.OperatorGrammar) (hb : c.Built) :
    ∀ {pending : Pending} {tree : ParseTree} {outer : Option Precedence}
      {m : Machine StateId TermId} {source : Source TermId},
      Standing c.table.precedence pending tree outer → c.Pushed pending →
      c.cfg.Forest [c.root] [tree] →
      c.Reading m source (.nonterminal c.root :: c.stackOf pending) [] →
      c.Outcome (Pending.yield pending ++ tree.yield ++ [])
        (Pending.postorder pending ++ tree.postorder) m source
  | [], tree, outer, m, source, hstanding, _, hforest, h => by
    obtain ⟨q, states, hstates, hpath⟩ := h.exists_state
    obtain ⟨m', hpass⟩ := h.ready.pass_accept hstates (hc.action_accept hb hpath) h.stack
    exact Or.inl ⟨tree, [], .accept h.mode_ne hpass, hforest, hstanding.grouped,
      (List.append_nil _).symm, (List.append_nil _).symm⟩
  | (l, o) :: pending, tree, outer, m, source, hstanding, hpushed, hforest, h => by
    obtain ⟨hl, ho⟩ := hpushed _ List.mem_cons_self
    obtain ⟨i, hrule⟩ := hc.exists_operation hb ho
    obtain ⟨q, states, hstates, hpath⟩ := h.exists_state
    obtain ⟨outer', hreduced⟩ := hstanding.reduce i
    refine hc.outcome_of_operation hb hpushed h hstates ?_ fun m₁ source₁ h₁ =>
      hc.outcome_at_end hb hreduced hpushed.tail (forest_operation hrule hl hforest) h₁
    have haction := hc.action_operation_eof hb hpushed.tail hpath hrule
    show c.table.choose _ none (c.table.action q none) = _
    rw [haction]
    rfl

/-- Behind an operation, before an operator, the operators settle what is done: the last that waits
is the nearest on the stack. -/
theorem choose_operation (l : ParseTree) (pending : Pending) {o o' : Token TermId}
    {a b : Precedence} {target : StateId}
    (haction : c.table.action q (some o.symbol) = .operator target i c.root 3)
    (hlast : c.table.precedence o'.symbol = some a)
    (hprec : c.table.precedence o.symbol = some b) :
    c.table.choose (.nonterminal c.root :: c.stackOf ((l, o') :: pending)) (some o.symbol)
        (c.table.action q (some o.symbol)) =
      match shiftsOver (some a) (some b) with
      | some true => .ok (.shift target)
      | some false => .ok (.reduce i c.root 3)
      | none => .error .nonAssociative := by
  have hnearest : c.table.previousOperator
      (.nonterminal c.root :: c.stackOf ((l, o') :: pending)) = some a := by
    simp [Table.previousOperator, stackOf, hlast]
  rcases hdecision : shiftsOver (some a) (some b) with _ | _ | _ <;>
    simp only [haction, Table.choose, hnearest, Option.bind_some, hprec, hdecision]

/-- **Behind an expression, before an operator**: it is shifted once nothing that waits comes
first, or refused. The induction is on what waits. -/
theorem outcome_before_operator (hc : c.OperatorGrammar) (hb : c.Built) {o : Token TermId}
    {b : Precedence} (ho : c.IsOperator o.symbol) (hprec : c.table.precedence o.symbol = some b)
    (hshifted : ∀ {pending : Pending} {outer : Option Precedence} {m : Machine StateId TermId}
      {source : Source TermId}, Waiting c.table.precedence pending outer → c.Pushed pending →
      c.Reading m source (c.stackOf pending) later →
      c.Outcome (Pending.yield pending ++ later) (Pending.postorder pending) m source) :
    ∀ {pending : Pending} {tree : ParseTree} {outer : Option Precedence}
      {m : Machine StateId TermId} {source : Source TermId},
      Standing c.table.precedence pending tree outer → tree.Fits c.table.precedence .left b →
      c.Pushed pending → c.cfg.Forest [c.root] [tree] →
      c.Reading m source (.nonterminal c.root :: c.stackOf pending) (o :: later) →
      c.Outcome (Pending.yield pending ++ tree.yield ++ o :: later)
        (Pending.postorder pending ++ tree.postorder) m source
  | [], tree, outer, m, source, hstanding, hleft, hpushed, hforest, h => by
    obtain ⟨q, states, hstates, hpath⟩ := h.exists_state
    obtain ⟨target, htarget, haction⟩ := hc.action_single hb hpath ho
    cases hstanding.waiting with
    | nil =>
      refine h.shift hstates htarget (by rw [haction]; rfl) fun m₁ source₁ h₁ => ?_
      rw [← Pending.yield_cons_append]
      exact hshifted (hstanding.shift hleft hprec (fun a ha => nomatch ha) rfl)
        (hpushed.cons hforest ho) h₁
  | (l, o') :: pending, tree, outer, m, source, hstanding, hleft, hpushed, hforest, h => by
    obtain ⟨hl, ho'⟩ := hpushed _ List.mem_cons_self
    obtain ⟨i, hrule⟩ := hc.exists_operation hb ho'
    obtain ⟨q, states, hstates, hpath⟩ := h.exists_state
    obtain ⟨target, htarget, haction⟩ := hc.action_operation hb hpushed hpath hrule ho
    obtain ⟨a, rfl, hprec'⟩ := hstanding.waiting.last
    have hassoc : a.priority = b.priority → a.assoc = b.assoc :=
      hc.assoc _ (hc.operator_spec ho').1 _ (hc.operator_spec ho).1 a hprec' b hprec
    have hchoose := choose_operation l pending haction hprec' hprec
    cases hdecision : shiftsOver (some a) (some b) with
    | none =>
      rw [hdecision, ← h.stack] at hchoose
      refine Or.inr ⟨[], .fail h.mode_ne (h.ready.pass_error hstates hchoose), ?_⟩
      rw [List.append_assoc, Pending.yield_cons_append, operatorsIn_append, operatorsIn_cons hprec',
        operatorsIn_append tree.yield, operatorsIn_cons hprec]
      exact hstanding.clash hdecision hassoc _ _
    | some shifts =>
      rw [hdecision] at hchoose
      cases shifts with
      | true =>
        refine h.shift hstates htarget hchoose fun m₁ source₁ h₁ => ?_
        rw [← Pending.yield_cons_append]
        refine hshifted (hstanding.shift hleft hprec ?_ hdecision) (hpushed.cons hforest ho) h₁
        rintro a' ⟨⟩
        exact hassoc
      | false =>
        obtain ⟨outer', hreduced⟩ := hstanding.reduce i
        refine hc.outcome_of_operation hb hpushed h hstates hchoose fun m₁ source₁ h₁ => ?_
        exact hc.outcome_before_operator hb ho hprec hshifted hreduced
          (Standing.fits_reduce hprec' hdecision i) hpushed.tail
          (forest_operation hrule hl hforest) h₁

/-- **Before an operand**: what is left of the word leads to an outcome, whatever waits. -/
theorem outcome_before_operand (hc : c.OperatorGrammar) (hb : c.Built)
    (hword : c.OperatorWord input) :
    ∀ {pending : Pending} {outer : Option Precedence} {m : Machine StateId TermId}
      {source : Source TermId}, Waiting c.table.precedence pending outer → c.Pushed pending →
      c.Reading m source (c.stackOf pending) input →
      c.Outcome (Pending.yield pending ++ input) (Pending.postorder pending) m source := by
  induction hword with
  | operand ht =>
    rename_i t
    intro pending outer m source hwaiting hpushed h
    obtain ⟨i, hrule⟩ := hc.exists_operand hb ht
    have hstanding := Standing.operand hwaiting (hc.operand_spec ht).2.2 i
    refine hc.outcome_of_operand hb hpushed h ht hrule (Or.inl rfl) fun m₁ source₁ h₁ => ?_
    have hend := hc.outcome_at_end hb hstanding hpushed (forest_operand hrule) h₁
    rwa [List.append_nil] at hend
  | operation ht ho _ ih =>
    rename_i t o rest
    intro pending outer m source hwaiting hpushed h
    obtain ⟨i, hrule⟩ := hc.exists_operand hb ht
    obtain ⟨b, hprec⟩ := Option.ne_none_iff_exists'.mp (hc.operator_spec ho).2
    have hstanding := Standing.operand hwaiting (hc.operand_spec ht).2.2 i
    refine hc.outcome_of_operand hb hpushed h ht hrule (Or.inr ho) fun m₁ source₁ h₁ => ?_
    have hbehind := hc.outcome_before_operator hb ho hprec ih hstanding
      (fun _ hhead => nomatch hhead) hpushed (forest_operand hrule) h₁
    rwa [yield_operand, List.append_assoc, List.singleton_append] at hbehind

end OperatorGrammar

/-- **Operators group by precedence**, for every operator grammar that compiles and every word of
operands with operators between them: the run accepts, and its reductions are those of a derivation
tree of the word, in postorder, that is grouped by precedence; or it ends by refusing an operator as
not associative, and this happens iff the word has a clash. -/
theorem operators_group [Text.Xid] {ignoreCase : Bool} {commands : List Command}
    (h : (Definition.ofCommands ignoreCase commands).compile = .ok c) (hc : c.OperatorGrammar)
    (hword : c.OperatorWord word) :
    ((∃ tree, c.RunsTo word tree.postorder (.ok .accept) ∧ c.cfg.Forest [c.root] [tree] ∧
        tree.yield = word ∧ tree.Grouped c.table.precedence) ∨
      ∃ reductions, c.RunsTo word reductions (.error (.rejected .nonAssociative))) ∧
    ((∃ reductions, c.RunsTo word reductions (.error (.rejected .nonAssociative))) ↔
      Clash (operatorsIn c.table.precedence word)) := by
  have hb := Definition.built_of_compile h
  have hpushed : c.Pushed [] := fun x hx => absurd hx List.not_mem_nil
  have hstart : c.Reading (Machine.start c.table) (word.map .token) (c.stackOf []) word :=
    ⟨⟨rfl, word, rfl, rfl⟩, rfl, .initial⟩
  rcases hc.outcome_before_operand hb hword .nil hpushed hstart with
    ⟨tree, rules, hends, hforest, hgrouped, hyield, hpost⟩ | ⟨rules, hends, hclash⟩
  · obtain rfl : tree.postorder = rules := hpost
    obtain rfl : tree.yield = word := hyield
    refine ⟨Or.inl ⟨tree, hends.calls_eq, hforest, rfl, hgrouped⟩, ?_,
      fun hclash => absurd hclash hgrouped.not_clash⟩
    rintro ⟨reductions, hruns⟩
    exact nomatch (hends.of_events (by simp) hruns).2
  · exact ⟨Or.inr ⟨rules, hends.calls_eq⟩, fun _ => hclash, fun _ => ⟨rules, hends.calls_eq⟩⟩

/-- Equations, sums and powers of `x`. -/
def arithmetic : List Command :=
  [.literal "x", .literal "=", .literal "+", .literal "^", .nonterminal "E",
    .operators ⟨0, .nonassoc⟩ [4], .operators ⟨1, .left⟩ [5], .operators ⟨2, .right⟩ [6],
    .rule 7 ⟨[[.term 7, .term 4, .term 7], [.term 7, .term 5, .term 7],
      [.term 7, .term 6, .term 7], [.term 3]]⟩, .root 7]

/-- The arithmetic, compiled. -/
def arithmeticCompiled : Compiled :=
  let d := Definition.ofCommands false arithmetic
  d.compileCollection 7 (d.collect 7)

/-- A sum equals a power. -/
def equation : List (Token TermId) :=
  [⟨3, "x"⟩, ⟨5, "+"⟩, ⟨3, "x"⟩, ⟨5, "+"⟩, ⟨3, "x"⟩, ⟨4, "="⟩, ⟨3, "x"⟩, ⟨6, "^"⟩, ⟨3, "x"⟩,
    ⟨6, "^"⟩, ⟨3, "x"⟩]

/-- Two equations with a sum between them. -/
def equationTwice : List (Token TermId) :=
  [⟨3, "x"⟩, ⟨4, "="⟩, ⟨3, "x"⟩, ⟨5, "+"⟩, ⟨3, "x"⟩, ⟨4, "="⟩, ⟨3, "x"⟩]

theorem operatorGrammar_arithmetic : arithmeticCompiled.OperatorGrammar where
  nonterminals := by decide
  productions := by decide
  distinct := by decide
  assoc := by decide

theorem operators_group_arithmetic :
    (Definition.ofCommands false arithmetic).compile = .ok arithmeticCompiled ∧
      (∃ tree, arithmeticCompiled.RunsTo equation tree.postorder (.ok .accept) ∧
        arithmeticCompiled.cfg.Forest [7] [tree] ∧ tree.yield = equation ∧
        tree.Grouped arithmeticCompiled.table.precedence) ∧
      ∃ reductions, arithmeticCompiled.RunsTo equationTwice reductions
        (.error (.rejected .nonAssociative)) := by
  have hcompile : (Definition.ofCommands false arithmetic).compile = .ok arithmeticCompiled :=
    Definition.compile_eq_ok (by decide) (by decide)
  have hx : arithmeticCompiled.IsOperand 3 := by decide
  have hequal : arithmeticCompiled.IsOperator 4 := by decide
  have hplus : arithmeticCompiled.IsOperator 5 := by decide
  have hpower : arithmeticCompiled.IsOperator 6 := by decide
  have hequation : arithmeticCompiled.OperatorWord equation :=
    .operation hx hplus (.operation hx hplus (.operation hx hequal (.operation hx hpower
      (.operation hx hpower (.operand hx)))))
  have htwice : arithmeticCompiled.OperatorWord equationTwice :=
    .operation hx hequal (.operation hx hplus (.operation hx hequal (.operand hx)))
  refine ⟨hcompile, ?_, ?_⟩
  · obtain ⟨houtcome, hclash⟩ := operators_group hcompile operatorGrammar_arithmetic hequation
    refine houtcome.resolve_right fun hrefused => ?_
    obtain ⟨before, a, between, b, after, heq, -, ha, hb, -⟩ := hclash.mp hrefused
    -- A single operator does not associate.
    have hcount := congrArg (List.countP fun x => decide (x.assoc = .nonassoc)) heq
    have hone : (operatorsIn arithmeticCompiled.table.precedence equation).countP
        (fun x => decide (x.assoc = .nonassoc)) = 1 := by decide
    rw [hone] at hcount
    simp [ha, hb] at hcount
    omega
  · refine (operators_group hcompile operatorGrammar_arithmetic htwice).2.mpr ?_
    have hoperators : operatorsIn arithmeticCompiled.table.precedence equationTwice =
        [⟨0, .nonassoc⟩, ⟨1, .left⟩, ⟨0, .nonassoc⟩] := by decide
    rw [hoperators]
    exact ⟨[], ⟨0, .nonassoc⟩, [⟨1, .left⟩], ⟨0, .nonassoc⟩, [], rfl, rfl, rfl, rfl, by decide⟩

end Compiled

end Lalr

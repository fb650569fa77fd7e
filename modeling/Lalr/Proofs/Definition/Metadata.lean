import Lalr.Definition.Productions
import Lalr.Proofs.Definition.WellFormed

/-!
# Forgetting metadata

Hints, precedences, nicknames and match priorities steer conflict resolution, messages and the
scanner. They sit in the middle of what collection walks over, so it has to be shown that they make
no difference to it.

`forget keep labels` takes the hints that `keep` refuses out of all rules, at any depth, and unless
`labels` are wanted it takes away precedences, nicknames and priorities too. Collecting commutes
with it (**`Definition.collect_forget`**): nested expressions are lifted in the same order, under
the same names, and the same terms are found. So definitions that are equal after forgetting have
collections that are, and grammars that differ in hints only (`Collection.cfg_forget`).
-/

namespace Lalr

/-! ## Hints -/

mutual

/-- The operand without the hints that are not kept, as a sequence of at most one operand. -/
def Operand.keepHints (keep : Hint → Bool) : Operand → List Operand
  | .term id => [.term id]
  | .hint mark => if keep mark then [.hint mark] else []
  | .nested alternatives => [.nested (Operand.keepHintsAlternatives keep alternatives)]

/-- The sequence without the hints that are not kept. -/
def Operand.keepHintsSequence (keep : Hint → Bool) : List Operand → List Operand
  | [] => []
  | operand :: rest => operand.keepHints keep ++ Operand.keepHintsSequence keep rest

/-- The alternatives without the hints that are not kept. -/
def Operand.keepHintsAlternatives (keep : Hint → Bool) :
    List (List Operand) → List (List Operand)
  | [] => []
  | sequence :: rest =>
    Operand.keepHintsSequence keep sequence :: Operand.keepHintsAlternatives keep rest

end

/-- The expression without the hints that are not kept. -/
def Expr.keepHints (keep : Hint → Bool) (e : Expr) : Expr :=
  ⟨Operand.keepHintsAlternatives keep e.alternatives⟩

/-- The production without the hints that are not kept. -/
def Production.keepHints (keep : Hint → Bool) (p : Production) : Production :=
  { p with hints := p.hints.filter fun hint => keep hint.2 }

/-- The grammar without the hints that are not kept. -/
def Cfg.keepHints (keep : Hint → Bool) (g : Cfg) : Cfg :=
  { g with productions := g.productions.map (Production.keepHints keep) }

/-! ## Metadata -/

/-- The term without the hints that are not kept, and without labels unless they are wanted. -/
def Term.forget (keep : Hint → Bool) (labels : Bool) (t : Term) : Term :=
  { t with
    nickname := if labels then t.nickname else none
    priority := if labels then t.priority else 0
    precedence := if labels then t.precedence else none
    rule := t.rule.map (Expr.keepHints keep) }

/-- The definition without the hints that are not kept, and without labels unless they are
wanted. -/
def Definition.forget (keep : Hint → Bool) (labels : Bool) (d : Definition) : Definition :=
  { d with terms := d.terms.map (Term.forget keep labels) }

/-- The terms so far, forgetting. -/
def Lifting.forget (keep : Hint → Bool) (labels : Bool) (l : Lifting) : Lifting :=
  { l with terms := l.terms.map (Term.forget keep labels) }

/-- The collection, forgetting. -/
def Collection.forget (keep : Hint → Bool) (labels : Bool) (c : Collection) : Collection :=
  { c with lifting := c.lifting.forget keep labels }

variable {keep : Hint → Bool} {labels : Bool}

/-! ## What hints have no part in -/

namespace Operand

theorem keepHintsAlternatives_eq_map (alternatives : List (List Operand)) :
    keepHintsAlternatives keep alternatives = alternatives.map (keepHintsSequence keep) := by
  induction alternatives with
  | nil => rfl
  | cons s rest ih => rw [keepHintsAlternatives, ih, List.map_cons]

theorem filterMap_keepHintsSequence (s : List Operand) :
    (keepHintsSequence keep s).filterMap term? = s.filterMap term? := by
  induction s with
  | nil => rfl
  | cons o rest ih =>
    rw [keepHintsSequence, List.filterMap_append, ih]
    cases o with
    | term id => rfl
    | hint mark =>
      rw [keepHints]
      split <;> rfl
    | nested alternatives => rfl

theorem levelTerms_keepHintsAlternatives (alternatives : List (List Operand)) :
    levelTerms (keepHintsAlternatives keep alternatives) = levelTerms alternatives := by
  unfold levelTerms
  induction alternatives with
  | nil => rfl
  | cons s rest ih =>
    rw [keepHintsAlternatives, List.flatten_cons, List.flatten_cons, List.filterMap_append,
      List.filterMap_append, ih, filterMap_keepHintsSequence]

theorem nestedCountSequence_append (s s' : List Operand) :
    nestedCountSequence (s ++ s') = nestedCountSequence s + nestedCountSequence s' := by
  induction s with
  | nil => rw [List.nil_append, nestedCountSequence, Nat.zero_add]
  | cons o rest ih =>
    rw [List.cons_append, nestedCountSequence, nestedCountSequence, ih, Nat.add_assoc]

mutual

theorem nestedCount_keepHints :
    ∀ o : Operand, nestedCountSequence (o.keepHints keep) = o.nestedCount
  | .term id => rfl
  | .hint mark => by
    rw [keepHints]
    split <;> rfl
  | .nested alternatives => by
    rw [keepHints, nestedCountSequence, nestedCountSequence, nestedCount, nestedCount,
      nestedCountAlternatives_keepHints alternatives, Nat.add_zero]

theorem nestedCountSequence_keepHints :
    ∀ s : List Operand, nestedCountSequence (keepHintsSequence keep s) = nestedCountSequence s
  | [] => rfl
  | o :: rest => by
    rw [keepHintsSequence, nestedCountSequence_append, nestedCount_keepHints o,
      nestedCountSequence_keepHints rest, nestedCountSequence]

theorem nestedCountAlternatives_keepHints : ∀ alternatives : List (List Operand),
    nestedCountAlternatives (keepHintsAlternatives keep alternatives) =
      nestedCountAlternatives alternatives
  | [] => rfl
  | s :: rest => by
    rw [keepHintsAlternatives, nestedCountAlternatives, nestedCountSequence_keepHints s,
      nestedCountAlternatives_keepHints rest, nestedCountAlternatives]

end

mutual

/-- Where every hint is kept, nothing changes. -/
theorem keepHints_of_every :
    ∀ o : Operand, o.every (fun _ => true) keep = true → o.keepHints keep = [o]
  | .term id, _ => rfl
  | .hint mark, h => if_pos h
  | .nested alternatives, h => by rw [keepHints, keepHintsAlternatives_of_every alternatives h]

theorem keepHintsSequence_of_every : ∀ s : List Operand,
    everySequence (fun _ => true) keep s = true → keepHintsSequence keep s = s
  | [], _ => rfl
  | o :: rest, h => by
    obtain ⟨ho, hrest⟩ := Bool.and_eq_true_iff.mp h
    rw [keepHintsSequence, keepHints_of_every o ho, keepHintsSequence_of_every rest hrest,
      List.singleton_append]

theorem keepHintsAlternatives_of_every : ∀ alternatives : List (List Operand),
    everyAlternatives (fun _ => true) keep alternatives = true →
      keepHintsAlternatives keep alternatives = alternatives
  | [], _ => rfl
  | s :: rest, h => by
    obtain ⟨hs, hrest⟩ := Bool.and_eq_true_iff.mp h
    rw [keepHintsAlternatives, keepHintsSequence_of_every s hs,
      keepHintsAlternatives_of_every rest hrest]

end

end Operand

/-- The hints of a sequence that are kept. -/
theorem Production.hintsFrom_keepHintsSequence (s : List Operand) : ∀ position : Nat,
    hintsFrom position (Operand.keepHintsSequence keep s) =
      (hintsFrom position s).filter fun hint => keep hint.2 := by
  induction s with
  | nil => exact fun _ => rfl
  | cons o rest ih =>
    intro position
    rw [Operand.keepHintsSequence]
    cases o with
    | term id => exact ih _
    | nested alternatives => exact ih _
    | hint mark =>
      rw [Operand.keepHints, hintsFrom, List.filter_cons]
      split
      · rw [List.singleton_append, hintsFrom, ih]
      · exact ih _

theorem Production.ofSequence_keepHintsSequence (lhs : TermId) (s : List Operand) :
    ofSequence lhs (Operand.keepHintsSequence keep s) = (ofSequence lhs s).keepHints keep := by
  rw [ofSequence, symbols, Operand.filterMap_keepHintsSequence, hintsFrom_keepHintsSequence]
  rfl

namespace Term

@[simp] theorem isTerminal_forget (t : Term) : (t.forget keep labels).isTerminal = t.isTerminal :=
  rfl

@[simp] theorem isLiteral_forget (t : Term) : (t.forget keep labels).isLiteral = t.isLiteral := rfl

theorem rule_forget (t : Term) : (t.forget keep labels).rule = t.rule.map (Expr.keepHints keep) :=
  rfl

theorem forget_named (id : TermId) (kind : TermKind) (name : String) (e : Expr) :
    ({ named id kind name with rule := some e } : Term).forget keep labels =
      { named id kind name with rule := some (e.keepHints keep) } := by
  cases labels <;> rfl

theorem nestedCount_rule_forget (t : Term) :
    ((t.forget keep labels).rule.map Expr.nestedCount).getD 0 =
      (t.rule.map Expr.nestedCount).getD 0 := by
  rw [rule_forget]
  cases t.rule with
  | none => rfl
  | some e => exact Operand.nestedCountAlternatives_keepHints e.alternatives

end Term

/-! ## Lifting -/

namespace Lifting

theorem isTaken_forget (l : Lifting) (number : Nat) :
    (l.forget keep labels).isTaken number = l.isTaken number := by
  rw [isTaken, forget, List.any_map]
  rfl

theorem freeNumber_forget (l : Lifting) : (l.forget keep labels).freeNumber = l.freeNumber := by
  unfold freeNumber
  simp only [isTaken_forget]
  rw [forget, List.length_map]

/-- A lifted expression gets the same name and the same number. -/
theorem lift_forget (l : Lifting) (alternatives : List (List Operand)) :
    (l.forget keep labels).lift (Operand.keepHintsAlternatives keep alternatives) =
      ((l.lift alternatives).1.forget keep labels, (l.lift alternatives).2) := by
  unfold lift
  rw [freeNumber_forget]
  simp only [forget, List.map_append, List.map_cons, List.map_nil, List.length_map,
    Term.forget_named, Expr.keepHints]

/-- **Lifting a sequence commutes with forgetting.** -/
theorem sequence_forget (s : List Operand) : ∀ l : Lifting,
    (l.forget keep labels).sequence (Operand.keepHintsSequence keep s) =
      ((l.sequence s).1.forget keep labels,
        Operand.keepHintsSequence keep (l.sequence s).2) := by
  induction s with
  | nil => exact fun _ => rfl
  | cons o rest ih =>
    intro l
    rw [Operand.keepHintsSequence]
    cases o with
    | term id => simp [Operand.keepHints, sequence, operand, ih, Operand.keepHintsSequence]
    | hint mark =>
      by_cases hkeep : keep mark = true
      · simp [Operand.keepHints, sequence, operand, ih, Operand.keepHintsSequence, hkeep]
      · simp [Operand.keepHints, sequence, operand, ih, Operand.keepHintsSequence, hkeep]
    | nested alternatives =>
      simp [Operand.keepHints, sequence, operand, lift_forget, ih, Operand.keepHintsSequence]

theorem alternatives_forget (alternatives : List (List Operand)) : ∀ l : Lifting,
    (l.forget keep labels).alternatives (Operand.keepHintsAlternatives keep alternatives) =
      ((l.alternatives alternatives).1.forget keep labels,
        Operand.keepHintsAlternatives keep (l.alternatives alternatives).2) := by
  induction alternatives with
  | nil => exact fun _ => rfl
  | cons s rest ih =>
    intro l
    simp only [Operand.keepHintsAlternatives, Lifting.alternatives, sequence_forget, ih]

end Lifting

/-! ## Walking -/

namespace Collection

theorem terms_forget (c : Collection) :
    (c.forget keep labels).terms = c.terms.map (Term.forget keep labels) := rfl

/-- Changing one term commutes with forgetting if changing any term does. -/
theorem map_forget_modify {f f' : Term → Term}
    (hf : ∀ t, (f t).forget keep labels = f' (t.forget keep labels)) (terms : List Term)
    (id : TermId) :
    (terms.map (Term.forget keep labels)).modify id f' =
      (terms.modify id f).map (Term.forget keep labels) := by
  refine List.ext_getElem? fun i => ?_
  simp only [List.getElem?_modify, List.getElem?_map]
  cases terms[i]? with
  | none => rfl
  | some t =>
    by_cases hi : id = i
    · simp [hi, hf]
    · simp [hi]

/-- **Visiting a term commutes with forgetting.** -/
theorem visit_forget (c : Collection) (id : TermId) :
    (c.forget keep labels).visit id = (c.visit id).forget keep labels := by
  unfold visit
  rw [terms_forget, List.getElem?_map]
  cases c.terms[id]? with
  | none => rfl
  | some t =>
    rw [Option.map_some]
    dsimp only
    rw [Term.isTerminal_forget, Term.rule_forget]
    cases t.isTerminal with
    | true => rfl
    | false =>
      cases t.rule with
      | none => rfl
      | some e =>
        have halternatives :
            (c.forget keep labels).lifting.alternatives (e.keepHints keep).alternatives =
              ((c.lifting.alternatives e.alternatives).1.forget keep labels,
                Operand.keepHintsAlternatives keep (c.lifting.alternatives e.alternatives).2) :=
          Lifting.alternatives_forget e.alternatives c.lifting
        rw [Option.map_some]
        dsimp only
        rw [halternatives, Operand.levelTerms_keepHintsAlternatives]
        exact congrArg (Collection.mk ⟨·, _⟩ _) (map_forget_modify (by intro t; rfl) _ id)

theorem visitFrom_forget : ∀ (fuel cursor : Nat) (c : Collection),
    (c.forget keep labels).visitFrom fuel cursor = (c.visitFrom fuel cursor).forget keep labels
  | 0, _, _ => rfl
  | fuel + 1, cursor, c => by
    have hfound : (c.forget keep labels).found[cursor]? = c.found[cursor]? := rfl
    rw [visitFrom, visitFrom, hfound]
    cases c.found[cursor]? with
    | none => rfl
    | some id =>
      dsimp only
      rw [visit_forget, visitFrom_forget fuel (cursor + 1)]

/-! ## The grammar of what is found -/

theorem isTerminal_forget (c : Collection) (id : TermId) :
    (c.forget keep labels).isTerminal id = c.isTerminal id := by
  rw [isTerminal, isTerminal, terms_forget, List.getElem?_map, Option.map_map]
  rfl

theorem terminals_forget (c : Collection) : (c.forget keep labels).terminals = c.terminals := by
  unfold terminals
  rw [funext c.isTerminal_forget]
  rfl

theorem nonterminals_forget (c : Collection) :
    (c.forget keep labels).nonterminals = c.nonterminals := by
  unfold nonterminals
  simp only [isTerminal_forget]
  rfl

theorem productions_forget (c : Collection) :
    (c.forget keep labels).productions = c.productions.map (Production.keepHints keep) := by
  unfold productions
  rw [nonterminals_forget, List.map_flatMap]
  refine congrArg (fun f => c.nonterminals.flatMap f) (funext fun id => ?_)
  rw [terms_forget, List.getElem?_map]
  cases c.terms[id]? with
  | none => rfl
  | some t =>
    rw [Option.map_some, Option.bind_some, Option.bind_some, Term.rule_forget]
    cases t.rule with
    | none => rfl
    | some e =>
      simp only [Option.map_some, Option.getD_some, Expr.keepHints,
        Operand.keepHintsAlternatives_eq_map, List.map_map]
      refine List.map_congr_left fun s _ => ?_
      exact Production.ofSequence_keepHintsSequence id s

/-- **The grammar of what is found loses its hints only.** -/
theorem cfg_forget (c : Collection) : (c.forget keep labels).cfg = c.cfg.keepHints keep := by
  unfold cfg
  rw [terms_forget, List.length_map, terminals_forget, nonterminals_forget, productions_forget]
  rfl

end Collection

namespace Definition

theorem augment_forget (d : Definition) (root : TermId) :
    (d.forget keep labels).augment root = (d.augment root).map (Term.forget keep labels) := by
  have hname : (d.forget keep labels).nameOf root = d.nameOf root := by
    rw [nameOf, nameOf, forget, List.getElem?_map, Option.map_map]
    rfl
  unfold augment
  rw [hname]
  exact Collection.map_forget_modify (by intro t; rfl) d.terms TermId.root

theorem nestedCount_forget (d : Definition) :
    (d.forget keep labels).nestedCount = d.nestedCount := by
  unfold nestedCount forget
  rw [List.map_map]
  exact congrArg total (List.map_congr_left fun t _ => t.nestedCount_rule_forget)

/-- **Collecting commutes with forgetting.** -/
theorem collect_forget (d : Definition) (root : TermId) :
    (d.forget keep labels).collect root = (d.collect root).forget keep labels := by
  have hlength : (d.forget keep labels).terms.length = d.terms.length := List.length_map _
  unfold collect
  rw [augment_forget, nestedCount_forget, hlength]
  exact Collection.visitFrom_forget _ 0 ⟨⟨d.augment root, 0⟩, [TermId.eof, TermId.root]⟩

/-- Where every hint is kept, and labels are, nothing is forgotten. -/
theorem forget_eq_self (d : Definition) (h : ∀ t ∈ d.terms, ∀ e, t.rule = some e →
    e.every (fun _ => true) keep = true) : d.forget keep true = d := by
  have hterm : ∀ t ∈ d.terms, t.forget keep true = t := by
    intro t ht
    have hrule : t.rule.map (Expr.keepHints keep) = t.rule := by
      cases he : t.rule with
      | none => rfl
      | some e =>
        rw [Option.map_some, Expr.keepHints, Operand.keepHintsAlternatives_of_every _ (h t ht e he)]
    rw [Term.forget, hrule]
    rfl
  rw [forget, List.map_congr_left hterm, List.map_id']

end Definition

end Lalr

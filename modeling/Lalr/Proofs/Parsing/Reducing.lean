import Lalr.Proofs.Automaton.Validity
import Lalr.Proofs.Parsing.Completeness

/-!
# Reducing without a shift

While one symbol stays ahead, a parser only reduces. `Cfg.Reduces g k` is one such reduction, seen
on the stack of states: the states of the right-hand side go, and the state behind the left-hand
side comes. A stack **halts** if no endless chain of reductions starts from it.

This module shows for a grammar in which nothing has to be settled that a stack halts whenever the
symbol ahead is foreseen for what the stack spells (**`Decided.halts_of_foreseen`**). The reductions
then retrace a derivation, and come to an end in one of two ways:

* the symbol ahead begins what follows on some level. It is shifted once everything before it has
  been derived from nothing (`Decided.halts_of_first`);
* or it is the end of input behind the root, and is accepted.

No word has to be derived for that: the argument breaks off where the symbol is shifted, so symbols
that derive no word at all do no harm.
-/

namespace Lalr

open ParseTree

namespace Cfg

/-- A reduction with `k` ahead, as far as the states on the stack are concerned. -/
inductive Reduces (g : Cfg) (k : TermId) : List StateId → List StateId → Prop
  | reduce {q q' target : StateId} {states rest : List StateId} {i : ProductionId}
      {p : Production} (hp : g.productions[i]? = some p) (hi : i ≠ ProductionId.root)
      (hq : states.head? = some q) (hk : g.Lookahead q ⟨i, p.rhs.length⟩ k)
      (hrest : states.drop p.rhs.length = q' :: rest) (hgoto : g.goto? q' p.lhs = some target) :
      Reduces g k states (target :: q' :: rest)

/-- No endless chain of reductions starts from the stack. -/
def Halts (g : Cfg) (k : TermId) (states : List StateId) : Prop :=
  Acc (fun s' s => g.Reduces k s s') states

variable {g : Cfg} {root : TermId} {q : StateId} {states : List StateId} {xs ys : List TermId}

/-! ## Paths and the symbols they spell -/

/-- Where a path goes on over the symbols behind the dot of an item, so do the lookaheads. -/
theorem Path.lookahead (hg : g.Augmented root) {p : Production} {k : TermId} {rest : List TermId}
    {states' : List StateId} : ∀ {xs ys : List TermId} {q : StateId} {states : List StateId}
    {item : Item}, g.Path (q :: states) ys → g.Lookahead q item k →
    g.productions[item.production]? = some p → p.rhs.drop item.position = xs ++ rest →
    g.Path states' (xs.reverse ++ ys) →
    ∃ front q', states' = front ++ q :: states ∧ front.length = xs.length ∧
      states'.head? = some q' ∧ g.Lookahead q' ⟨item.production, item.position + xs.length⟩ k
  | [], ys, q, states, item, hpath, hk, _, _, hpath' => by
    obtain rfl := hpath.unique hpath'
    exact ⟨[], q, rfl, rfl, rfl, hk⟩
  | x :: xs, ys, q, states, item, hpath, hk, hp, hdrop, hpath' => by
    have hx : g.next item = some x := by
      refine next_eq_some_iff.mpr ⟨p, hp, ?_⟩
      rw [← List.head?_drop, hdrop]
      rfl
    rw [List.reverse_cons, List.append_assoc, List.singleton_append] at hpath'
    have hfirst := hpath'.drop
    generalize states'.drop xs.reverse.length = states₁ at hfirst
    cases hfirst with
    | step hbefore hgoto =>
      rename_i q₀ q₁ states₀
      obtain ⟨rfl, rfl⟩ := List.cons.inj (hbefore.unique hpath)
      have hmove := hk.move (hk.mem_itemsOf hg) hx hgoto
      have hdrop' : p.rhs.drop item.advance.position = xs ++ rest := by
        show p.rhs.drop (item.position + 1) = _
        rw [← List.tail_drop, hdrop]
        rfl
      obtain ⟨front, q', hstates', hlen, hhead, hk'⟩ :=
        Path.lookahead hg (.step hbefore hgoto) hmove hp hdrop' hpath'
      have hpos : item.advance.position + xs.length = item.position + (x :: xs).length := by
        simp only [Item.advance, List.length_cons]
        omega
      rw [hpos] at hk'
      refine ⟨front ++ [q₁], q', ?_, by simp [hlen], hhead, hk'⟩
      rw [hstates', List.append_assoc, List.singleton_append]

/-- Where a production has been gone over and its symbol ahead is foreseen, it is reduced. -/
theorem Path.reduces (hg : g.Augmented root) {i : ProductionId} {p : Production}
    {states' : List StateId} {k : TermId} {target : StateId} (h : g.Path (q :: states) ys)
    (hp : g.productions[i]? = some p) (hi : i ≠ ProductionId.root)
    (hk : g.Lookahead q (Item.start i) k) (hpath : g.Path states' (p.rhs.reverse ++ ys))
    (hgoto : g.goto? q p.lhs = some target) :
    g.Reduces k states' (target :: q :: states) := by
  obtain ⟨front, q', rfl, hlen, hhead, hk'⟩ :=
    h.lookahead hg hk hp (show p.rhs.drop 0 = p.rhs ++ [] by simp) hpath
  rw [show (Item.start i).position + p.rhs.length = p.rhs.length from Nat.zero_add _] at hk'
  refine .reduce hp hi hhead hk' ?_ hgoto
  rw [← hlen, List.drop_left]

/-- A reduction of a path is a path again, over a left-hand side in place of a right-hand side. -/
theorem Reduces.path (hg : g.Augmented root) {k : TermId} {states' : List StateId}
    (h : g.Reduces k states states') (hpath : g.Path states xs) :
    ∃ i p q ys, g.productions[i]? = some p ∧ i ≠ ProductionId.root ∧
      g.Lookahead q ⟨i, p.rhs.length⟩ k ∧ xs = p.rhs.reverse ++ ys ∧
      g.Path states' (p.lhs :: ys) := by
  obtain ⟨hp, hi, hq, hk, hrest, hgoto⟩ := h
  rename_i q q' target rest i p
  obtain ⟨states, rfl⟩ := List.head?_eq_some_iff.mp hq
  obtain ⟨ys, q₁, states₁, hys, hdrop, hpath'⟩ := hpath.of_complete hg hp (hk.mem_itemsOf hg)
  obtain ⟨rfl, rfl⟩ := List.cons.inj (hrest.symm.trans hdrop)
  exact ⟨i, p, q, ys, hp, hi, hk, hys, .step hpath' hgoto⟩

end Cfg

namespace Compiled

variable {c : Compiled} {k : TermId} {q : StateId} {states : List StateId} {xs ys : List TermId}

namespace Decided

/-! ## Reductions are determined -/

theorem reduces_unique (hd : c.Decided) {s s₁ s₂ : List StateId} (h₁ : c.cfg.Reduces k s s₁)
    (h₂ : c.cfg.Reduces k s s₂) : s₁ = s₂ := by
  obtain ⟨hp₁, -, hq₁, hk₁, hrest₁, hgoto₁⟩ := h₁
  obtain ⟨hp₂, -, hq₂, hk₂, hrest₂, hgoto₂⟩ := h₂
  obtain rfl := Option.some.inj (hq₁.symm.trans hq₂)
  obtain rfl := hd.eq_of_reducible ⟨_, hp₁, hk₁⟩ ⟨_, hp₂, hk₂⟩
  obtain rfl := Option.some.inj (hp₁.symm.trans hp₂)
  obtain ⟨rfl, rfl⟩ := List.cons.inj (hrest₁.symm.trans hrest₂)
  rw [Option.some.inj (hgoto₁.symm.trans hgoto₂)]

/-- A stack halts if it comes to one that does. -/
theorem halts_of_reduces (hd : c.Decided) {s s' : List StateId}
    (h : Relation.ReflTransGen (c.cfg.Reduces k) s s') (hs' : c.cfg.Halts k s') :
    c.cfg.Halts k s := by
  induction h using Relation.ReflTransGen.head_induction_on with
  | refl => exact hs'
  | head hstep _ ih =>
    refine Acc.intro _ fun s₁ h₁ => ?_
    rw [hd.reduces_unique h₁ hstep]
    exact ih

/-- A stack halts at once where the symbol ahead is shifted. -/
theorem halts_of_goto (hd : c.Decided) {target : StateId} (h : c.cfg.goto? q k = some target) :
    c.cfg.Halts k (q :: states) := by
  refine Acc.intro _ fun s' hs' => ?_
  obtain ⟨hp, -, hq, hk, -⟩ := hs'
  obtain rfl := Option.some.inj hq
  exact absurd ⟨_, hp, hk⟩ (hd.not_reducible_of_goto h)

/-- A stack halts at once where the augmented root is complete. -/
theorem halts_of_root (hd : c.Decided) (h : c.cfg.Lookahead q ⟨ProductionId.root, 1⟩ k) :
    c.cfg.Halts k (q :: states) := by
  refine Acc.intro _ fun s' hs' => ?_
  obtain ⟨hp, hi, hq, hk, -⟩ := hs'
  obtain rfl := Option.some.inj hq
  exact absurd (hd.eq_of_reducible ⟨_, hp, hk⟩ ⟨_, hd.built.augmented.root_production, h⟩) hi

/-! ## Deriving nothing -/

/-- What may come behind the item is a terminal. -/
theorem terminal_of_expected (hd : c.Decided) {item : Item} {rest : List TermId}
    (h : c.Expected q item rest k) : k ∈ c.cfg.terminals := by
  rcases h with ⟨hk, -⟩ | ⟨-, hk⟩
  · exact hk
  · exact hk.terminal hd.built.augmented

/-- A nonterminal behind a dot is gone over, once its right-hand side lies on the stack. -/
theorem reduces_over (hd : c.Decided) {item : Item} {i : ProductionId} {p : Production}
    {xs rest : List TermId} {states' : List StateId} (hp : c.cfg.productions[i]? = some p)
    (hbefore : c.cfg.Before q item (p.lhs :: xs) rest) (hk : c.cfg.Lookahead q (Item.start i) k)
    (hpath : c.cfg.Path (q :: states) ys)
    (hsteps : Relation.ReflTransGen (c.cfg.Reduces k) (q :: states) states')
    (hpath' : c.cfg.Path states' (p.rhs.reverse ++ ys)) :
    ∃ target, c.cfg.goto? q p.lhs = some target ∧
      Relation.ReflTransGen (c.cfg.Reduces k) (q :: states) (target :: q :: states) := by
  have haug := hd.built.augmented
  obtain ⟨target, hgoto⟩ := haug.exists_goto hbefore.mem hbefore.next
  have hne := haug.ne_root_of_next hp hbefore.next
  exact ⟨target, hgoto, hsteps.tail (hpath.reduces haug hp hne hk hpath' hgoto)⟩

/-- **Trees that yield nothing are reduced**, above the stack and before any symbol that may come
behind them. -/
theorem reduces_of_null (hd : c.Decided) {xs : List TermId} {ts : List ParseTree}
    (hts : c.cfg.Forest xs ts) : yields ts = [] →
    ∀ {q : StateId} {states : List StateId} {ys : List TermId} {item : Item} {rest : List TermId},
      c.cfg.Path (q :: states) ys → c.cfg.Before q item xs rest → c.Expected q item rest k →
      ∃ states', Relation.ReflTransGen (c.cfg.Reduces k) (q :: states) states' ∧
        c.cfg.Path states' (xs.reverse ++ ys) := by
  induction hts with
  | nil =>
    intro _ q states ys item rest hpath _ _
    exact ⟨q :: states, .refl, hpath⟩
  | leaf t _ _ =>
    intro hnull
    rw [yields_leaf] at hnull
    simp at hnull
  | node hp hchildren hrest ihchildren ih =>
    rename_i i p children ts xs
    intro hnull q states ys item rest hpath hbefore hexpected
    rw [yields_node] at hnull
    obtain ⟨hnull₁, hnull₂⟩ := List.append_eq_nil_iff.mp hnull
    have haug := hd.built.augmented
    have hstart : c.cfg.Lookahead q (Item.start i) k := by
      have hterminals : ∀ t ∈ yields ts ++ [⟨k, ""⟩], t.symbol ∈ c.cfg.terminals := by
        intro t ht
        rw [hnull₂, List.nil_append, List.mem_singleton] at ht
        rw [ht]
        exact hd.terminal_of_expected hexpected
      have h := lookahead_start hbefore hp hrest hterminals hexpected
      rwa [hnull₂] at h
    -- The children come and go, then the siblings follow.
    obtain ⟨states₁, hsteps₁, hpath₁⟩ :=
      ihchildren hnull₁ hpath (hbefore.start haug hp) (Or.inr ⟨.refl [], hstart⟩)
    obtain ⟨q₂, hq₂, hover⟩ := hd.reduces_over hp hbefore hstart hpath hsteps₁ hpath₁
    obtain ⟨states', hsteps, hpath'⟩ := ih hnull₂ (hpath.step hq₂) (hbefore.advance haug hq₂)
      (hexpected.move hbefore.mem hbefore.next hq₂)
    refine ⟨states', hover.trans hsteps, ?_⟩
    rwa [List.reverse_cons, List.append_assoc, List.singleton_append]

/-- **The rest of an item is reduced from nothing**, if it derives nothing and the symbol ahead is
foreseen behind it. -/
theorem reduces_tail (hd : c.Decided) {item : Item} {p : Production} {x : TermId}
    (h : c.cfg.Foreseen xs item k) (hp : c.cfg.productions[item.production]? = some p)
    (hx : c.cfg.next item = some x) (hnull : c.cfg.Derives (c.cfg.tail item) [])
    (hpath : c.cfg.Path states (x :: xs.reverse)) :
    ∃ states', Relation.ReflTransGen (c.cfg.Reduces k) states states' ∧
      c.cfg.Path states' ((p.rhs.drop item.position).reverse ++ xs.reverse) := by
  have haug := hd.built.augmented
  obtain ⟨ts, hts, hyields⟩ := Cfg.exists_forest (w := []) hnull
  rw [Cfg.drop_of_next hp hx, List.reverse_cons, List.append_assoc, List.singleton_append]
  cases hpath with
  | step hbefore hgoto =>
    have hafter := hbefore.stateAfter_reverse rfl
    rw [List.reverse_reverse] at hafter
    have hk := h.lookahead haug hafter
    have hi := hk.mem_itemsOf haug
    exact hd.reduces_of_null hts hyields (hbefore.step hgoto)
      ((Cfg.Before.of_next hi hx).advance haug hgoto) (Or.inr ⟨.refl [], hk.move hi hx hgoto⟩)

/-! ## Up to the shift -/

/-- **The symbol ahead is shifted in the end if what stands behind a dot may begin with it.** The
induction is on trees for it. Inside a tree that yields the symbol the stack stays as it is; over
one that yields nothing it is reduced, and the siblings follow. -/
theorem halts_of_forest (hd : c.Decided) {xs : List TermId} {ts : List ParseTree}
    (hts : c.cfg.Forest xs ts) :
    ∀ {t : Token TermId} {w : List (Token TermId)}, yields ts = t :: w →
    t.symbol ∈ c.cfg.terminals →
    ∀ {q : StateId} {states : List StateId} {ys : List TermId} {item : Item} {rest : List TermId},
      c.cfg.Path (q :: states) ys → c.cfg.Before q item xs rest →
      c.cfg.Halts t.symbol (q :: states) := by
  induction hts with
  | nil =>
    intro t w hyields
    exact nomatch hyields
  | leaf t' _ _ =>
    intro t w hyields _ q states ys item rest _ hbefore
    obtain ⟨rfl, -⟩ := List.cons.inj hyields
    obtain ⟨target, htarget⟩ := hd.built.augmented.exists_goto hbefore.mem hbefore.next
    exact hd.halts_of_goto htarget
  | node hp hchildren hrest ihchildren ih =>
    rename_i i p children ts xs
    intro t w hyields hterminal q states ys item rest hpath hbefore
    rw [yields_node] at hyields
    have haug := hd.built.augmented
    cases hfirst : yields children with
    | cons t' w' =>
      rw [hfirst] at hyields
      obtain ⟨rfl, -⟩ := List.cons.inj hyields
      exact ihchildren hfirst hterminal hpath (hbefore.start haug hp)
    | nil =>
      rw [hfirst, List.nil_append] at hyields
      have hstart : c.cfg.Lookahead q (Item.start i) t.symbol := by
        have hderives := hrest.derives.append_right rest
        rw [hyields, ← hbefore.tail] at hderives
        exact .follow hbefore.mem hp hbefore.next hterminal hderives
      obtain ⟨states₁, hsteps, hpath₁⟩ := hd.reduces_of_null hchildren hfirst hpath
        (hbefore.start haug hp) (Or.inr ⟨.refl [], hstart⟩)
      obtain ⟨q₂, hq₂, hover⟩ := hd.reduces_over hp hbefore hstart hpath hsteps hpath₁
      refine hd.halts_of_reduces hover ?_
      exact ih hyields hterminal (hpath.step hq₂) (hbefore.advance haug hq₂)

theorem halts_of_first (hd : c.Decided) {item : Item} {x : TermId} {target : StateId}
    (hfirst : c.cfg.First (c.cfg.tail item) k) (hpath : c.cfg.Path (q :: states) ys)
    (hi : item ∈ c.cfg.itemsOf q) (hx : c.cfg.next item = some x)
    (hgoto : c.cfg.goto? q x = some target) : c.cfg.Halts k (target :: q :: states) := by
  obtain ⟨hterminal, w, hw⟩ := hfirst
  obtain ⟨ts, hts, hyields⟩ := Cfg.exists_forest
    (w := ⟨k, ""⟩ :: w.map fun y => ⟨y, ""⟩) (by simpa [Function.comp_def] using hw)
  exact hd.halts_of_forest hts hyields hterminal (hpath.step hgoto)
    ((Cfg.Before.of_next hi hx).advance hd.built.augmented hgoto)

/-- **A stack halts where the symbol ahead is foreseen behind an item that it completes.** -/
theorem halts_of_foreseen (hd : c.Decided) {item : Item} (h : c.cfg.Foreseen xs item k) :
    ∀ {p : Production}, c.cfg.productions[item.production]? = some p →
    ∀ {states : List StateId},
      c.cfg.Path states ((p.rhs.drop item.position).reverse ++ xs.reverse) →
      c.cfg.Halts k states := by
  have haug := hd.built.augmented
  induction h with
  | start =>
    intro p hp states hpath
    obtain rfl := Option.some.inj (haug.root_production.symm.trans hp)
    obtain ⟨front, q, rfl, -, hhead, hk⟩ := Cfg.Path.lookahead haug .initial .initial
      haug.root_production (show [c.root].drop 0 = [c.root] ++ [] by rfl) hpath
    obtain ⟨rest, hrest⟩ := List.head?_eq_some_iff.mp hhead
    rw [hrest]
    exact hd.halts_of_root hk
  | offer hv hp hx hb =>
    intro p' hp' states hpath
    obtain rfl := Option.some.inj (hp.symm.trans hp')
    obtain ⟨q, rest, hbefore, hafter⟩ := hpath.before
    have hi := hv.mem_itemsOf haug hafter
    obtain ⟨target, hgoto⟩ := haug.exists_goto hi hx
    have hk := (Cfg.Foreseen.offer hv hp hx hb).lookahead haug hafter
    have hreduce := hbefore.reduces haug hp (haug.ne_root_of_next hp hx) hk hpath hgoto
    exact hd.halts_of_reduces (.single hreduce) (hd.halts_of_first hb hbefore hi hx hgoto)
  | inherit h hp hx hnull ih =>
    intro p' hp' states hpath
    obtain rfl := Option.some.inj (hp.symm.trans hp')
    obtain ⟨q, rest, hbefore, hafter⟩ := hpath.before
    obtain ⟨target, hgoto⟩ := haug.exists_goto ((h.lookahead haug hafter).mem_itemsOf haug) hx
    have hk := (Cfg.Foreseen.inherit h hp hx hnull).lookahead haug hafter
    have hreduce := hbefore.reduces haug hp (haug.ne_root_of_next hp hx) hk hpath hgoto
    -- The tail of the parent derives nothing, and then the parent is complete.
    obtain ⟨parent, hparent, -⟩ := Cfg.next_eq_some_iff.mp hx
    obtain ⟨states', hsteps, hpath'⟩ := hd.reduces_tail h hparent hx hnull (hbefore.step hgoto)
    exact hd.halts_of_reduces (.head hreduce hsteps) (ih hparent hpath')
  | advance h hx ih =>
    rename_i item _ _
    intro p hp states hpath
    have hp' : c.cfg.productions[item.production]? = some p := hp
    have htail : p.rhs.drop item.advance.position = c.cfg.tail item := (Cfg.tail_eq hp').symm
    rw [htail, List.reverse_append] at hpath
    refine ih hp ?_
    rwa [Cfg.drop_of_next hp' hx, List.reverse_cons, List.append_assoc, List.singleton_append]

end Decided

end Compiled

end Lalr

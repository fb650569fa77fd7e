import Lalr.Proofs.Automaton.Root

/-!
# Lookaheads and canonical LR(1) validity

The states of the automaton merge all strings of symbols with the same LR(0) items, and lookaheads
are computed once for each state. This module takes them apart again: which lookaheads does an item
have **for one string of symbols**?

* `Viable g xs item`: the LR(0) item is valid for `xs`. The state that `xs` leads to has exactly
  the viable items (`viable_iff`).
* `Canonical g xs item a`: the canonical LR(1) item is valid for `xs`. It begins with the end of
  input behind the augmented root, closes with the FIRST set of what follows the symbol behind the
  dot and then the lookahead, and advances the dot.
* `Foreseen g xs item a`: as before, but a terminal that may begin what follows the symbol behind
  the dot is offered as soon as the item is viable, whether or not a lookahead is left for it.

**`lookahead_iff_foreseen`**: the lookaheads of an item in a state are the ones foreseen for some
string that leads there. Canonical lookaheads are foreseen (`Canonical.foreseen`). The other
direction can fail: where a symbol derives neither nothing nor anything that begins with a
terminal, no canonical item is closed over it, while the automaton still offers what follows
further inside. Without such symbols (`Opening`) both agree (`Foreseen.canonical`).
-/

namespace Lalr

namespace Cfg

/-- The state that symbols lead to from the initial state. -/
def stateAfter (g : Cfg) (xs : List TermId) : Option StateId := xs.foldlM g.goto? StateId.initial

/-- The terminal may begin what the symbols derive. -/
def First (g : Cfg) (u : List TermId) (t : TermId) : Prop :=
  t ∈ g.terminals ∧ ∃ w, g.Derives u (t :: w)

/-- The item is valid for the symbols, whatever follows it. -/
inductive Viable (g : Cfg) : List TermId → Item → Prop
  | start : Viable g [] ⟨ProductionId.root, 0⟩
  | close {xs : List TermId} {item : Item} {i : ProductionId} {p : Production}
      (h : Viable g xs item) (hp : g.productions[i]? = some p)
      (hx : g.next item = some p.lhs) : Viable g xs (Item.start i)
  | advance {xs : List TermId} {item : Item} {x : TermId} (h : Viable g xs item)
      (hx : g.next item = some x) : Viable g (xs ++ [x]) item.advance

/-- The canonical LR(1) item is valid for the symbols. -/
inductive Canonical (g : Cfg) : List TermId → Item → TermId → Prop
  | start : Canonical g [] ⟨ProductionId.root, 0⟩ TermId.eof
  | close {xs : List TermId} {item : Item} {i : ProductionId} {p : Production} {a b : TermId}
      (h : Canonical g xs item a) (hp : g.productions[i]? = some p)
      (hx : g.next item = some p.lhs) (hb : g.First (g.tail item ++ [a]) b) :
      Canonical g xs (Item.start i) b
  | advance {xs : List TermId} {item : Item} {x a : TermId} (h : Canonical g xs item a)
      (hx : g.next item = some x) : Canonical g (xs ++ [x]) item.advance a

/-- The lookahead is foreseen for the item after the symbols. -/
inductive Foreseen (g : Cfg) : List TermId → Item → TermId → Prop
  | start : Foreseen g [] ⟨ProductionId.root, 0⟩ TermId.eof
  | offer {xs : List TermId} {item : Item} {i : ProductionId} {p : Production} {b : TermId}
      (h : Viable g xs item) (hp : g.productions[i]? = some p)
      (hx : g.next item = some p.lhs) (hb : g.First (g.tail item) b) :
      Foreseen g xs (Item.start i) b
  | inherit {xs : List TermId} {item : Item} {i : ProductionId} {p : Production} {a : TermId}
      (h : Foreseen g xs item a) (hp : g.productions[i]? = some p)
      (hx : g.next item = some p.lhs) (hd : g.Derives (g.tail item) []) :
      Foreseen g xs (Item.start i) a
  | advance {xs : List TermId} {item : Item} {x a : TermId} (h : Foreseen g xs item a)
      (hx : g.next item = some x) : Foreseen g (xs ++ [x]) item.advance a

/-- Every nonterminal derives nothing or something that begins with a terminal. -/
def Opening (g : Cfg) : Prop :=
  ∀ x ∈ g.nonterminals, g.Derives [x] [] ∨ ∃ t, g.First [x] t

variable {g : Cfg} {root : TermId} {xs : List TermId} {q : StateId} {item : Item} {a : TermId}

/-! ## The state after symbols -/

theorem stateAfter_nil_iff : g.stateAfter [] = some q ↔ q = StateId.initial := by
  rw [stateAfter, List.foldlM_nil]
  exact Option.some_inj.trans eq_comm

theorem stateAfter_append_iff {x : TermId} :
    g.stateAfter (xs ++ [x]) = some q ↔
      ∃ q₀, g.stateAfter xs = some q₀ ∧ g.goto? q₀ x = some q := by
  rw [stateAfter, List.foldlM_append]
  simp only [List.foldlM_cons, List.foldlM_nil, bind_pure]
  exact Option.bind_eq_some_iff

/-- A path ends in the state that its symbols lead to. -/
theorem Path.stateAfter_reverse {states : List StateId} (h : g.Path states xs) :
    ∀ {q rest}, states = q :: rest → g.stateAfter xs.reverse = some q := by
  induction h with
  | initial =>
    rintro q rest heq
    obtain ⟨rfl, -⟩ := List.cons.inj heq
    exact stateAfter_nil_iff.mpr rfl
  | step _ hq ih =>
    rintro q rest heq
    obtain ⟨rfl, -⟩ := List.cons.inj heq
    rw [List.reverse_cons]
    exact stateAfter_append_iff.mpr ⟨_, ih rfl, hq⟩

theorem exists_path (h : g.stateAfter xs = some q) : ∃ states, g.Path (q :: states) xs.reverse := by
  induction xs using List.reverseRecOn generalizing q with
  | nil =>
    rw [stateAfter_nil_iff.mp h]
    exact ⟨[], .initial⟩
  | append_singleton xs x ih =>
    obtain ⟨q₀, hq₀, hgoto⟩ := stateAfter_append_iff.mp h
    obtain ⟨states, hpath⟩ := ih hq₀
    rw [List.reverse_append]
    exact ⟨q₀ :: states, .step hpath hgoto⟩

/-- Where a path was before it read the last symbols. -/
theorem Path.before {states : List StateId} {ys : List TermId}
    (h : g.Path states (ys ++ xs.reverse)) :
    ∃ q rest, g.Path (q :: rest) xs.reverse ∧ g.stateAfter xs = some q := by
  obtain ⟨q, rest, hq⟩ := h.drop.exists_cons
  have hbefore := h.drop
  rw [hq] at hbefore
  refine ⟨q, rest, hbefore, ?_⟩
  rw [← xs.reverse_reverse]
  exact hbefore.stateAfter_reverse rfl

theorem Viable.mem_itemsOf (hg : g.Augmented root) (h : g.Viable xs item) :
    ∀ {q : StateId}, g.stateAfter xs = some q → item ∈ g.itemsOf q := by
  induction h with
  | start =>
    intro q hq
    rw [stateAfter_nil_iff.mp hq, itemsOf_eq_closure g.kernels_initial]
    exact kernel_subset_closure (List.mem_singleton_self _)
  | close _ hp hx ih => exact fun hq => hg.itemsOf_step (ih hq) hp hx
  | advance _ hx ih =>
    intro q hq
    obtain ⟨q₀, hq₀, hgoto⟩ := stateAfter_append_iff.mp hq
    exact hg.advance_mem_of_goto hgoto (ih hq₀) hx

theorem viable_of_mem_closure {kernel : List Item} (hk : kernel.Nodup)
    (h : ∀ i ∈ kernel, g.Viable xs i) (hi : item ∈ g.closure kernel) : g.Viable xs item := by
  refine Reach.induction (P := g.Viable xs) h ?_ ((mem_closure_iff hk).mp hi)
  intro i j _ hviable hj
  obtain ⟨_, p, hx, hp, rfl, hpos⟩ := mem_expand.mp hj
  have hstart : j = Item.start j.production := by rw [Item.start, ← hpos]
  rw [hstart]
  exact hviable.close hp hx

/-- **The state that symbols lead to has exactly the items that are viable for them.** -/
theorem Augmented.viable_iff (hg : g.Augmented root) (hq : g.stateAfter xs = some q) :
    g.Viable xs item ↔ item ∈ g.itemsOf q := by
  refine ⟨fun h => h.mem_itemsOf hg hq, ?_⟩
  induction xs using List.reverseRecOn generalizing q item with
  | nil =>
    intro hi
    rw [stateAfter_nil_iff.mp hq, itemsOf_eq_closure g.kernels_initial] at hi
    refine viable_of_mem_closure (List.nodup_singleton _) ?_ hi
    intro i hi
    rw [List.mem_singleton.mp hi]
    exact .start
  | append_singleton xs x ih =>
    intro hi
    obtain ⟨q₀, hq₀, hgoto⟩ := stateAfter_append_iff.mp hq
    have hk := (hg.goto_iff.mp hgoto).2
    rw [itemsOf_eq_closure hk] at hi
    refine viable_of_mem_closure (hg.nodup_kernel hk) ?_ hi
    intro i hi
    obtain ⟨item₀, hitem₀, hx, rfl⟩ := mem_moved.mp hi
    exact (ih hq₀ hitem₀).advance hx

/-- The final state cannot be left. -/
theorem Augmented.ne_final_of_next (hg : g.Augmented root) {x : TermId}
    (hi : item ∈ g.itemsOf q) (hx : g.next item = some x) : q ≠ StateId.final := by
  rintro rfl
  rw [hg.eq_of_mem_final hi, next, hg.root_production] at hx
  simp at hx

/-- Symbols lead to every state but perhaps the final one. -/
theorem Augmented.exists_stateAfter (hg : g.Augmented root) {kernel : List Item}
    (hk : g.kernels[q]? = some kernel) (hne : q ≠ StateId.final) :
    ∃ xs, g.stateAfter xs = some q := by
  refine Reach.induction
    (P := fun k => ∀ q, g.kernels[q]? = some k → q ≠ StateId.final → ∃ xs, g.stateAfter xs = some q)
    ?_ ?_ (hg.mem_kernels_iff.mp (List.mem_of_getElem? hk)) q hk hne
  · intro k hstart q hq hne
    rcases List.mem_pair.mp hstart with rfl | rfl
    · exact ⟨[], stateAfter_nil_iff.mpr (eq_of_kernel hq g.kernels_initial)⟩
    · exact absurd (eq_of_kernel hq g.kernels_final) hne
  · intro k k' hreach ih hstep q hq _
    obtain ⟨q₀, hq₀⟩ := List.mem_iff_getElem?.mp (hg.mem_kernels_iff.mpr hreach)
    obtain ⟨x, hx, rfl⟩ := mem_movedKernels.mp hstep
    rw [← itemsOf_eq_closure hq₀] at hx hq
    obtain ⟨item, hi, hnext⟩ := mem_movable.mp hx
    obtain ⟨xs, hxs⟩ := ih q₀ hq₀ (hg.ne_final_of_next hi hnext)
    have hgoto : g.goto? q₀ x = some q := hg.goto_iff.mpr ⟨⟨item, hi, hnext⟩, hq⟩
    exact ⟨xs ++ [x], stateAfter_append_iff.mpr ⟨q₀, hxs, hgoto⟩⟩

/-! ## The lookaheads of a state -/

theorem Foreseen.lookahead (hg : g.Augmented root) (h : g.Foreseen xs item a) :
    ∀ {q : StateId}, g.stateAfter xs = some q → g.Lookahead q item a := by
  induction h with
  | start =>
    intro q hq
    rw [stateAfter_nil_iff.mp hq]
    exact .initial
  | offer h hp hx hb =>
    intro q hq
    obtain ⟨hterm, w, hw⟩ := hb
    exact .follow (h.mem_itemsOf hg hq) hp hx hterm hw
  | inherit _ hp hx hd ih =>
    intro q hq
    exact .inherit (ih hq) ((ih hq).mem_itemsOf hg) hp hx hd
  | advance _ hx ih =>
    intro q hq
    obtain ⟨q₀, hq₀, hgoto⟩ := stateAfter_append_iff.mp hq
    exact .move (ih hq₀) ((ih hq₀).mem_itemsOf hg) hx hgoto

/-- The end of input is foreseen behind the augmented root. -/
theorem Viable.foreseen_root (hg : g.Augmented root) (h : g.Viable xs item)
    (hroot : item.production = ProductionId.root) : g.Foreseen xs item TermId.eof := by
  induction h with
  | start => exact .start
  | close _ hp hx _ => exact absurd hroot (hg.ne_root_of_next hp hx)
  | advance _ hx ih => exact (ih hroot).advance hx

/-- A lookahead is foreseen for symbols that lead to the state, unless there are none. -/
theorem Lookahead.foreseen (hg : g.Augmented root) (h : g.Lookahead q item a) :
    q = StateId.final ∨ ∃ xs, g.stateAfter xs = some q ∧ g.Foreseen xs item a := by
  induction h with
  | initial => exact Or.inr ⟨[], stateAfter_nil_iff.mpr rfl, .start⟩
  | final => exact Or.inl rfl
  | follow hi hp hx ht hd =>
    obtain ⟨kernel, hk, -⟩ := exists_kernel_of_mem_itemsOf hi
    obtain ⟨xs, hxs⟩ := hg.exists_stateAfter hk (hg.ne_final_of_next hi hx)
    exact Or.inr ⟨xs, hxs, .offer ((hg.viable_iff hxs).mpr hi) hp hx ⟨ht, _, hd⟩⟩
  | inherit _ hi hp hx hd ih =>
    obtain ⟨xs, hxs, h⟩ := ih.resolve_left (hg.ne_final_of_next hi hx)
    exact Or.inr ⟨xs, hxs, .inherit h hp hx hd⟩
  | move _ hi hx hgoto ih =>
    obtain ⟨xs, hxs, h⟩ := ih.resolve_left (hg.ne_final_of_next hi hx)
    exact Or.inr ⟨_, stateAfter_append_iff.mpr ⟨_, hxs, hgoto⟩, .advance h hx⟩

/-- **The lookaheads of an item in a state are the ones foreseen for symbols that lead there**, if
any symbols do. -/
theorem Augmented.lookahead_iff_foreseen (hg : g.Augmented root)
    (hq : ∃ xs, g.stateAfter xs = some q) :
    g.Lookahead q item a ↔ ∃ xs, g.stateAfter xs = some q ∧ g.Foreseen xs item a := by
  refine ⟨?_, fun ⟨xs, hxs, h⟩ => h.lookahead hg hxs⟩
  intro h
  rcases h.foreseen hg with rfl | hforeseen
  · -- A final state that is led to has the completed augmented root, and nothing else.
    obtain ⟨xs, hxs⟩ := hq
    have hitem := hg.eq_of_mem_final (h.mem_itemsOf hg)
    have hviable := (hg.viable_iff hxs).mpr (h.mem_itemsOf hg)
    have hroot : item.production = ProductionId.root := by rw [hitem]
    rw [hg.eq_eof_of_lookahead_root h hroot]
    exact ⟨xs, hxs, hviable.foreseen_root hg hroot⟩
  · exact hforeseen

/-! ## Canonical lookaheads -/

theorem Canonical.viable (h : g.Canonical xs item a) : g.Viable xs item := by
  induction h with
  | start => exact .start
  | close _ hp hx _ ih => exact ih.close hp hx
  | advance _ hx ih => exact ih.advance hx

theorem Canonical.terminal (hg : g.Augmented root) (h : g.Canonical xs item a) :
    a ∈ g.terminals := by
  induction h with
  | start => exact hg.eof_mem
  | close _ _ _ hb _ => exact hb.1
  | advance _ _ ih => exact ih

theorem First.append_right {u : List TermId} {t : TermId} (h : g.First u t) (v : List TermId) :
    g.First (u ++ v) t := by
  obtain ⟨ht, w, hw⟩ := h
  exact ⟨ht, w ++ v, hw.append_right v⟩

theorem First.of_derives {u v : List TermId} {t : TermId} (h : g.First v t)
    (hd : g.Derives u v) : g.First u t := by
  obtain ⟨ht, w, hw⟩ := h
  exact ⟨ht, w, hd.trans hw⟩

theorem first_singleton {t : TermId} (ht : t ∈ g.terminals) : g.First [t] t :=
  ⟨ht, [], Derives.refl _⟩

/-- What may come first with a terminal at the end. -/
theorem Augmented.first_append_singleton (hg : g.Augmented root) (ha : a ∈ g.terminals)
    {u : List TermId} {b : TermId} :
    g.First (u ++ [a]) b ↔ g.First u b ∨ g.Derives u [] ∧ b = a := by
  constructor
  · rintro ⟨hb, w, hw⟩
    have hfirst := (hg.derives_cons_iff hb).mp ⟨w, hw⟩
    rcases Facts.mem_firstOfSequence_append.mp hfirst with hu | ⟨hnull, hsingle⟩
    · exact Or.inl ⟨hb, (hg.derives_cons_iff hb).mpr hu⟩
    · obtain ⟨w', hw'⟩ := (hg.derives_cons_iff hb).mpr hsingle
      obtain ⟨_, heq⟩ := hg.derives_terminal_cons ha hw'
      exact Or.inr ⟨hg.derives_nil_iff.mpr hnull, (List.cons.inj heq).1⟩
  · rintro (hu | ⟨hnull, rfl⟩)
    · exact hu.append_right [a]
    · exact (first_singleton ha).of_derives (hnull.append_right [b])

/-- **Canonical lookaheads are foreseen.** -/
theorem Canonical.foreseen (hg : g.Augmented root) (h : g.Canonical xs item a) :
    g.Foreseen xs item a := by
  induction h with
  | start => exact .start
  | close h hp hx hb ih =>
    rcases (hg.first_append_singleton (h.terminal hg)).mp hb with hb | ⟨hd, rfl⟩
    · exact .offer h.viable hp hx hb
    · exact .inherit ih hp hx hd
  | advance _ hx ih => exact ih.advance hx

/-! ## Where both agree -/

/-- Whether every nonterminal opens can be read off the nullable symbols and the FIRST sets. -/
theorem Augmented.opening_iff (hg : g.Augmented root) :
    g.Opening ↔ ∀ x ∈ g.nonterminals,
      x ∈ g.facts.nullable ∨ (g.facts.firstOfSequence [x]).toList ≠ [] := by
  refine forall₂_congr fun x _ => or_congr ?_ ?_
  · rw [hg.derives_nil_iff]
    simp only [List.mem_singleton, forall_eq]
    rfl
  · constructor
    · rintro ⟨t, ht, w, hw⟩
      exact List.ne_nil_of_mem ((hg.derives_cons_iff ht).mp ⟨w, hw⟩)
    · intro hne
      obtain ⟨t, ht⟩ := List.exists_mem_of_ne_nil _ hne
      have hterm := hg.terminal_of_mem_firstOfSequence ht
      exact ⟨t, hterm, (hg.derives_cons_iff hterm).mpr ht⟩

/-- Something comes first wherever a terminal is at the end. -/
theorem Opening.exists_first (ho : g.Opening) (ha : a ∈ g.terminals) :
    ∀ {u : List TermId}, (∀ x ∈ u, x ∈ g.terminals ∨ x ∈ g.nonterminals) →
      ∃ t, g.First (u ++ [a]) t
  | [], _ => ⟨a, first_singleton ha⟩
  | x :: u, hu => by
    have hrest : ∃ t, g.First (u ++ [a]) t :=
      ho.exists_first ha fun y hy => hu y (List.mem_cons_of_mem x hy)
    rcases hu x List.mem_cons_self with hx | hx
    · exact ⟨x, (first_singleton hx).append_right (u ++ [a])⟩
    · rcases ho x hx with hnull | ⟨t, ht⟩
      · obtain ⟨t, ht⟩ := hrest
        exact ⟨t, ht.of_derives (hnull.append_right (u ++ [a]))⟩
      · exact ⟨t, ht.append_right (u ++ [a])⟩

theorem Augmented.mem_of_mem_tail (hg : g.Augmented root) {x : TermId} (hx : x ∈ g.tail item) :
    x ∈ g.terminals ∨ x ∈ g.nonterminals := by
  unfold tail at hx
  cases hp : g.productions[item.production]? with
  | none => simp [hp] at hx
  | some p =>
    rw [hp] at hx
    exact hg.rhs_mem p (List.mem_of_getElem? hp) x (List.mem_of_mem_drop hx)

/-- Every viable item has a canonical lookahead. -/
theorem Viable.exists_canonical (hg : g.Augmented root) (ho : g.Opening) (h : g.Viable xs item) :
    ∃ a, g.Canonical xs item a := by
  induction h with
  | start => exact ⟨TermId.eof, .start⟩
  | close _ hp hx ih =>
    obtain ⟨a, ha⟩ := ih
    obtain ⟨b, hb⟩ := ho.exists_first (ha.terminal hg) fun x hx => hg.mem_of_mem_tail hx
    exact ⟨b, .close ha hp hx hb⟩
  | advance _ hx ih =>
    obtain ⟨a, ha⟩ := ih
    exact ⟨a, .advance ha hx⟩

/-- **Where every nonterminal opens, what is foreseen is canonical.** -/
theorem Foreseen.canonical (hg : g.Augmented root) (ho : g.Opening) (h : g.Foreseen xs item a) :
    g.Canonical xs item a := by
  induction h with
  | start => exact .start
  | offer h hp hx hb =>
    obtain ⟨a, ha⟩ := h.exists_canonical hg ho
    exact .close ha hp hx (hb.append_right [a])
  | inherit _ hp hx hd ih =>
    have ha := ih.terminal hg
    exact .close ih hp hx ((hg.first_append_singleton ha).mpr (Or.inr ⟨hd, rfl⟩))
  | advance _ hx ih => exact ih.advance hx

end Cfg

end Lalr

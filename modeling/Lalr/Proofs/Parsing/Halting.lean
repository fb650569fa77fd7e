import Mathlib.Order.WellFoundedSet
import Lalr.Proofs.Parsing.Reducing

/-!
# No endless reductions

**`Decided.halts`**: where nothing has to be settled, every stack of the automaton halts, whatever
symbol is ahead. That symbol may be an error: merged states then reduce on lookaheads that were
foreseen for other stacks only, and no derivation guides them.

An endless chain of reductions would have a lowest stack. Two facts exclude it.

* **Above** that stack the reductions are those of another stack with the same top state, for which
  the lookahead is foreseen (`Reduces.above`). They halt by `Decided.halts_of_foreseen`.
* **At its height** each reduction replaces the top symbol `x` by a left-hand side of which `x` is
  the first symbol and the rest derives nothing (`Cfg.Climbs`). Symbols cannot climb in a circle:
  for the foreseen stack this would be an endless chain (`Decided.not_climbs_circle`).
-/

namespace Lalr

open Relation

namespace Cfg

/-- With `k` ahead a symbol may become a left-hand side that it begins, the rest of whose
right-hand side derives nothing. -/
inductive Climbs (g : Cfg) (k : TermId) : TermId → TermId → Prop
  | climb {i : ProductionId} {p : Production} {q : StateId} {x : TermId} {rest : List TermId}
      (hp : g.productions[i]? = some p) (hi : i ≠ ProductionId.root) (hrhs : p.rhs = x :: rest)
      (hnull : g.Derives rest []) (hk : g.Lookahead q ⟨i, p.rhs.length⟩ k) : Climbs g k x p.lhs

/-- After the symbols `xs` an item waits for the symbol `x`, and for `k` right behind it. -/
def Wanted (g : Cfg) (k : TermId) (xs : List TermId) (x : TermId) : Prop :=
  ∃ item, g.Foreseen xs item k ∧ g.next item = some x ∧ g.Derives (g.tail item) []

/-- What is spelled gets shorter, or its last symbol climbs. -/
def Sinks (g : Cfg) (k : TermId) (xs ys : List TermId) : Prop :=
  ys.length < xs.length ∨ ∃ x y zs, xs = x :: zs ∧ ys = y :: zs ∧ g.Climbs k x y

variable {g : Cfg} {root k : TermId} {q : StateId} {states states' : List StateId}
  {xs ys : List TermId}

/-- A stack that halts is not reduced to itself. -/
theorem Halts.not_circle (h : g.Halts k states) : ¬ TransGen (g.Reduces k) states states := by
  induction h with
  | intro states _ ih =>
    intro hcircle
    obtain ⟨states', hstep, hback⟩ := TransGen.head'_iff.mp hcircle
    exact ih states' hstep (.tail' hback hstep)

/-! ## Climbing -/

/-- What is foreseen for an item was foreseen when it started. -/
theorem Foreseen.exists_start {item : Item} (h : g.Foreseen xs item k) :
    ∀ {q : StateId}, g.stateAfter xs = some q →
      ∃ ys q', g.stateAfter ys = some q' ∧ g.Foreseen ys (Item.start item.production) k := by
  induction h with
  | start => exact fun hq => ⟨_, _, hq, .start⟩
  | offer hv hp hx hb => exact fun hq => ⟨_, _, hq, .offer hv hp hx hb⟩
  | inherit h hp hx hd _ => exact fun hq => ⟨_, _, hq, .inherit h hp hx hd⟩
  | advance _ _ ih =>
    intro q hq
    obtain ⟨q₀, hq₀, -⟩ := stateAfter_append_iff.mp hq
    exact ih hq₀

/-- A lookahead of a completed item, the augmented root's apart, was foreseen when it started. -/
theorem Lookahead.exists_start (hg : g.Augmented root) {i : ProductionId} {n : Nat}
    (hi : i ≠ ProductionId.root) (h : g.Lookahead q ⟨i, n⟩ k) :
    ∃ ys q', g.stateAfter ys = some q' ∧ g.Foreseen ys (Item.start i) k := by
  rcases h.foreseen hg with rfl | ⟨xs, hxs, hforeseen⟩
  · have heq := hg.eq_of_mem_final (h.mem_itemsOf hg)
    exact absurd (congrArg Item.production heq) hi
  · exact hforeseen.exists_start hxs

theorem next_start {i : ProductionId} {p : Production} {x : TermId} {rest : List TermId}
    (hp : g.productions[i]? = some p) (hrhs : p.rhs = x :: rest) :
    g.next (Item.start i) = some x ∧ g.tail (Item.start i) = rest := by
  refine ⟨next_eq_some_iff.mpr ⟨p, hp, by rw [hrhs]; rfl⟩, ?_⟩
  rw [tail_eq hp, hrhs]
  rfl

/-- A symbol that climbs is wanted somewhere. -/
theorem Climbs.exists_wanted (hg : g.Augmented root) {x y : TermId} (h : g.Climbs k x y) :
    ∃ ys q, g.stateAfter ys = some q ∧ g.Wanted k ys x := by
  obtain ⟨hp, hi, hrhs, hnull, hk⟩ := h
  obtain ⟨ys, q, hq, hforeseen⟩ := hk.exists_start hg hi
  obtain ⟨hnext, htail⟩ := next_start hp hrhs
  exact ⟨ys, q, hq, _, hforeseen, hnext, htail ▸ hnull⟩

/-! ## The lowest stack -/

/-- A reduction above symbols that came from nothing stays above what is below them, or sinks. -/
theorem Reduces.cases (hg : g.Augmented root) {vs : List TermId} (h : g.Reduces k states states')
    (hpath : g.Path states (vs ++ xs)) (hnull : g.Derives vs []) :
    (∃ ys, g.Sinks k xs ys ∧ g.Path states' ys) ∨
      ∃ vs', vs' ≠ [] ∧ g.Derives vs' [] ∧ g.Path states' (vs' ++ xs) := by
  obtain ⟨i, p, q, ys, hp, hi, hk, heq, hpath'⟩ := h.path hg hpath
  rw [hg.derives_nil_iff] at hnull
  have hlhs : ∀ bs, vs = p.rhs.reverse ++ bs → g.Derives (p.lhs :: bs) [] := by
    rintro bs rfl
    refine hg.derives_nil_iff.mpr
      (List.forall_mem_cons.mpr ⟨?_, fun x hx => hnull x (by simp [hx])⟩)
    exact hg.lhs_mem_nullable (List.mem_of_getElem? hp) fun x hx => hnull x (by simp [hx])
  -- The production takes all the symbols above and `as` below, or leaves `bs` of those above.
  rcases List.append_eq_append_iff.mp heq with ⟨as, hrhs, rfl⟩ | ⟨bs, hvs, rfl⟩
  · match as with
    | [] => exact Or.inr ⟨[p.lhs], List.cons_ne_nil _ _, hlhs [] (by simpa using hrhs.symm), hpath'⟩
    | [x] =>
      have hclimbs : g.Climbs k x p.lhs := by
        refine .climb hp hi (show p.rhs = x :: vs.reverse from ?_) ?_ hk
        · rw [List.reverse_eq_iff.mp hrhs, List.reverse_append]
          rfl
        · exact hg.derives_nil_iff.mpr fun y hy => hnull y (List.mem_reverse.mp hy)
      exact Or.inl ⟨_, Or.inr ⟨x, p.lhs, ys, rfl, rfl, hclimbs⟩, hpath'⟩
    | x :: y :: as =>
      refine Or.inl ⟨_, Or.inl ?_, hpath'⟩
      simp only [List.length_append, List.length_cons]
      omega
  · exact Or.inr ⟨p.lhs :: bs, List.cons_ne_nil _ _, hlhs bs hvs, hpath'⟩

theorem Path.length_lt {vs : List TermId} (h : g.Path (q :: states) xs)
    (h' : g.Path states' (vs ++ xs)) (hne : vs ≠ []) : states.length + 1 < states'.length := by
  have hlen := h.length_eq
  have hlen' := h'.length_eq
  have hpos := List.length_pos_iff.mpr hne
  rw [List.length_cons] at hlen
  rw [List.length_append] at hlen'
  omega

/-- What stands below a reduction does not matter to it. -/
theorem Reduces.above {above below below' : List StateId}
    (h : g.Reduces k (above ++ q :: below) states') (hlt : below.length + 1 < states'.length) :
    ∃ above', states' = above' ++ q :: below ∧
      g.Reduces k (above ++ q :: below') (above' ++ q :: below') := by
  obtain ⟨hp, hi, hq, hk, hrest, hgoto⟩ := h
  rename_i q₁ q' target rest i p
  have hle : p.rhs.length ≤ above.length := by
    have hlen := congrArg List.length hrest
    simp only [List.length_drop, List.length_append, List.length_cons] at hlen hlt
    omega
  rw [List.drop_append_of_le_length hle] at hrest
  refine ⟨target :: above.drop p.rhs.length, by rw [List.cons_append, hrest], ?_⟩
  have hrest' : ∃ rest', above.drop p.rhs.length ++ q :: below' = q' :: rest' := by
    cases hdrop : above.drop p.rhs.length with
    | nil =>
      rw [hdrop] at hrest
      exact ⟨below', by rw [← (List.cons.inj hrest).1]; rfl⟩
    | cons q₂ middle =>
      rw [hdrop] at hrest
      exact ⟨middle ++ q :: below', by rw [← (List.cons.inj hrest).1]; rfl⟩
  obtain ⟨rest', hrest'⟩ := hrest'
  rw [List.cons_append, hrest']
  refine .reduce hp hi ?_ hk (by rw [List.drop_append_of_le_length hle, hrest']) hgoto
  rw [List.head?_append] at hq ⊢
  exact hq

end Cfg

namespace Compiled

namespace Decided

variable {c : Compiled} {k : TermId} {q : StateId} {states states' : List StateId}
  {xs ys : List TermId}

/-! ## No circles -/

/-- A stack halts if its last symbol is wanted. -/
theorem halts_of_wanted (hd : c.Decided) {x : TermId} (h : c.cfg.Wanted k xs x)
    (hpath : c.cfg.Path states (x :: xs.reverse)) : c.cfg.Halts k states := by
  obtain ⟨item, hforeseen, hx, hnull⟩ := h
  obtain ⟨p, hp, -⟩ := Cfg.next_eq_some_iff.mp hx
  obtain ⟨states', hsteps, hpath'⟩ := hd.reduces_tail hforeseen hp hx hnull hpath
  exact hd.halts_of_reduces hsteps (hd.halts_of_foreseen hforeseen hp hpath')

/-- A symbol that climbs to one that is wanted is wanted itself, and is reduced to it. -/
theorem wanted_of_climbs (hd : c.Decided) {x y : TermId} (h : c.cfg.Climbs k x y)
    (hy : c.cfg.Wanted k xs y) :
    c.cfg.Wanted k xs x ∧ ∀ {states}, c.cfg.Path states (x :: xs.reverse) →
      ∃ states', c.cfg.Path states' (y :: xs.reverse) ∧
        TransGen (c.cfg.Reduces k) states states' := by
  have haug := hd.built.augmented
  obtain ⟨hp, hi, hrhs, hnull, -⟩ := h
  rename_i i p q rest
  obtain ⟨item, hforeseen, hnext, htail⟩ := hy
  have hstart := Cfg.Foreseen.inherit hforeseen hp hnext htail
  obtain ⟨hx, hrest⟩ := Cfg.next_start hp hrhs
  refine ⟨⟨_, hstart, hx, hrest ▸ hnull⟩, fun {states} hpath => ?_⟩
  obtain ⟨states₁, hsteps, hpath₁⟩ := hd.reduces_tail hstart hp hx (hrest ▸ hnull) hpath
  obtain ⟨q₀, states₀, hbefore, hafter⟩ := hpath₁.before
  obtain ⟨target, hgoto⟩ :=
    haug.exists_goto ((hforeseen.lookahead haug hafter).mem_itemsOf haug) hnext
  have hreduce := hbefore.reduces haug hp hi (hstart.lookahead haug hafter) hpath₁ hgoto
  exact ⟨_, hbefore.step hgoto, .tail' hsteps hreduce⟩

theorem wanted_of_climbs_trans (hd : c.Decided) {x y : TermId} (h : TransGen (c.cfg.Climbs k) x y)
    (hy : c.cfg.Wanted k xs y) :
    c.cfg.Wanted k xs x ∧ ∀ {states}, c.cfg.Path states (x :: xs.reverse) →
      ∃ states', c.cfg.Path states' (y :: xs.reverse) ∧
        TransGen (c.cfg.Reduces k) states states' := by
  induction h using TransGen.head_induction_on with
  | single h => exact hd.wanted_of_climbs h hy
  | head h _ ih =>
    obtain ⟨hwanted, hreduces⟩ := ih
    obtain ⟨hwanted', hreduces'⟩ := hd.wanted_of_climbs h hwanted
    refine ⟨hwanted', fun {states} hpath => ?_⟩
    obtain ⟨states₁, hpath₁, hsteps₁⟩ := hreduces' hpath
    obtain ⟨states₂, hpath₂, hsteps₂⟩ := hreduces hpath₁
    exact ⟨states₂, hpath₂, hsteps₁.trans hsteps₂⟩

/-- **Symbols do not climb in a circle.** Some symbol of the circle is wanted, so the stack that
ends with it halts; but it would be reduced to itself. -/
theorem not_climbs_circle (hd : c.Decided) (x : TermId) : ¬ TransGen (c.cfg.Climbs k) x x := by
  intro h
  have haug := hd.built.augmented
  obtain ⟨y, hxy, hyx⟩ := TransGen.tail'_iff.mp h
  obtain ⟨ys, q, hq, hwanted⟩ := hyx.exists_wanted haug
  obtain ⟨rest, hpath⟩ := Cfg.exists_path hq
  have ⟨item, hforeseen, hnext, _⟩ := hwanted
  obtain ⟨target, hgoto⟩ := haug.exists_goto ((hforeseen.lookahead haug hq).mem_itemsOf haug) hnext
  have hpath' := hpath.step hgoto
  obtain ⟨states', hsame, hsteps⟩ := (hd.wanted_of_climbs_trans (.head' hyx hxy) hwanted).2 hpath'
  rw [← hpath'.unique hsame] at hsteps
  exact (hd.halts_of_wanted hwanted hpath').not_circle hsteps

theorem climbs_wellFounded (hd : c.Decided) (k : TermId) :
    WellFounded fun y x => c.cfg.Climbs k x y := by
  have haug := hd.built.augmented
  have : IsStrictOrder TermId fun y x => TransGen (c.cfg.Climbs k) x y :=
    { irrefl := hd.not_climbs_circle, trans := fun _ _ _ h h' => TransGen.trans h' h }
  have hfinite := (Set.finite_lt_nat c.cfg.termCount).wellFoundedOn
    (r := fun y x => TransGen (c.cfg.Climbs k) x y)
  refine Subrelation.wf ?_ (Set.wellFoundedOn_iff.mp hfinite)
  intro y x h
  refine ⟨.single h, ?_, ?_⟩
  · obtain ⟨hp, -⟩ := h
    exact haug.lt_termCount _ (Or.inr (haug.lhs_mem _ (List.mem_of_getElem? hp)))
  · obtain ⟨hp, -, hrhs, -⟩ := h
    exact haug.lt_termCount _ (haug.rhs_mem _ (List.mem_of_getElem? hp) _ (by simp [hrhs]))

/-- Sinking ends. -/
theorem sinks_wellFounded (hd : c.Decided) (k : TermId) :
    WellFounded fun ys xs => c.cfg.Sinks k xs ys := by
  refine ⟨fun xs => ?_⟩
  induction hn : xs.length using Nat.strongRecOn generalizing xs with
  | ind n ih =>
    cases xs with
    | nil =>
      refine Acc.intro _ ?_
      rintro ys (hlt | ⟨x, y, zs, heq, -⟩)
      · exact absurd hlt (Nat.not_lt_zero _)
      · exact nomatch heq
    | cons x zs =>
      induction x using (hd.climbs_wellFounded k).induction with
      | h x ihx =>
        refine Acc.intro _ ?_
        rintro ys (hlt | ⟨x', y, zs', heq, rfl, hclimbs⟩)
        · exact ih _ (hn ▸ hlt) _ rfl
        · obtain ⟨rfl, rfl⟩ := List.cons.inj heq
          exact ihx y hclimbs hn

/-! ## Every stack halts -/

/-- A reduction from nothing has a twin: another stack with the same top state that halts. -/
theorem exists_twin (hd : c.Decided) (h : c.cfg.Reduces k (q :: states) states')
    (hlt : states.length + 1 < states'.length) : ∃ rest, c.cfg.Halts k (q :: rest) := by
  have haug := hd.built.augmented
  obtain ⟨hp, hi, hq, hk, hrest, -⟩ := h
  rename_i q₁ q' target rest i p
  obtain rfl := Option.some.inj hq
  have hnil : p.rhs = [] := by
    have hlen := congrArg List.length hrest
    simp only [List.length_drop, List.length_cons] at hlen hlt
    exact List.eq_nil_of_length_eq_zero (by omega)
  rw [hnil] at hk
  rcases hk.foreseen haug with rfl | ⟨xs, hxs, hforeseen⟩
  · have heq := haug.eq_of_mem_final (hk.mem_itemsOf haug)
    exact absurd (congrArg Item.production heq) hi
  · obtain ⟨rest, hpath⟩ := Cfg.exists_path hxs
    exact ⟨rest, hd.halts_of_foreseen hforeseen hp (by rw [hnil]; exact hpath)⟩

/-- Above a stack the reductions are those of its twin, until they sink. -/
theorem halts_above (hd : c.Decided) {rest : List StateId}
    (hsinks : ∀ ys states', c.cfg.Sinks k xs ys → c.cfg.Path states' ys → c.cfg.Halts k states')
    (hpath : c.cfg.Path (q :: states) xs) {twin : List StateId} (htwin : c.cfg.Halts k twin) :
    ∀ {above : List StateId} {vs : List TermId}, twin = above ++ q :: rest →
      c.cfg.Path (above ++ q :: states) (vs ++ xs) → c.cfg.Derives vs [] →
      c.cfg.Halts k (above ++ q :: states) := by
  induction htwin with
  | intro twin _ ih =>
    intro above vs htwin habove hnull
    refine Acc.intro _ fun states' hstep => ?_
    rcases hstep.cases hd.built.augmented habove hnull with
      ⟨ys, hys, hpath'⟩ | ⟨vs', hne, hnull', hpath'⟩
    · exact hsinks ys states' hys hpath'
    · obtain ⟨above', rfl, hstep'⟩ := hstep.above (hpath.length_lt hpath' hne)
      exact ih _ (htwin ▸ hstep') rfl hpath' hnull'

/-- **Every stack halts**, whatever symbol is ahead. -/
theorem halts (hd : c.Decided) (k : TermId) (h : c.cfg.Path states xs) : c.cfg.Halts k states := by
  induction xs using (hd.sinks_wellFounded k).induction generalizing states with
  | h xs ih =>
    obtain ⟨q, rest, rfl⟩ := h.exists_cons
    refine Acc.intro _ fun states' hstep => ?_
    have hpath : c.cfg.Path ([] ++ q :: rest) ([] ++ xs) := h
    rcases hstep.cases hd.built.augmented hpath (.refl []) with
      ⟨ys, hys, hpath'⟩ | ⟨vs', hne, -, hpath'⟩
    · exact ih ys hys hpath'
    · obtain ⟨twin, htwin⟩ := hd.exists_twin hstep (h.length_lt hpath' hne)
      have hhalts := hd.halts_above (fun ys _ hys hpath' => ih ys hys hpath') h htwin rfl hpath
        (.refl [])
      exact hhalts.inv hstep

end Decided

end Compiled

end Lalr

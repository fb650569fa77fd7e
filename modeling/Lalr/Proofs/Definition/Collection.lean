import Lalr.Definition.Productions
import Lalr.Proofs.Cfg.Derivation
import Lalr.Proofs.Definition.WellFormed
import Mathlib.Data.List.Perm.Subperm

/-!
# What collection finds

Collection stops when its fuel is used up, and changes the rules it walks over. Both have to be
accounted for.

* **Fuel.** Lifting turns each nested expression into one more term, so the terms and the nested
  expressions together never grow (`Walk.budget`). As no term is visited twice, the fuel is enough
  to visit every term that is found.
* **Rules.** Terms keep their kind and their precedence, and rules go on mentioning only terms that
  exist and never the augmented root. A visited rule has nothing nested, and what it mentions has
  been found (`Visited`).

The result is **`WellFormed.augmented_cfg`**: the grammar of what is found is closed, and its first
production is the only one of the augmented root. What is said of terms one by one needs none of
this; it is enough that one more lifted expression keeps it, and a new name or rule
(`Definition.collect_of_lift`).
-/

namespace Lalr

/-- A rule may mention the term when there are `n` terms. -/
def usable (n : Nat) (id : TermId) : Bool := id < n && id != TermId.root

theorem usable_iff {n : Nat} {id : TermId} :
    usable n id = true ↔ id < n ∧ id ≠ TermId.root := by
  simp [usable]

theorem usable_mono {n m : Nat} (h : n ≤ m) (id : TermId) (hid : usable n id = true) :
    usable m id = true := by
  rw [usable_iff] at hid ⊢
  exact ⟨Nat.lt_of_lt_of_le hid.1 h, hid.2⟩

/-- The number of nested expressions in the rule of a term. -/
def Term.nestedCount (t : Term) : Nat := (t.rule.map Expr.nestedCount).getD 0

/-! ## Lifting -/

section Lifting

variable {onHint : Hint → Bool} {n : Nat}

/-- The terms made of `count` nested expressions, whose rules mention what `n` terms allow. -/
structure Lifted (onHint : Hint → Bool) (n count : Nat) (new : List Term) : Prop where
  kind  : ∀ t ∈ new, t.isTerminal = false ∧ t.precedence = none
  rules : ∀ t ∈ new, ∀ e, t.rule = some e → e.every (usable n) onHint = true
  count : new.length + total (new.map Term.nestedCount) = count

theorem Lifted.nil : Lifted onHint n 0 [] := ⟨by simp, by simp, rfl⟩

theorem Lifted.append {k m : Nat} {as bs : List Term} (ha : Lifted onHint n k as)
    (hb : Lifted onHint n m bs) : Lifted onHint n (k + m) (as ++ bs) := by
  refine ⟨?_, ?_, ?_⟩
  · intro t ht
    exact (List.mem_append.mp ht).elim (ha.kind t) (hb.kind t)
  · intro t ht
    exact (List.mem_append.mp ht).elim (ha.rules t) (hb.rules t)
  · have hka := ha.count
    have hkb := hb.count
    simp only [List.length_append, List.map_append, total_append]
    omega

namespace Lifting

theorem operand_extends (l : Lifting) (o : Operand) : l.terms <+: (l.operand o).1.terms := by
  cases o with
  | term id => exact List.prefix_rfl
  | hint mark => exact List.prefix_rfl
  | nested alternatives => exact List.prefix_append _ _

theorem sequence_extends : ∀ (s : List Operand) (l : Lifting), l.terms <+: (l.sequence s).1.terms
  | [], _ => List.prefix_rfl
  | o :: rest, l => (l.operand_extends o).trans (sequence_extends rest _)

theorem alternatives_extends : ∀ (as : List (List Operand)) (l : Lifting),
    l.terms <+: (l.alternatives as).1.terms
  | [], _ => List.prefix_rfl
  | s :: rest, l => (sequence_extends s l).trans (alternatives_extends rest _)

theorem operand_spec {l : Lifting} (hn : n ≤ l.terms.length) (hthree : 3 ≤ n) {o : Operand}
    (ho : o.every (usable n) onHint = true) :
    ∃ new, (l.operand o).1.terms = l.terms ++ new ∧ Lifted onHint n o.nestedCount new ∧
      (l.operand o).2.nestedCount = 0 ∧
      (l.operand o).2.every (usable (l.terms ++ new).length) onHint = true := by
  cases o with
  | term id =>
    refine ⟨[], (List.append_nil _).symm, Lifted.nil, rfl, ?_⟩
    exact usable_mono (by simpa using hn) id ho
  | hint mark => exact ⟨[], (List.append_nil _).symm, Lifted.nil, rfl, ho⟩
  | nested alternatives =>
    refine ⟨[_], rfl, ⟨by simp [Term.named, Term.isTerminal], ?_, ?_⟩, rfl, ?_⟩
    · intro t ht e he
      obtain rfl := List.mem_singleton.mp ht
      obtain rfl : Expr.mk alternatives = e := by simpa using he
      exact ho
    · simp [Term.nestedCount, Expr.nestedCount, Operand.nestedCount]
    · exact usable_iff.mpr ⟨by simp, Nat.ne_of_gt (Nat.lt_of_lt_of_le hthree hn)⟩

theorem sequence_spec (hthree : 3 ≤ n) : ∀ {s : List Operand} {l : Lifting}, n ≤ l.terms.length →
    Operand.everySequence (usable n) onHint s = true →
    ∃ new, (l.sequence s).1.terms = l.terms ++ new ∧
      Lifted onHint n (Operand.nestedCountSequence s) new ∧
      Operand.nestedCountSequence (l.sequence s).2 = 0 ∧
      Operand.everySequence (usable (l.terms ++ new).length) onHint (l.sequence s).2 = true
  | [], l, _, _ => ⟨[], (List.append_nil _).symm, Lifted.nil, rfl, rfl⟩
  | o :: rest, l, hn, h => by
    simp only [Operand.everySequence, Bool.and_eq_true] at h
    obtain ⟨new, hterms, hnew, hflat, hevery⟩ := operand_spec hn hthree h.1
    have hn' : n ≤ (l.operand o).1.terms.length := by
      rw [hterms, List.length_append]
      exact Nat.le_add_right_of_le hn
    obtain ⟨new', hterms', hnew', hflat', hevery'⟩ := sequence_spec hthree hn' h.2
    rw [hterms, List.append_assoc] at hterms' hevery'
    refine ⟨new ++ new', hterms', hnew.append hnew', ?_, ?_⟩
    · simp only [Lifting.sequence, Operand.nestedCountSequence, hflat, hflat']
    · simp only [Lifting.sequence, Operand.everySequence, Bool.and_eq_true]
      exact ⟨Operand.every_mono (usable_mono (by simp)) (fun _ hx => hx) _ hevery, hevery'⟩

/-- **Lifting leaves nothing nested**, and every nested expression becomes a term. -/
theorem alternatives_spec (hthree : 3 ≤ n) : ∀ {as : List (List Operand)} {l : Lifting},
    n ≤ l.terms.length → Operand.everyAlternatives (usable n) onHint as = true →
    ∃ new, (l.alternatives as).1.terms = l.terms ++ new ∧
      Lifted onHint n (Operand.nestedCountAlternatives as) new ∧
      Operand.nestedCountAlternatives (l.alternatives as).2 = 0 ∧
      Operand.everyAlternatives (usable (l.terms ++ new).length) onHint (l.alternatives as).2 = true
  | [], l, _, _ => ⟨[], (List.append_nil _).symm, Lifted.nil, rfl, rfl⟩
  | s :: rest, l, hn, h => by
    simp only [Operand.everyAlternatives, Bool.and_eq_true] at h
    obtain ⟨new, hterms, hnew, hflat, hevery⟩ := sequence_spec hthree hn h.1
    have hn' : n ≤ (l.sequence s).1.terms.length := by
      rw [hterms, List.length_append]
      exact Nat.le_add_right_of_le hn
    obtain ⟨new', hterms', hnew', hflat', hevery'⟩ := alternatives_spec hthree hn' h.2
    rw [hterms, List.append_assoc] at hterms' hevery'
    refine ⟨new ++ new', hterms', hnew.append hnew', ?_, ?_⟩
    · simp only [Lifting.alternatives, Operand.nestedCountAlternatives, hflat, hflat']
    · simp only [Lifting.alternatives, Operand.everyAlternatives, Bool.and_eq_true]
      exact ⟨Operand.everySequence_mono (usable_mono (by simp)) (fun _ hx => hx) _ hevery, hevery'⟩

end Lifting

end Lifting

/-! ## What collecting keeps -/

section Keep

variable {P : List Term → Prop}

theorem Lifting.alternatives_of_lift
    (hlift : ∀ (l : Lifting) (as : List (List Operand)), P l.terms → P (l.lift as).1.terms)
    {l : Lifting} (h : P l.terms) (as : List (List Operand)) : P (l.alternatives as).1.terms := by
  have hoperand : ∀ (o : Operand) {l : Lifting}, P l.terms → P (l.operand o).1.terms := by
    intro o l h
    cases o with
    | term id => exact h
    | hint mark => exact h
    | nested as => exact hlift l as h
  have hsequence : ∀ (s : List Operand) {l : Lifting}, P l.terms → P (l.sequence s).1.terms := by
    intro s
    induction s with
    | nil => exact fun h => h
    | cons o rest ih => exact fun h => ih (hoperand o h)
  induction as generalizing l with
  | nil => exact h
  | cons s rest ih => exact ih (hsequence s h)

/-- **What a lifted expression keeps, and a change of a name or a rule**, collecting keeps. -/
theorem Definition.collect_of_lift {d : Definition} {root : TermId}
    (hlift : ∀ (l : Lifting) (as : List (List Operand)), P l.terms → P (l.lift as).1.terms)
    (hmodify : ∀ (terms : List Term) (i : TermId) (f : Term → Term),
      (∀ t, f t = { t with name := (f t).name, rule := (f t).rule }) → P terms →
        P (terms.modify i f))
    (h : P d.terms) : P (d.collect root).terms := by
  have hvisit : ∀ (c : Collection) (id : TermId), P c.terms → P (c.visit id).terms := by
    intro c id hc
    unfold Collection.visit
    split
    · exact hc
    · split
      · exact hmodify _ _ _ (fun _ => rfl) (Lifting.alternatives_of_lift hlift hc _)
      · exact hc
  have hrun : ∀ (fuel cursor : Nat) (c : Collection), P c.terms →
      P (c.visitFrom fuel cursor).terms := by
    intro fuel
    induction fuel with
    | zero => exact fun _ _ hc => hc
    | succ fuel ih =>
      intro cursor c hc
      unfold Collection.visitFrom
      split
      · exact hc
      · exact ih _ _ (hvisit c _ hc)
  exact hrun _ 0 ⟨⟨d.augment root, 0⟩, [TermId.eof, TermId.root]⟩
    (hmodify _ _ _ (fun _ => rfl) h)

end Keep

/-! ## The walk -/

/-- Setting up the augmented root leaves the other terms as they are. -/
theorem Definition.getElem?_augment {d : Definition} {root i : TermId} (hi : i ≠ TermId.root) :
    (d.augment root)[i]? = d.terms[i]? :=
  List.getElem?_modify_ne _ _ (Ne.symm hi)

namespace Collection

/-- What holds of a collection at every moment of the walk. -/
structure Walk (d : Definition) (root : TermId) (onHint : Hint → Bool) (c : Collection) : Prop where
  kept      : ∀ (i : Nat) (t : Term), d.terms[i]? = some t →
    ∃ t', c.terms[i]? = some t' ∧ t'.isTerminal = t.isTerminal ∧ t'.precedence = t.precedence
  made      : ∀ (i : Nat) (t : Term), d.terms.length ≤ i → c.terms[i]? = some t →
    t.isTerminal = false ∧ t.precedence = none
  root_rule : ∃ t, c.terms[TermId.root]? = some t ∧ t.rule = some (Expr.term root)
  rules     : ∀ t ∈ c.terms, ∀ e, t.rule = some e →
    e.every (usable c.terms.length) onHint = true
  first     : ∃ rest, c.found = TermId.eof :: TermId.root :: rest
  nodup     : c.found.Nodup
  bound     : ∀ id ∈ c.found, id < c.terms.length ∧ id ≠ TermId.empty
  budget    : c.terms.length + total (c.terms.map Term.nestedCount) ≤
    d.terms.length + d.nestedCount

/-- The rule of the term has nothing nested, and what it mentions has been found. -/
def Visited (c : Collection) (id : TermId) : Prop :=
  ∀ (t : Term) (e : Expr), c.terms[id]? = some t → t.isTerminal = false → t.rule = some e →
    e.nestedCount = 0 ∧ ∀ x ∈ Operand.levelTerms e.alternatives, x ≠ TermId.empty → x ∈ c.found

variable {d : Definition} {root : TermId} {onHint : Hint → Bool} {c : Collection}

theorem Walk.length_le (h : Walk d root onHint c) (hd : d.WellFormed) : 3 ≤ c.terms.length := by
  obtain ⟨t, ht, -⟩ := hd.augmented
  obtain ⟨t', ht', -⟩ := h.kept _ t ht
  exact (List.getElem?_eq_some_iff.mp ht').1

theorem Walk.terms_length_le (h : Walk d root onHint c) : d.terms.length ≤ c.terms.length := by
  by_contra hlt
  obtain ⟨t, ht, -⟩ := h.kept c.terms.length _ (List.getElem?_eq_getElem (Nat.not_le.mp hlt))
  exact absurd (List.getElem?_eq_some_iff.mp ht).1 (Nat.lt_irrefl _)

/-- The terms found are so few that the fuel is enough for them. -/
theorem Walk.found_le (h : Walk d root onHint c) :
    c.found.length ≤ d.terms.length + d.nestedCount := by
  have hsub : c.found ⊆ List.range c.terms.length := fun id hid =>
    List.mem_range.mpr (h.bound id hid).1
  have hlen := (h.nodup.subperm hsub).length_le
  rw [List.length_range] at hlen
  have hbudget := h.budget
  omega

/-- A visit to a term without a rule does nothing. -/
theorem visit_eq_self {id : TermId}
    (h : ∀ (t : Term) (e : Expr), c.terms[id]? = some t → t.isTerminal = false → t.rule ≠ some e) :
    c.visit id = c := by
  unfold visit
  split
  · rfl
  · rename_i t ht
    split
    · rename_i rule hterm hrule
      exact absurd hrule (h t rule ht hterm)
    · rfl

theorem visit_terms {id : Nat} {t : Term} {e : Expr} (ht : c.terms[id]? = some t)
    (hterm : t.isTerminal = false) (he : t.rule = some e) :
    (c.visit id).terms = (c.lifting.alternatives e.alternatives).1.terms.modify id fun t =>
      { t with rule := some ⟨(c.lifting.alternatives e.alternatives).2⟩ } := by
  unfold visit
  simp only [ht, hterm, he]
  rfl

/-- `c'` comes of `c` by visiting the nonterminal `t` with the rule `e` at `id`: the terms `new`
are made of the nested expressions, and the alternatives are `flat` from now on. -/
structure Visit (onHint : Hint → Bool) (c c' : Collection) (id : Nat) (t : Term) (e : Expr)
    (new : List Term) (flat : List (List Operand)) : Prop where
  before : c.terms[id]? = some t
  kind   : t.isTerminal = false
  rule   : t.rule = some e
  terms  : c'.terms = (c.terms ++ new).set id { t with rule := some ⟨flat⟩ }
  found  : c'.found = appendNew c.found ((Operand.levelTerms flat).filter (· != TermId.empty))
  lifted : Lifted onHint c.terms.length e.nestedCount new
  nested : Operand.nestedCountAlternatives flat = 0
  every  : Operand.everyAlternatives (usable c'.terms.length) onHint flat = true

theorem Walk.visit_spec (h : Walk d root onHint c) (hd : d.WellFormed) {id : Nat} {t : Term}
    {e : Expr} (ht : c.terms[id]? = some t) (hterm : t.isTerminal = false)
    (he : t.rule = some e) :
    ∃ new, Visit onHint c (c.visit id) id t e new (c.lifting.alternatives e.alternatives).2 := by
  obtain ⟨new, hterms, hnew, hflat, hevery⟩ :=
    Lifting.alternatives_spec (h.length_le hd) (Nat.le_refl c.lifting.terms.length)
      (h.rules t (List.mem_of_getElem? ht) e he)
  have hvisit : c.visit id =
      { lifting := { (c.lifting.alternatives e.alternatives).1 with
          terms := (c.lifting.alternatives e.alternatives).1.terms.modify id fun t =>
            { t with rule := some ⟨(c.lifting.alternatives e.alternatives).2⟩ } }
        found := appendNew c.found
          ((Operand.levelTerms (c.lifting.alternatives e.alternatives).2).filter
            (· != TermId.empty)) } := by
    unfold visit
    simp only [ht, hterm, he]
  have hset : (c.visit id).terms = (c.terms ++ new).set id
      { t with rule := some ⟨(c.lifting.alternatives e.alternatives).2⟩ } := by
    have hget : (c.lifting.terms ++ new)[id]? = some t :=
      (List.getElem?_append_left (List.getElem?_eq_some_iff.mp ht).1).trans ht
    rw [hvisit]
    show List.modify _ id _ = _
    rw [hterms, List.modify_eq_set_getElem?, hget]
    rfl
  refine ⟨new, ht, hterm, he, hset, by rw [hvisit], hnew, hflat, ?_⟩
  rw [hset, List.length_set]
  exact hevery

/-! ### One visit -/

section Visit

variable {c' : Collection} {id : Nat} {t : Term} {e : Expr} {new : List Term}
  {flat : List (List Operand)}

theorem Visit.length_eq (v : Visit onHint c c' id t e new flat) :
    c'.terms.length = c.terms.length + new.length := by
  rw [v.terms, List.length_set, List.length_append]

theorem Visit.getElem?_self (v : Visit onHint c c' id t e new flat) :
    c'.terms[id]? = some { t with rule := some ⟨flat⟩ } := by
  have hlt := (List.getElem?_eq_some_iff.mp v.before).1
  rw [v.terms]
  exact List.getElem?_set_self (by rw [List.length_append]; omega)

theorem Visit.getElem?_other (v : Visit onHint c c' id t e new flat) {j : Nat}
    (hj : j < c.terms.length) (hne : j ≠ id) : c'.terms[j]? = c.terms[j]? := by
  rw [v.terms, List.getElem?_set_ne (Ne.symm hne), List.getElem?_append_left hj]

/-- A term after the visit is the visited one, an old one or a new one. -/
theorem Visit.term_cases (v : Visit onHint c c' id t e new flat) {j : Nat} {u : Term}
    (hu : c'.terms[j]? = some u) :
    (j = id ∧ u = { t with rule := some ⟨flat⟩ }) ∨ c.terms[j]? = some u ∨
      (c.terms.length ≤ j ∧ u ∈ new) := by
  by_cases hself : j = id
  · subst hself
    exact Or.inl ⟨rfl, Option.some.inj (hu.symm.trans v.getElem?_self)⟩
  · by_cases hlt : j < c.terms.length
    · exact Or.inr (Or.inl (by rw [← v.getElem?_other hlt hself, hu]))
    · have hge := Nat.not_lt.mp hlt
      rw [v.terms, List.getElem?_set_ne (Ne.symm hself), List.getElem?_append_right hge] at hu
      exact Or.inr (Or.inr ⟨hge, List.mem_of_getElem? hu⟩)

/-- An old term stays as it is but for its rule. -/
theorem Visit.exists_term (v : Visit onHint c c' id t e new flat) {j : Nat} {u : Term}
    (hu : c.terms[j]? = some u) :
    ∃ u', c'.terms[j]? = some u' ∧ u'.isTerminal = u.isTerminal ∧ u'.precedence = u.precedence := by
  by_cases hself : j = id
  · subst hself
    obtain rfl : t = u := Option.some.inj (v.before.symm.trans hu)
    exact ⟨_, v.getElem?_self, rfl, rfl⟩
  · have hlt := (List.getElem?_eq_some_iff.mp hu).1
    exact ⟨u, by rw [v.getElem?_other hlt hself, hu], rfl, rfl⟩

theorem Visit.mem_found (v : Visit onHint c c' id t e new flat) {x : TermId} :
    x ∈ c'.found ↔ x ∈ c.found ∨ (x ∈ Operand.levelTerms flat ∧ x ≠ TermId.empty) := by
  rw [v.found, mem_appendNew, List.mem_filter, bne_iff_ne]

theorem Visit.found_eq (v : Visit onHint c c' id t e new flat) :
    ∃ more, c'.found = c.found ++ more := by
  rw [v.found]
  exact exists_appendNew_eq _ _

theorem Visit.rules (v : Visit onHint c c' id t e new flat)
    (hrules : ∀ u ∈ c.terms, ∀ e, u.rule = some e →
      e.every (usable c.terms.length) onHint = true) :
    ∀ u ∈ c'.terms, ∀ e, u.rule = some e → e.every (usable c'.terms.length) onHint = true := by
  intro u hu e' he'
  have hmono := usable_mono (Nat.le.intro v.length_eq.symm)
  obtain ⟨j, hj⟩ := List.mem_iff_getElem?.mp hu
  obtain ⟨rfl, rfl⟩ | hold | ⟨-, hnew⟩ := v.term_cases hj
  · obtain rfl := Option.some.inj he'
    exact v.every
  · exact Expr.every_mono hmono (fun _ hx => hx) (hrules u (List.mem_of_getElem? hold) e' he')
  · exact Expr.every_mono hmono (fun _ hx => hx) (v.lifted.rules u hnew e' he')

/-- Terms and nested expressions together stay as many as they were. -/
theorem Visit.budget_eq (v : Visit onHint c c' id t e new flat) :
    c'.terms.length + total (c'.terms.map Term.nestedCount) =
      c.terms.length + total (c.terms.map Term.nestedCount) := by
  have hget : (c.terms ++ new)[id]? = some t :=
    (List.getElem?_append_left (List.getElem?_eq_some_iff.mp v.before).1).trans v.before
  have hset := total_map_set Term.nestedCount { t with rule := some ⟨flat⟩ } _ id t hget
  have hflat : Term.nestedCount { t with rule := some ⟨flat⟩ } = 0 := v.nested
  have hbefore : t.nestedCount = e.nestedCount := by rw [Term.nestedCount, v.rule]; rfl
  have hcount := v.lifted.count
  rw [hflat, hbefore, ← v.terms, List.map_append, total_append] at hset
  have hlen := v.length_eq
  omega

theorem Visit.visited_self (v : Visit onHint c c' id t e new flat) : Visited c' id := by
  intro u e' hu _ he'
  obtain rfl := Option.some.inj (v.getElem?_self.symm.trans hu)
  obtain rfl := Option.some.inj he'
  exact ⟨v.nested, fun x hx hne => v.mem_found.mpr (Or.inr ⟨hx, hne⟩)⟩

theorem Visit.visited_other (v : Visit onHint c c' id t e new flat) {j : Nat}
    (hj : j < c.terms.length) (hvisited : Visited c j) : Visited c' j := by
  by_cases hself : j = id
  · exact hself ▸ v.visited_self
  · intro u e' hu hterm he'
    rw [v.getElem?_other hj hself] at hu
    obtain ⟨hflat, hfound⟩ := hvisited u e' hu hterm he'
    exact ⟨hflat, fun x hx hne => v.mem_found.mpr (Or.inl (hfound x hx hne))⟩

end Visit

/-- What is mentioned at the level of alternatives passes a test for terms. -/
theorem onTerm_of_mem_levelTerms {onTerm : TermId → Bool} {as : List (List Operand)} {x : TermId}
    (h : Operand.everyAlternatives onTerm onHint as = true) (hx : x ∈ Operand.levelTerms as) :
    onTerm x = true := by
  obtain ⟨o, ho, hox⟩ := List.mem_filterMap.mp hx
  obtain ⟨s, hs, ho⟩ := List.mem_flatten.mp ho
  have hpass := Operand.everyAlternatives_iff.mp h s hs o ho
  cases o with
  | term id =>
    obtain rfl : id = x := Option.some.inj hox
    exact hpass
  | hint mark => simp [Operand.term?] at hox
  | nested alternatives => simp [Operand.term?] at hox

/-- **A visit keeps what holds of the walk.** -/
theorem Walk.of_visit (h : Walk d root onHint c) {c' : Collection} {id : Nat} {t : Term} {e : Expr}
    {new : List Term} {flat : List (List Operand)} (v : Visit onHint c c' id t e new flat)
    (hroot : id = TermId.root → flat = [[.term root]]) : Walk d root onHint c' := by
  refine ⟨?_, ?_, ?_, v.rules h.rules, ?_, ?_, ?_, ?_⟩
  · intro j u hu
    obtain ⟨u', hu', hkind, hprec⟩ := h.kept j u hu
    obtain ⟨u'', hu'', hkind', hprec'⟩ := v.exists_term hu'
    exact ⟨u'', hu'', hkind'.trans hkind, hprec'.trans hprec⟩
  · intro j u hj hu
    obtain ⟨rfl, rfl⟩ | hold | ⟨-, hnew⟩ := v.term_cases hu
    · exact h.made j t hj v.before
    · exact h.made j u hj hold
    · exact v.lifted.kind u hnew
  · obtain ⟨u, hu, hrule⟩ := h.root_rule
    by_cases hself : TermId.root = id
    · exact ⟨_, hself ▸ v.getElem?_self, by rw [hroot hself.symm]; rfl⟩
    · have hlt := (List.getElem?_eq_some_iff.mp hu).1
      exact ⟨u, by rw [v.getElem?_other hlt hself, hu], hrule⟩
  · obtain ⟨rest, hrest⟩ := h.first
    obtain ⟨more, hmore⟩ := v.found_eq
    exact ⟨rest ++ more, by rw [hmore, hrest]; rfl⟩
  · rw [v.found]
    exact nodup_appendNew h.nodup
  · intro x hx
    rcases v.mem_found.mp hx with hx | ⟨hx, hne⟩
    · obtain ⟨hlt, hne⟩ := h.bound x hx
      exact ⟨v.length_eq ▸ Nat.lt_add_right _ hlt, hne⟩
    · exact ⟨(usable_iff.mp (onTerm_of_mem_levelTerms v.every hx)).1, hne⟩
  · rw [v.budget_eq]
    exact h.budget

theorem Walk.visit (h : Walk d root onHint c) (hd : d.WellFormed) {id : Nat}
    (hid : id < c.terms.length) :
    Walk d root onHint (c.visit id) ∧ Visited (c.visit id) id ∧
      (∀ j < c.terms.length, Visited c j → Visited (c.visit id) j) ∧
      ∃ more, (c.visit id).found = c.found ++ more := by
  obtain ⟨t, ht⟩ : ∃ t, c.terms[id]? = some t := ⟨_, List.getElem?_eq_getElem hid⟩
  by_cases hrule : t.isTerminal = false ∧ ∃ e, t.rule = some e
  · obtain ⟨hterm, e, he⟩ := hrule
    obtain ⟨new, v⟩ := h.visit_spec hd ht hterm he
    refine ⟨h.of_visit v ?_, v.visited_self, fun j => v.visited_other, v.found_eq⟩
    rintro rfl
    obtain ⟨t', ht', he'⟩ := h.root_rule
    obtain rfl : t' = t := Option.some.inj (ht'.symm.trans ht)
    obtain rfl : Expr.term root = e := Option.some.inj (he'.symm.trans he)
    rfl
  · have hsame : c.visit id = c := visit_eq_self fun t' e ht' hterm he => by
      obtain rfl : t = t' := Option.some.inj (ht.symm.trans ht')
      exact hrule ⟨hterm, e, he⟩
    rw [hsame]
    refine ⟨h, ?_, fun _ _ hj => hj, [], (List.append_nil _).symm⟩
    intro t' e ht' hterm he
    obtain rfl : t = t' := Option.some.inj (ht.symm.trans ht')
    exact absurd ⟨hterm, e, he⟩ hrule

/-! ### The whole walk -/

theorem visited_of_length_le {cursor : Nat}
    (h : ∀ j < cursor, ∀ id, c.found[j]? = some id → Visited c id)
    (hlen : c.found.length ≤ cursor) : ∀ id ∈ c.found, Visited c id := by
  intro id hid
  obtain ⟨j, hj⟩ := List.mem_iff_getElem?.mp hid
  have hlt := (List.getElem?_eq_some_iff.mp hj).1
  exact h j (Nat.lt_of_lt_of_le hlt hlen) id hj

/-- Every visit is made, and at the end everything found has been visited. -/
theorem Walk.visitFrom (hd : d.WellFormed) : ∀ (fuel cursor : Nat) {c : Collection},
    Walk d root onHint c → (∀ j < cursor, ∀ id, c.found[j]? = some id → Visited c id) →
    d.terms.length + d.nestedCount ≤ fuel + cursor →
    Walk d root onHint (c.visitFrom fuel cursor) ∧
      ∀ id ∈ (c.visitFrom fuel cursor).found, Visited (c.visitFrom fuel cursor) id
  | 0, cursor, c, h, hvisited, hfuel => by
    rw [Nat.zero_add] at hfuel
    exact ⟨h, visited_of_length_le hvisited (Nat.le_trans h.found_le hfuel)⟩
  | fuel + 1, cursor, c, h, hvisited, hfuel => by
    unfold Collection.visitFrom
    cases hcursor : c.found[cursor]? with
    | none =>
      exact ⟨h, visited_of_length_le hvisited (List.getElem?_eq_none_iff.mp hcursor)⟩
    | some id =>
      have hid := (h.bound id (List.mem_of_getElem? hcursor)).1
      obtain ⟨hwalk, hself, hother, more, hmore⟩ := h.visit hd hid
      refine Walk.visitFrom hd fuel (cursor + 1) hwalk ?_ (by omega)
      intro j hj x hx
      have hlt : j < c.found.length := by
        have := (List.getElem?_eq_some_iff.mp hcursor).1
        omega
      rw [hmore, List.getElem?_append_left hlt] at hx
      by_cases hlast : j = cursor
      · subst hlast
        obtain rfl : id = x := Option.some.inj (hcursor.symm.trans hx)
        exact hself
      · exact hother x (h.bound x (List.mem_of_getElem? hx)).1 (hvisited j (by omega) x hx)

/-- The collection that the walk starts with. -/
def start (d : Definition) (root : TermId) : Collection :=
  ⟨⟨d.augment root, 0⟩, [TermId.eof, TermId.root]⟩

/-- The augmented root gets the root for its rule, and is otherwise as it was. -/
theorem exists_augment_eq_set (hd : d.WellFormed) (root : TermId) :
    ∃ aug t : Term, d.terms[TermId.root]? = some aug ∧
      d.augment root = d.terms.set TermId.root t ∧ t.isTerminal = aug.isTerminal ∧
      t.precedence = aug.precedence ∧ t.rule = some (Expr.term root) := by
  obtain ⟨aug, haug, -⟩ := hd.augmented
  refine ⟨aug, { aug with name := d.nameOf root ++ "'", rule := some (Expr.term root) }, haug, ?_,
    rfl, rfl, rfl⟩
  rw [Definition.augment, List.modify_eq_set_getElem?, haug]
  rfl

theorem length_augment : (d.augment root).length = d.terms.length := List.length_modify _ _ _

/-- The rules mention usable terms also once the root is augmented. -/
theorem every_augment (hd : d.WellFormed) (hroot : d.root = some root)
    (hhints : ∀ t ∈ d.terms, ∀ e, t.rule = some e → e.every d.isUsable onHint = true) :
    ∀ t ∈ d.augment root, ∀ e, t.rule = some e →
      e.every (usable (d.augment root).length) onHint = true := by
  intro u hu e he
  obtain ⟨aug, t, -, hterms, -, -, hrule⟩ := exists_augment_eq_set hd root
  rw [length_augment]
  rw [hterms] at hu
  rcases List.mem_or_eq_of_mem_set hu with hu | rfl
  · exact hhints u hu e he
  · obtain ⟨hne, r, hr, -⟩ := hd.root root hroot
    obtain rfl : Expr.term root = e := Option.some.inj (hrule.symm.trans he)
    have husable : usable d.terms.length root = true :=
      usable_iff.mpr ⟨(List.getElem?_eq_some_iff.mp hr).1, hne⟩
    simp [Expr.every, Expr.term, Operand.everyAlternatives, Operand.everySequence,
      Operand.every, husable]

/-- The augmented root has nothing nested. -/
theorem budget_augment (hd : d.WellFormed) (root : TermId) :
    (d.augment root).length + total ((d.augment root).map Term.nestedCount) ≤
      d.terms.length + d.nestedCount := by
  obtain ⟨aug, t, haug, hterms, -, -, hrule⟩ := exists_augment_eq_set hd root
  have htotal := total_map_set Term.nestedCount t d.terms TermId.root aug haug
  have hzero : t.nestedCount = 0 := by
    rw [Term.nestedCount, hrule]
    rfl
  have hcount : d.nestedCount = total (d.terms.map Term.nestedCount) := rfl
  rw [length_augment, hterms]
  omega

/-- The walk starts well. -/
theorem walk_start (hd : d.WellFormed) (hroot : d.root = some root)
    (hhints : ∀ t ∈ d.terms, ∀ e, t.rule = some e → e.every d.isUsable onHint = true) :
    Walk d root onHint (start d root) := by
  obtain ⟨aug, t, haug, hterms, hkind, hprec, hrule⟩ := exists_augment_eq_set hd root
  have hself : (d.augment root)[TermId.root]? = some t := by
    rw [hterms, List.getElem?_set_self (List.getElem?_eq_some_iff.mp haug).1]
  refine ⟨?_, ?_, ⟨t, hself, hrule⟩, every_augment hd hroot hhints, ⟨[], rfl⟩,
    (by decide : [TermId.eof, TermId.root].Nodup), ?_, budget_augment hd root⟩
  · intro j u hu
    by_cases hj : j = TermId.root
    · subst hj
      obtain rfl : aug = u := Option.some.inj (haug.symm.trans hu)
      exact ⟨t, hself, hkind, hprec⟩
    · exact ⟨u, (Definition.getElem?_augment hj).trans hu, rfl, rfl⟩
  · intro j u hj hu
    have hlt : j < (d.augment root).length := (List.getElem?_eq_some_iff.mp hu).1
    rw [length_augment] at hlt
    exact absurd hlt (Nat.not_lt.mpr hj)
  · intro id hid
    have hthree := hd.three_le_length
    show id < (d.augment root).length ∧ id ≠ TermId.empty
    rw [length_augment]
    rcases List.mem_pair.mp hid with rfl | rfl
    · exact ⟨Nat.lt_of_lt_of_le (by decide) hthree, by decide⟩
    · exact ⟨Nat.lt_of_lt_of_le (by decide) hthree, by decide⟩

/-! ## The grammar of what is found -/

theorem isTerminal_eq {id : TermId} {t : Term} (h : c.terms[id]? = some t) :
    c.isTerminal id = t.isTerminal := by
  rw [isTerminal, h]
  rfl

theorem mem_nonterminals {id : TermId} :
    id ∈ c.nonterminals ↔ id ∈ c.found ∧ c.isTerminal id = false := by
  simp [nonterminals]

theorem mem_terminals {id : TermId} :
    id ∈ c.terminals ↔ id ∈ c.found ∧ c.isTerminal id = true := by
  simp [terminals]

theorem mem_terminals_or_nonterminals {id : TermId} (h : id ∈ c.found) :
    id ∈ c.terminals ∨ id ∈ c.nonterminals := by
  rw [mem_terminals, mem_nonterminals]
  cases c.isTerminal id <;> simp [h]

/-- A production is an alternative of the rule of a nonterminal that is found. -/
theorem exists_of_mem_productions {p : Production} (h : p ∈ c.productions) :
    ∃ id ∈ c.nonterminals, ∃ t e s, c.terms[id]? = some t ∧ t.rule = some e ∧
      s ∈ e.alternatives ∧ p = Production.ofSequence id s := by
  obtain ⟨id, hid, hp⟩ := List.mem_flatMap.mp h
  obtain ⟨s, hs, rfl⟩ := List.mem_map.mp hp
  refine ⟨id, hid, ?_⟩
  cases ht : c.terms[id]? with
  | none => simp [ht] at hs
  | some t =>
    cases he : t.rule with
    | none => simp [ht, he] at hs
    | some e =>
      simp only [ht, he, Option.bind_some, Option.map_some, Option.getD_some] at hs
      exact ⟨t, e, s, rfl, he, hs, rfl⟩

theorem mem_symbols {s : List Operand} {x : TermId} (h : x ∈ Production.symbols s) :
    x ∈ s.filterMap Operand.term? ∧ x ≠ TermId.empty := by
  simpa [Production.symbols] using h

/-- The symbols of a production are found, and the augmented root is none of them. -/
theorem Walk.mem_found_of_mem_rhs (h : Walk d root onHint c)
    (hvisited : ∀ id ∈ c.found, Visited c id) {p : Production} (hp : p ∈ c.productions)
    {x : TermId} (hx : x ∈ p.rhs) : x ∈ c.found ∧ x ≠ TermId.root := by
  obtain ⟨id, hid, t, e, s, ht, he, hs, rfl⟩ := exists_of_mem_productions hp
  obtain ⟨hfound, hkind⟩ := mem_nonterminals.mp hid
  rw [isTerminal_eq ht] at hkind
  obtain ⟨hmem, hne⟩ := mem_symbols hx
  have hlevel : x ∈ Operand.levelTerms e.alternatives := by
    obtain ⟨o, ho, hox⟩ := List.mem_filterMap.mp hmem
    exact List.mem_filterMap.mpr ⟨o, List.mem_flatten.mpr ⟨s, hs, ho⟩, hox⟩
  have husable := onTerm_of_mem_levelTerms (h.rules t (List.mem_of_getElem? ht) e he) hlevel
  exact ⟨(hvisited id hfound t e ht hkind he).2 x hlevel hne, (usable_iff.mp husable).2⟩

/-- The production of the augmented root comes first and the others have other left-hand sides. -/
theorem Walk.productions_eq (h : Walk d root onHint c) (hd : d.WellFormed)
    (hroot : d.root = some root) :
    ∃ rest, c.productions = ⟨TermId.root, [root], []⟩ :: rest ∧
      ∀ p ∈ rest, p.lhs ≠ TermId.root := by
  obtain ⟨found, hfound⟩ := h.first
  obtain ⟨e, he, hekind, -⟩ := hd.eof
  obtain ⟨e', he', hekind', -⟩ := h.kept _ e he
  obtain ⟨a, ha, hakind⟩ := hd.augmented
  obtain ⟨a', ha', hakind', -⟩ := h.kept _ a ha
  obtain ⟨a'', ha'', harule⟩ := h.root_rule
  obtain rfl : a' = a'' := Option.some.inj (ha'.symm.trans ha'')
  have heof : c.isTerminal TermId.eof = true := by rw [isTerminal_eq he', hekind', hekind]
  have haug : c.isTerminal TermId.root = false := by rw [isTerminal_eq ha', hakind', hakind]
  have hnonterminals : c.nonterminals =
      TermId.root :: found.filter fun id => !c.isTerminal id := by
    simp [nonterminals, hfound, heof, haug]
  have hne : root ≠ TermId.empty := by
    rintro rfl
    obtain ⟨-, t, ht, hkind⟩ := hd.root _ hroot
    obtain ⟨t', ht', hkind'⟩ := hd.empty
    obtain rfl : t = t' := Option.some.inj (ht.symm.trans ht')
    simp [hkind] at hkind'
  refine ⟨_, by
    rw [productions, hnonterminals, List.flatMap_cons, ha', Option.bind_some, harule]
    simp [Expr.term, Production.ofSequence, Production.symbols, Production.hintsFrom,
      Operand.term?, hne]
    rfl, ?_⟩
  intro p hp
  obtain ⟨id, hid, hp⟩ := List.mem_flatMap.mp hp
  obtain ⟨s, -, rfl⟩ := List.mem_map.mp hp
  rintro rfl
  have hnodup := h.nodup
  rw [hfound] at hnodup
  have hnot := (List.nodup_cons.mp (List.nodup_cons.mp hnodup).2).1
  exact hnot (List.mem_filter.mp hid).1

/-- **The grammar of what is found is closed**, and its first production is the only one of the
augmented root. -/
theorem Walk.augmented_cfg (h : Walk d root onHint c) (hd : d.WellFormed)
    (hroot : d.root = some root) (hvisited : ∀ id ∈ c.found, Visited c id) :
    c.cfg.Augmented root := by
  obtain ⟨rest, hproductions, hrest⟩ := h.productions_eq hd hroot
  have hrhs := fun p (hp : p ∈ c.productions) x (hx : x ∈ p.rhs) =>
    h.mem_found_of_mem_rhs hvisited hp hx
  obtain ⟨found, hfound⟩ := h.first
  refine ⟨?_, ?_, fun p hp hmem => (hrhs p hp _ hmem).2 rfl, ?_, ?_,
    fun p hp x hx => mem_terminals_or_nonterminals (hrhs p hp x hx).1, ?_, ?_, ?_⟩
  · show c.productions[0]? = _
    rw [hproductions]
    rfl
  · intro i p hp hlhs
    cases i with
    | zero => rfl
    | succ i =>
      have hp' : c.productions[i + 1]? = some p := hp
      rw [hproductions, List.getElem?_cons_succ] at hp'
      exact absurd hlhs (hrest p (List.mem_of_getElem? hp'))
  · have hmem : (⟨TermId.root, [root], []⟩ : Production) ∈ c.productions := by
      rw [hproductions]
      exact List.mem_cons_self
    obtain ⟨-, t, ht, hkind⟩ := hd.root root hroot
    obtain ⟨t', ht', hkind', -⟩ := h.kept _ t ht
    refine mem_nonterminals.mpr ⟨(hrhs _ hmem root (List.mem_singleton_self _)).1, ?_⟩
    rw [isTerminal_eq ht', hkind', hkind]
  · intro p hp
    obtain ⟨id, hid, _, _, _, -, -, -, rfl⟩ := exists_of_mem_productions hp
    exact hid
  · obtain ⟨t, ht, hkind, -⟩ := hd.eof
    obtain ⟨t', ht', hkind', -⟩ := h.kept _ t ht
    refine mem_terminals.mpr ⟨by rw [hfound]; exact List.mem_cons_self, ?_⟩
    rw [isTerminal_eq ht', hkind', hkind]
  · intro x hx hx'
    have hterm := (mem_terminals.mp hx).2
    rw [(mem_nonterminals.mp hx').2] at hterm
    exact Bool.false_ne_true hterm
  · intro x hx
    rcases hx with hx | hx
    · exact (h.bound x (mem_terminals.mp hx).1).1
    · exact (h.bound x (mem_nonterminals.mp hx).1).1

theorem hintsFrom_eq_nil {onTerm : TermId → Bool} : ∀ (s : List Operand) (position : Nat),
    (∀ o ∈ s, o.every onTerm (fun _ => false) = true) → Production.hintsFrom position s = []
  | [], _, _ => rfl
  | o :: rest, position, h => by
    have hrest := fun k => hintsFrom_eq_nil rest k fun o ho => h o (List.mem_cons_of_mem _ ho)
    have ho := h o List.mem_cons_self
    cases o with
    | term id => exact hrest _
    | hint mark => exact absurd ho Bool.false_ne_true
    | nested alternatives => exact hrest _

/-- Without hints in the rules there are none in the productions. -/
theorem Walk.hints_eq_nil (h : Walk d root (fun _ => false) c) {p : Production}
    (hp : p ∈ c.productions) : p.hints = [] := by
  obtain ⟨id, -, t, e, s, ht, he, hs, rfl⟩ := exists_of_mem_productions hp
  exact hintsFrom_eq_nil s 0
    (Operand.everyAlternatives_iff.mp (h.rules t (List.mem_of_getElem? ht) e he) s hs)

/-- An operator is one of the definition's. -/
theorem Walk.precedence_eq_none (h : Walk d root onHint c)
    (hd : ∀ t ∈ d.terms, t.precedence = none) {i : Nat} {t : Term} (ht : c.terms[i]? = some t) :
    t.precedence = none := by
  by_cases hi : i < d.terms.length
  · obtain ⟨t', ht', -, hprec⟩ := h.kept i _ (List.getElem?_eq_getElem hi)
    obtain rfl : t' = t := Option.some.inj (ht'.symm.trans ht)
    rw [hprec]
    exact hd _ (List.getElem_mem hi)
  · exact (h.made i t (Nat.not_lt.mp hi) ht).2

end Collection

namespace Definition

variable {d : Definition} {root : TermId} {onHint : Hint → Bool}

/-- **Collection visits everything it finds.** -/
theorem WellFormed.walk_collect (hd : d.WellFormed) (hroot : d.root = some root)
    (hhints : ∀ t ∈ d.terms, ∀ e, t.rule = some e → e.every d.isUsable onHint = true) :
    Collection.Walk d root onHint (d.collect root) ∧
      ∀ id ∈ (d.collect root).found, Collection.Visited (d.collect root) id :=
  Collection.Walk.visitFrom hd _ 0 (Collection.walk_start hd hroot hhints)
    (fun j hj => absurd hj (Nat.not_lt_zero j)) (Nat.le_refl _)

end Definition

end Lalr

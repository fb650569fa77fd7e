import Lalr.Proofs.Definition.WellFormed
import Lalr.Proofs.Discovery

/-!
# The nodes of a definition

The rules of a definition form a graph. Its nodes are **sites**: the terms, and every nested
expression of a rule, which is a node of its own. An edge leads from a site to what its alternatives
mention, term by term and nested expression by nested expression, in the order of reading. The two
reserved terminals are left out; nothing is behind them.

Nested expressions are only a way of writing: a term is reached over sites iff it is reached by
following, from rule to rule, what is mentioned at any depth (**`WellFormed.reach_iff_reaches`**),
and a nested expression iff the nonterminal is whose rule it is a part of
(**`WellFormed.reach_nested_iff`**).
-/

namespace Lalr

/-- The alternatives of an operand, if it is nested. -/
def Operand.nested? : Operand → Option (List (List Operand))
  | .nested alternatives => some alternatives
  | _ => none

/-- The nested expressions of the alternatives themselves, from left to right. -/
def Operand.levelNested (alternatives : List (List Operand)) : List (List (List Operand)) :=
  alternatives.flatten.filterMap Operand.nested?

/-- A term, or a nested expression by its number among those of another site. -/
inductive Site where
  | term (id : TermId)
  | nested (site : Site) (number : Nat)
  deriving DecidableEq, Repr

/-! ## Nested expressions -/

namespace Operand

theorem mem_innerTermsSequence {x : TermId} {s : List Operand} :
    x ∈ innerTermsSequence s ↔ ∃ as ∈ s.filterMap nested?, x ∈ (Expr.mk as).terms := by
  induction s with
  | nil => simp [innerTermsSequence]
  | cons o rest ih =>
    rw [innerTermsSequence, List.mem_append, ih]
    cases o with
    | term id => simp [innerTerms, nested?]
    | hint mark => simp [innerTerms, nested?]
    | nested as =>
      simp only [innerTerms, nested?, List.filterMap_cons, List.exists_mem_cons_iff, Expr.terms]
      exact or_comm

/-- What is mentioned inside alternatives is mentioned by one of their nested expressions. -/
theorem mem_innerTermsAlternatives {x : TermId} {as : List (List Operand)} :
    x ∈ innerTermsAlternatives as ↔ ∃ bs ∈ levelNested as, x ∈ (Expr.mk bs).terms := by
  unfold levelNested
  induction as with
  | nil => simp [innerTermsAlternatives]
  | cons s rest ih =>
    rw [innerTermsAlternatives, List.mem_append, ih, mem_innerTermsSequence, List.flatten_cons,
      List.filterMap_append]
    simp only [List.mem_append, or_and_right, exists_or]
    exact or_comm

theorem nestedCount_lt_of_mem_sequence {as : List (List Operand)} {s : List Operand}
    (h : as ∈ s.filterMap nested?) : nestedCountAlternatives as < nestedCountSequence s := by
  induction s with
  | nil => exact absurd h List.not_mem_nil
  | cons o rest ih =>
    rw [nestedCountSequence]
    cases o with
    | term id =>
      have hlt := ih h
      omega
    | hint mark =>
      have hlt := ih h
      omega
    | nested bs =>
      rw [nestedCount]
      rcases List.mem_cons.mp h with rfl | h
      · omega
      · have hlt := ih h
        omega

/-- A nested expression has fewer of them inside. -/
theorem nestedCount_lt_of_mem_levelNested {bs as : List (List Operand)}
    (h : bs ∈ levelNested as) : nestedCountAlternatives bs < nestedCountAlternatives as := by
  unfold levelNested at h
  induction as with
  | nil => exact absurd h List.not_mem_nil
  | cons s rest ih =>
    rw [List.flatten_cons, List.filterMap_append] at h
    rw [nestedCountAlternatives]
    rcases List.mem_append.mp h with h | h
    · have hlt := nestedCount_lt_of_mem_sequence h
      omega
    · have hlt := ih h
      omega

end Operand

/-! ## Sites -/

namespace Site

/-- The term whose rule the site is a part of. -/
def owner : Site → TermId
  | .term id => id
  | .nested site _ => site.owner

/-- What operands of the site mention, its nested expressions numbered from `number` on. -/
def mentions (site : Site) : Nat → List Operand → List Site
  | _, [] => []
  | number, .term id :: rest => .term id :: site.mentions number rest
  | number, .hint _ :: rest => site.mentions number rest
  | number, .nested _ :: rest => .nested site number :: site.mentions (number + 1) rest

/-- Both reserved terminals lead nowhere. -/
def isReserved (site : Site) : Bool := site == .term TermId.eof || site == .term TermId.empty

theorem term_mem_mentions {site : Site} {id : TermId} (number : Nat) (s : List Operand) :
    .term id ∈ site.mentions number s ↔ id ∈ s.filterMap Operand.term? := by
  induction s generalizing number with
  | nil => simp [mentions]
  | cons o rest ih => cases o <;> simp [mentions, Operand.term?, ih]

theorem nested_mem_mentions {site site' : Site} {k : Nat} (number : Nat) (s : List Operand) :
    .nested site' k ∈ site.mentions number s ↔
      site' = site ∧ number ≤ k ∧ k < number + (s.filterMap Operand.nested?).length := by
  induction s generalizing number with
  | nil =>
    simp only [mentions, List.not_mem_nil, List.filterMap_nil, List.length_nil, false_iff]
    omega
  | cons o rest ih =>
    cases o with
    | term id =>
      rw [mentions, List.mem_cons, or_iff_right Site.noConfusion]
      exact ih number
    | hint mark => exact ih number
    | nested alternatives =>
      simp only [mentions, List.mem_cons, Site.nested.injEq, ih, Operand.nested?,
        List.filterMap_cons, List.length_cons]
      by_cases hsite : site' = site
      · simp only [hsite, true_and]
        omega
      · simp [hsite]

end Site

/-- The alternatives of a nonterminal. -/
def alternativesIn (terms : List Term) (id : TermId) : Option (List (List Operand)) :=
  terms[id]?.bind fun t => if t.isTerminal then none else t.rule.map Expr.alternatives

theorem alternativesIn_eq_some_iff {terms : List Term} {id : TermId} {as : List (List Operand)} :
    alternativesIn terms id = some as ↔
      ∃ t, terms[id]? = some t ∧ t.isTerminal = false ∧ t.rule = some ⟨as⟩ := by
  unfold alternativesIn
  cases terms[id]? with
  | none => simp
  | some t =>
    rw [Option.bind_some]
    cases hterm : t.isTerminal with
    | true => simp [hterm]
    | false =>
      cases hrule : t.rule with
      | none => simp [hrule]
      | some e =>
        cases e
        simp [hterm, hrule]

namespace Definition

variable {d : Definition} {root : TermId}

/-- The alternatives of a site. -/
def alternativesAt (d : Definition) : Site → Option (List (List Operand))
  | .term id => alternativesIn d.terms id
  | .nested site number => (d.alternativesAt site).bind fun as => (Operand.levelNested as)[number]?

/-- What a site leads to. -/
def successors (d : Definition) (site : Site) : List Site :=
  match d.alternativesAt site with
  | none => []
  | some alternatives => (site.mentions 0 alternatives.flatten).filter fun s => !s.isReserved

/-- The rule of the nonterminal `a` mentions `b`, at any depth. -/
def Mentions (d : Definition) (a b : TermId) : Prop :=
  ∃ t e, d.terms[a]? = some t ∧ t.isTerminal = false ∧ t.rule = some e ∧ b ∈ e.terms

/-- Rules lead from `a` to `b`. -/
def Reaches (d : Definition) : TermId → TermId → Prop := Relation.ReflTransGen d.Mentions

theorem mem_successors {site s : Site} :
    s ∈ d.successors site ↔ ∃ as, d.alternativesAt site = some as ∧
      s ∈ site.mentions 0 as.flatten ∧ s.isReserved = false := by
  unfold successors
  cases d.alternativesAt site <;> simp

theorem successors_of_some {site : Site} {as : List (List Operand)}
    (h : d.alternativesAt site = some as) :
    d.successors site = (site.mentions 0 as.flatten).filter fun s => !s.isReserved := by
  rw [successors, h]

theorem successors_of_none {site : Site} (h : d.alternativesAt site = none) :
    d.successors site = [] := by
  rw [successors, h]

/-- The alternatives of a site are a part of a rule. -/
theorem exists_rule_of_alternativesAt {site : Site} {as : List (List Operand)}
    (h : d.alternativesAt site = some as) :
    ∃ t e, d.terms[site.owner]? = some t ∧ t.isTerminal = false ∧ t.rule = some e ∧
      ∀ x ∈ (Expr.mk as).terms, x ∈ e.terms := by
  induction site generalizing as with
  | term id =>
    obtain ⟨t, ht, hterm, hrule⟩ := alternativesIn_eq_some_iff.mp h
    exact ⟨t, _, ht, hterm, hrule, fun _ hx => hx⟩
  | nested site k ih =>
    obtain ⟨bs, hbs, hget⟩ := Option.bind_eq_some_iff.mp h
    obtain ⟨t, e, ht, hterm, hrule, hsub⟩ := ih hbs
    refine ⟨t, e, ht, hterm, hrule, fun x hx => hsub x (List.mem_append_right _ ?_)⟩
    exact Operand.mem_innerTermsAlternatives.mpr ⟨as, List.mem_of_getElem? hget, hx⟩

/-- The alternatives of a site mention usable terms. -/
theorem WellFormed.every_of_alternativesAt (hd : d.WellFormed) {site : Site}
    {as : List (List Operand)} (h : d.alternativesAt site = some as) :
    Operand.everyAlternatives d.isUsable (fun _ => true) as = true := by
  induction site generalizing as with
  | term id =>
    obtain ⟨t, ht, -, hrule⟩ := alternativesIn_eq_some_iff.mp h
    exact hd.rules t (List.mem_of_getElem? ht) _ hrule
  | nested site k ih =>
    obtain ⟨bs, hbs, hget⟩ := Option.bind_eq_some_iff.mp h
    obtain ⟨o, ho, hnested⟩ := List.mem_filterMap.mp (List.mem_of_getElem? hget)
    obtain ⟨s, hs, ho⟩ := List.mem_flatten.mp ho
    have hpass := Operand.everyAlternatives_iff.mp (ih hbs) s hs o ho
    cases o with
    | term id => exact absurd hnested (Option.some_ne_none _).symm
    | hint mark => exact absurd hnested (Option.some_ne_none _).symm
    | nested as' =>
      obtain rfl := Option.some.inj hnested
      exact hpass

/-- Over sites only terms are reached that rules lead to. -/
theorem reaches_owner {site : Site} (h : Reach d.successors [.term root] site) :
    d.Reaches root site.owner := by
  refine Reach.induction (P := fun s => d.Reaches root s.owner) ?_ ?_ h
  · intro s hs
    rw [List.mem_singleton.mp hs]
    exact Relation.ReflTransGen.refl
  · intro s s' _ hreaches hs'
    obtain ⟨as, has, hmem, -⟩ := mem_successors.mp hs'
    cases s' with
    | term id =>
      obtain ⟨t, e, ht, hterm, hrule, hsub⟩ := exists_rule_of_alternativesAt has
      have hid := (Site.term_mem_mentions 0 as.flatten).mp hmem
      exact hreaches.tail ⟨t, e, ht, hterm, hrule, hsub id (List.mem_append_left _ hid)⟩
    | nested s' k =>
      obtain ⟨rfl, -⟩ := (Site.nested_mem_mentions 0 as.flatten).mp hmem
      exact hreaches

/-- A site leads to the nested expressions of its alternatives. -/
theorem nested_mem_successors_iff {site site' : Site} {k : Nat} :
    .nested site' k ∈ d.successors site ↔
      site' = site ∧ (d.alternativesAt (.nested site' k)).isSome = true := by
  rw [mem_successors]
  constructor
  · rintro ⟨as, has, hmem, -⟩
    obtain ⟨rfl, -, hk⟩ := (Site.nested_mem_mentions 0 as.flatten).mp hmem
    have hlt : k < (Operand.levelNested as).length := by rwa [Nat.zero_add] at hk
    refine ⟨rfl, ?_⟩
    rw [alternativesAt, has, Option.bind_some, List.getElem?_eq_getElem hlt, Option.isSome_some]
  · rintro ⟨rfl, hsome⟩
    obtain ⟨bs, hbs⟩ := Option.isSome_iff_exists.mp hsome
    obtain ⟨as, has, hget⟩ := Option.bind_eq_some_iff.mp hbs
    have hlt : k < (as.flatten.filterMap Operand.nested?).length :=
      (List.getElem?_eq_some_iff.mp hget).1
    exact ⟨as, has, (Site.nested_mem_mentions 0 as.flatten).mpr ⟨rfl, Nat.zero_le k, by omega⟩, rfl⟩

/-- What is mentioned inside a site is reached from it, over the nested expressions around it. -/
theorem reach_of_mem_terms {start : List Site} {id : TermId}
    (hid : Site.isReserved (.term id) = false) : ∀ {site : Site} {as : List (List Operand)},
    Reach d.successors start site → d.alternativesAt site = some as →
    id ∈ (Expr.mk as).terms → Reach d.successors start (.term id) := by
  intro site as
  induction hcount : Operand.nestedCountAlternatives as using Nat.strongRecOn
    generalizing site as with
  | ind count ih =>
    intro hreach has hmem
    rcases List.mem_append.mp hmem with hlevel | hinner
    · exact hreach.step (mem_successors.mpr
        ⟨as, has, (Site.term_mem_mentions 0 as.flatten).mpr hlevel, hid⟩)
    · obtain ⟨bs, hbs, hmem⟩ := Operand.mem_innerTermsAlternatives.mp hinner
      obtain ⟨k, hk⟩ := List.mem_iff_getElem?.mp hbs
      have hnested : d.alternativesAt (.nested site k) = some bs := by
        rw [alternativesAt, has, Option.bind_some, hk]
      have hstep : Site.nested site k ∈ d.successors site :=
        nested_mem_successors_iff.mpr ⟨rfl, Option.isSome_iff_exists.mpr ⟨bs, hnested⟩⟩
      exact ih _ (hcount ▸ Operand.nestedCount_lt_of_mem_levelNested hbs) rfl (hreach.step hstep)
        hnested hmem

/-- A nonterminal is not reserved. -/
theorem WellFormed.not_reserved (hd : d.WellFormed) {id : TermId} {t : Term}
    (ht : d.terms[id]? = some t) (hterm : t.isTerminal = false) :
    Site.isReserved (.term id) = false := by
  refine Bool.eq_false_iff.mpr fun hreserved => ?_
  have hterminal : t.isTerminal = true := by
    rcases Bool.or_eq_true_iff.mp hreserved with hid | hid
    · obtain rfl := Site.term.inj (eq_of_beq hid)
      obtain ⟨t', ht', hkind, -⟩ := hd.eof
      obtain rfl := Option.some.inj (ht'.symm.trans ht)
      exact hkind
    · obtain rfl := Site.term.inj (eq_of_beq hid)
      obtain ⟨t', ht', hkind⟩ := hd.empty
      obtain rfl := Option.some.inj (ht'.symm.trans ht)
      exact hkind
  exact Bool.false_ne_true (hterm.symm.trans hterminal)

/-- **A term is reached over sites iff rules lead to it**, but for the two that are left out. -/
theorem WellFormed.reach_iff_reaches (hd : d.WellFormed) {id : TermId}
    (hid : Site.isReserved (.term id) = false) :
    Reach d.successors [.term root] (.term id) ↔ d.Reaches root id := by
  constructor
  · exact reaches_owner
  · intro h
    induction h with
    | refl => exact Reach.of_mem (List.mem_singleton_self _)
    | tail _ hstep ih =>
      -- The rule that mentions it belongs to a nonterminal, and that is not left out.
      obtain ⟨u, e, hu, huterm, hrule, hmem⟩ := hstep
      refine reach_of_mem_terms hid (ih (hd.not_reserved hu huterm)) ?_ hmem
      exact alternativesIn_eq_some_iff.mpr ⟨u, hu, huterm, hrule⟩

/-- Only what stands in a rule is reached. -/
theorem isSome_of_reach_nested {site : Site} {k : Nat}
    (h : Reach d.successors [.term root] (.nested site k)) :
    (d.alternativesAt (.nested site k)).isSome = true := by
  obtain ⟨start, hstart, hpath⟩ := h
  obtain rfl := List.mem_singleton.mp hstart
  cases hpath with
  | tail _ hstep => exact (nested_mem_successors_iff.mp hstep).2

/-- Inside a rule that is reached, every nested expression is. -/
theorem reach_of_owner {start : List Site} {site : Site}
    (hsome : (d.alternativesAt site).isSome = true)
    (howner : Reach d.successors start (.term site.owner)) : Reach d.successors start site := by
  induction site with
  | term id => exact howner
  | nested site k ih =>
    obtain ⟨bs, hbs⟩ := Option.isSome_iff_exists.mp hsome
    obtain ⟨as, has, -⟩ := Option.bind_eq_some_iff.mp hbs
    have hsite := ih (Option.isSome_iff_exists.mpr ⟨as, has⟩) howner
    exact hsite.step (nested_mem_successors_iff.mpr ⟨rfl, hsome⟩)

/-- **A nested expression is reached over sites iff rules lead to its owner.** -/
theorem WellFormed.reach_nested_iff (hd : d.WellFormed) {site : Site} {k : Nat}
    (hsome : (d.alternativesAt (.nested site k)).isSome = true) :
    Reach d.successors [.term root] (.nested site k) ↔ d.Reaches root site.owner := by
  refine ⟨reaches_owner, fun h => reach_of_owner hsome ?_⟩
  obtain ⟨as, has⟩ := Option.isSome_iff_exists.mp hsome
  obtain ⟨t, -, ht, hterm, -⟩ := exists_rule_of_alternativesAt has
  exact (hd.reach_iff_reaches (hd.not_reserved ht hterm)).mpr h

end Definition

end Lalr

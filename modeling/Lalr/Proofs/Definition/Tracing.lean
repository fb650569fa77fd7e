import Lalr.Proofs.Definition.Collection
import Lalr.Proofs.Definition.Sites

/-!
# Collection walks over sites

Collection rewrites the rules it walks over: a visit turns the nested expressions of a rule into
new terms, which are found and visited in their turn. Still every term of a collection has an
**origin** in the definition as it was written: a term of the definition is its own, and a lifted
term comes from a nested expression. Read by origins, the walk is breadth-first discovery over the
sites of the definition.

* `Traced`: origins tell terms apart, a term that waits for its visit has the alternatives of its
  origin, and a visited one mentions what they mention (`Settled`). A visit keeps this, and finds
  the successors of the origin (**`Traced.visit`**).
* **`WellFormed.traced_collect`**: everything found has been visited, and by their origins the terms
  found are what discovery lists.
* `unruledIn`: a nonterminal without a rule stays as it is, and lifting makes none.
-/

namespace Lalr

/-! ## Lifting -/

namespace Lifting

theorem sequence_append : ∀ (s s' : List Operand) (l : Lifting),
    l.sequence (s ++ s') =
      (((l.sequence s).1.sequence s').1, (l.sequence s).2 ++ ((l.sequence s).1.sequence s').2)
  | [], _, _ => rfl
  | o :: rest, s', l => by
    have hrest := sequence_append rest s' (l.operand o).1
    simp only [List.cons_append, sequence, hrest]

/-- Alternatives are lifted like one sequence. -/
theorem sequence_flatten : ∀ (as : List (List Operand)) (l : Lifting),
    l.sequence as.flatten = ((l.alternatives as).1, (l.alternatives as).2.flatten)
  | [], _ => rfl
  | s :: rest, l => by
    rw [List.flatten_cons, sequence_append, sequence_flatten rest (l.sequence s).1]
    rfl

/-- The new terms have the alternatives of the nested expressions, one by one. -/
theorem alternativesIn_sequence : ∀ (s : List Operand) (l : Lifting) (k : Nat),
    alternativesIn (l.sequence s).1.terms (l.terms.length + k) =
      (s.filterMap Operand.nested?)[k]?
  | [], l, k => by
    show alternativesIn l.terms (l.terms.length + k) = none
    rw [alternativesIn, List.getElem?_eq_none (Nat.le_add_right _ _)]
    rfl
  | .term id :: rest, l, k => alternativesIn_sequence rest l k
  | .hint mark :: rest, l, k => alternativesIn_sequence rest l k
  | .nested as :: rest, l, k => by
    have hlen : (l.lift as).1.terms.length = l.terms.length + 1 := List.length_append
    show alternativesIn ((l.lift as).1.sequence rest).1.terms _ =
      (as :: rest.filterMap Operand.nested?)[k]?
    cases k with
    | zero =>
      -- What comes later leaves the first new term as it is.
      obtain ⟨more, hmore⟩ := sequence_extends rest (l.lift as).1
      rw [alternativesIn, ← hmore, List.getElem?_append_left (by omega), Nat.add_zero]
      show Option.bind ((l.terms ++ [_])[l.terms.length]?) _ = some as
      rw [List.getElem?_concat_length]
      rfl
    | succ k =>
      rw [List.getElem?_cons_succ, ← alternativesIn_sequence rest (l.lift as).1 k, hlen,
        Nat.add_right_comm, Nat.add_assoc]

/-- What a lifted sequence mentions, by origins. -/
theorem map_sequence {origin : TermId → Site} (site : Site) :
    ∀ (s : List Operand) (l : Lifting) (number : Nat),
      (∀ x ∈ s.filterMap Operand.term?, origin x = .term x) →
      (∀ k, origin (l.terms.length + k) = .nested site (number + k)) →
      ((l.sequence s).2.filterMap Operand.term?).map origin = site.mentions number s
  | [], _, _, _, _ => rfl
  | .term id :: rest, l, number, hold, hnew => by
    show origin id :: ((l.sequence rest).2.filterMap Operand.term?).map origin = _
    have hrest := map_sequence site rest l number
      (fun x hx => hold x (List.mem_cons_of_mem id hx)) hnew
    rw [hrest, hold id List.mem_cons_self]
    rfl
  | .hint mark :: rest, l, number, hold, hnew => map_sequence site rest l number hold hnew
  | .nested as :: rest, l, number, hold, hnew => by
    show origin l.terms.length :: (((l.lift as).1.sequence rest).2.filterMap Operand.term?).map
      origin = _
    have hrest := map_sequence site rest (l.lift as).1 (number + 1) hold fun k => by
      have hlen : (l.lift as).1.terms.length + k = l.terms.length + (k + 1) := by
        rw [show (l.lift as).1.terms.length = l.terms.length + 1 from List.length_append]
        omega
      rw [hlen, hnew (k + 1), Nat.add_right_comm number 1 k, Nat.add_assoc]
    have hfirst : origin l.terms.length = .nested site number := hnew 0
    rw [hrest, hfirst]
    rfl

end Lifting

/-! ## Nonterminals without a rule -/

/-- The term, if it is a nonterminal without a rule. -/
def unruledIn (terms : List Term) (id : TermId) : Option Term :=
  terms[id]?.filter fun t => !t.isTerminal && t.rule.isNone

theorem unruledIn_eq_some_iff {terms : List Term} {id : TermId} {t : Term} :
    unruledIn terms id = some t ↔ terms[id]? = some t ∧ t.isTerminal = false ∧ t.rule = none := by
  simp [unruledIn, Option.filter_eq_some_iff]

theorem unruledIn_of_length_le {terms : List Term} {id : TermId} (h : terms.length ≤ id) :
    unruledIn terms id = none := by
  rw [unruledIn, List.getElem?_eq_none h]
  rfl

namespace Lifting

theorem unruledIn_operand (l : Lifting) (o : Operand) (id : TermId) :
    unruledIn (l.operand o).1.terms id = unruledIn l.terms id := by
  cases o with
  | term _ => rfl
  | hint _ => rfl
  | nested as =>
    show unruledIn (l.terms ++ [_]) id = _
    by_cases hlt : id < l.terms.length
    · rw [unruledIn, List.getElem?_append_left hlt, unruledIn]
    · have hle := Nat.not_lt.mp hlt
      rw [unruledIn_of_length_le hle, unruledIn, List.getElem?_append_right hle]
      cases id - l.terms.length <;> rfl

theorem unruledIn_sequence : ∀ (s : List Operand) (l : Lifting) (id : TermId),
    unruledIn (l.sequence s).1.terms id = unruledIn l.terms id
  | [], _, _ => rfl
  | o :: rest, l, id => (unruledIn_sequence rest _ id).trans (unruledIn_operand l o id)

end Lifting

namespace Collection

variable {d : Definition} {root : TermId} {onHint : Hint → Bool} {c : Collection}
  {visited : List TermId} {origin : TermId → Site}

/-- A visit gives no term a rule that had none, and makes no term without. -/
theorem unruledIn_visit (c : Collection) (id j : TermId) :
    unruledIn (c.visit id).terms j = unruledIn c.terms j := by
  by_cases hrule : ∃ t e, c.terms[id]? = some t ∧ t.isTerminal = false ∧ t.rule = some e
  · obtain ⟨t, e, ht, hterm, he⟩ := hrule
    have hlift : unruledIn (c.lifting.alternatives e.alternatives).1.terms j =
        unruledIn c.terms j := by
      have hflat := Lifting.unruledIn_sequence e.alternatives.flatten c.lifting j
      rwa [Lifting.sequence_flatten] at hflat
    rw [← hlift, visit_terms ht hterm he]
    by_cases hj : j = id
    · subst hj
      -- The visited term has a rule before and after.
      have hbefore : (c.lifting.alternatives e.alternatives).1.terms[j]? = some t := by
        obtain ⟨more, hmore⟩ := Lifting.alternatives_extends e.alternatives c.lifting
        rw [← hmore]
        exact (List.getElem?_append_left (List.getElem?_eq_some_iff.mp ht).1).trans ht
      simp [unruledIn, Option.filter_some, hbefore, he]
    · rw [unruledIn, List.getElem?_modify_ne _ _ (Ne.symm hj), unruledIn]
  · rw [visit_eq_self fun t e ht hterm he => hrule ⟨t, e, ht, hterm, he⟩]

theorem unruledIn_visitFrom (j : TermId) : ∀ (fuel cursor : Nat) (c : Collection),
    unruledIn (c.visitFrom fuel cursor).terms j = unruledIn c.terms j
  | 0, _, _ => rfl
  | fuel + 1, cursor, c => by
    unfold visitFrom
    split
    · rfl
    · rw [unruledIn_visitFrom j fuel (cursor + 1), unruledIn_visit]

/-! ## Origins -/

/-- By origins, the rule of the term mentions what the alternatives of its own origin do. -/
def Settled (d : Definition) (origin : TermId → Site) (c : Collection) (id : TermId) : Prop :=
  ∀ as, d.alternativesAt (origin id) = some as →
    ∃ flat, alternativesIn c.terms id = some flat ∧
      (Operand.levelTerms flat).map origin = (origin id).mentions 0 as.flatten

/-- The terms have their origins in the definition. Those that wait for their visit have the
alternatives that stand there, and the visited ones mention what these do. Only the augmented root
is set up for its visit. -/
structure Traced (d : Definition) (visited : List TermId) (origin : TermId → Site)
    (c : Collection) : Prop where
  own     : ∀ i < d.terms.length, origin i = .term i
  lifted  : ∀ i < c.terms.length, d.terms.length ≤ i →
    ∃ j ∈ visited, j < c.terms.length ∧ ∃ k, origin i = .nested (origin j) k
  inj     : ∀ i < c.terms.length, ∀ j < c.terms.length, origin i = origin j → i = j
  waiting : ∀ i < c.terms.length, i ∉ visited →
    alternativesIn c.terms i = d.alternativesAt (origin i)
  bound   : ∀ i ∈ visited, i < c.terms.length
  settled : ∀ i ∈ visited, i ≠ TermId.root → Settled d origin c i

/-- The origins after the visit to `id`: the new terms come from its nested expressions. -/
def originAfter (c : Collection) (origin : TermId → Site) (id i : TermId) : Site :=
  if i < c.terms.length then origin i else .nested (origin id) (i - c.terms.length)

theorem originAfter_of_lt {id i : TermId} (h : i < c.terms.length) :
    originAfter c origin id i = origin i := if_pos h

theorem originAfter_add (id : TermId) (k : Nat) :
    originAfter c origin id (c.terms.length + k) = .nested (origin id) k := by
  rw [originAfter, if_neg (Nat.not_lt.mpr (Nat.le_add_right _ k)), Nat.add_sub_cancel_left]

/-- What comes from a nested expression has its parent visited. -/
theorem Traced.exists_visited (h : Traced d visited origin c) {i : TermId}
    (hi : i < c.terms.length) {site : Site} {k : Nat} (hsite : origin i = .nested site k) :
    ∃ j ∈ visited, j < c.terms.length ∧ origin j = site := by
  by_cases hown : i < d.terms.length
  · exact absurd ((h.own i hown).symm.trans hsite) Site.noConfusion
  · obtain ⟨j, hj, hlt, k', hk'⟩ := h.lifted i hi (Nat.not_lt.mp hown)
    exact ⟨j, hj, hlt, (Site.nested.inj (hk'.symm.trans hsite)).1⟩

section Visit

variable {id : TermId} {t : Term} {e : Expr} {new : List Term} {flat : List (List Operand)}

/-- A visit makes terms of the nested expressions. -/
theorem alternativesIn_visit (ht : c.terms[id]? = some t) (hterm : t.isTerminal = false)
    (he : t.rule = some e) (k : Nat) :
    alternativesIn (c.visit id).terms (c.terms.length + k) =
      (Operand.levelNested e.alternatives)[k]? := by
  have hlt : id < c.terms.length := (List.getElem?_eq_some_iff.mp ht).1
  have hflat := Lifting.alternativesIn_sequence e.alternatives.flatten c.lifting k
  rw [Lifting.sequence_flatten] at hflat
  rw [alternativesIn, visit_terms ht hterm he,
    List.getElem?_modify_ne _ _ (Nat.ne_of_lt (Nat.lt_add_right k hlt))]
  exact hflat

theorem Traced.alternativesAt_eq (h : Traced d visited origin c)
    (v : Visit onHint c (c.visit id) id t e new flat) (hid : id ∉ visited) :
    d.alternativesAt (origin id) = some e.alternatives := by
  rw [← h.waiting id (List.getElem?_eq_some_iff.mp v.before).1 hid]
  exact alternativesIn_eq_some_iff.mpr ⟨t, v.before, v.kind, v.rule⟩

/-- What a visit finds, by origins, is what the alternatives of its site mention. -/
theorem Traced.map_levelTerms (h : Traced d visited origin c) (hd : d.WellFormed)
    (hlen : d.terms.length ≤ c.terms.length)
    (v : Visit onHint c (c.visit id) id t e new flat) (hid : id ∉ visited) :
    (Operand.levelTerms (c.lifting.alternatives e.alternatives).2).map (originAfter c origin id) =
      (origin id).mentions 0 e.alternatives.flatten := by
  have hevery := hd.every_of_alternativesAt (h.alternativesAt_eq v hid)
  have hold : ∀ x ∈ e.alternatives.flatten.filterMap Operand.term?,
      originAfter c origin id x = .term x := by
    intro x hx
    have hlt := (Definition.isUsable_iff.mp (onTerm_of_mem_levelTerms hevery hx)).1
    rw [originAfter_of_lt (Nat.lt_of_lt_of_le hlt hlen)]
    exact h.own x hlt
  have hnew : ∀ k, originAfter c origin id (c.lifting.terms.length + k) =
      .nested (origin id) (0 + k) := by
    intro k
    rw [Nat.zero_add]
    exact originAfter_add id k
  have hmap := Lifting.map_sequence (origin id) e.alternatives.flatten c.lifting 0 hold hnew
  rwa [Lifting.sequence_flatten] at hmap

/-- A settled rule stays as it is, and so do the origins of what it mentions. -/
theorem Settled.of_visit {i : TermId} (h : Settled d origin c i) (hwalk : Walk d root onHint c)
    (v : Visit onHint c (c.visit id) id t e new flat) (hi : i < c.terms.length) (hne : i ≠ id) :
    Settled d (originAfter c origin id) (c.visit id) i := by
  intro as has
  rw [originAfter_of_lt hi] at has
  obtain ⟨flat, hflat, hmap⟩ := h as has
  refine ⟨flat, by rw [alternativesIn, v.getElem?_other hi hne]; exact hflat, ?_⟩
  rw [originAfter_of_lt hi, ← hmap]
  refine List.map_congr_left fun x hx => originAfter_of_lt ?_
  obtain ⟨u, hu, -, hrule⟩ := alternativesIn_eq_some_iff.mp hflat
  have hevery := hwalk.rules u (List.mem_of_getElem? hu) _ hrule
  exact (usable_iff.mp (onTerm_of_mem_levelTerms hevery hx)).1

/-- **A visit keeps the origins.** -/
theorem Traced.of_visit (h : Traced d visited origin c) (hwalk : Walk d root onHint c)
    (hd : d.WellFormed)
    (v : Visit onHint c (c.visit id) id t e new (c.lifting.alternatives e.alternatives).2)
    (hid : id ∉ visited) :
    Traced d (id :: visited) (originAfter c origin id) (c.visit id) := by
  have hlen := hwalk.terms_length_le
  have hlt : id < c.terms.length := (List.getElem?_eq_some_iff.mp v.before).1
  have hgrow : c.terms.length ≤ (c.visit id).terms.length := Nat.le.intro v.length_eq.symm
  -- A nested expression of `id` was not lifted before.
  have hfresh : ∀ i < c.terms.length, ∀ k, origin i ≠ .nested (origin id) k := by
    intro i hi k hik
    obtain ⟨j, hj, hjlt, hsame⟩ := h.exists_visited hi hik
    exact hid (h.inj j hjlt id hlt hsame ▸ hj)
  have hcases : ∀ i, i < c.terms.length ∨ ∃ k, i = c.terms.length + k := by
    intro i
    rcases Nat.lt_or_ge i c.terms.length with hi | hi
    · exact Or.inl hi
    · exact Or.inr ⟨_, (Nat.add_sub_cancel' hi).symm⟩
  constructor
  case own =>
    intro i hi
    rw [originAfter_of_lt (Nat.lt_of_lt_of_le hi hlen)]
    exact h.own i hi
  case lifted =>
    intro i _ hown
    rcases hcases i with hi | ⟨k, rfl⟩
    · obtain ⟨j, hj, hjlt, k, hk⟩ := h.lifted i hi hown
      refine ⟨j, List.mem_cons_of_mem id hj, Nat.lt_of_lt_of_le hjlt hgrow, k, ?_⟩
      rw [originAfter_of_lt hi, originAfter_of_lt hjlt, hk]
    · refine ⟨id, List.mem_cons_self, Nat.lt_of_lt_of_le hlt hgrow, k, ?_⟩
      rw [originAfter_add, originAfter_of_lt hlt]
  case inj =>
    intro i _ j _ hij
    rcases hcases i with hi | ⟨k, rfl⟩ <;> rcases hcases j with hj | ⟨m, rfl⟩
    · rw [originAfter_of_lt hi, originAfter_of_lt hj] at hij
      exact h.inj i hi j hj hij
    · rw [originAfter_of_lt hi, originAfter_add] at hij
      exact absurd hij (hfresh i hi m)
    · rw [originAfter_of_lt hj, originAfter_add] at hij
      exact absurd hij.symm (hfresh j hj k)
    · rw [originAfter_add, originAfter_add] at hij
      rw [(Site.nested.inj hij).2]
  case waiting =>
    intro i _ hi
    rw [List.mem_cons, not_or] at hi
    rcases hcases i with hilt | ⟨k, rfl⟩
    · rw [originAfter_of_lt hilt, alternativesIn, v.getElem?_other hilt hi.1]
      exact h.waiting i hilt hi.2
    · rw [originAfter_add, alternativesIn_visit v.before v.kind v.rule, Definition.alternativesAt,
        h.alternativesAt_eq v hid]
      rfl
  case bound =>
    intro i hi
    rcases List.mem_cons.mp hi with rfl | hi
    · exact Nat.lt_of_lt_of_le hlt hgrow
    · exact Nat.lt_of_lt_of_le (h.bound i hi) hgrow
  case settled =>
    intro i hi hne
    rcases List.mem_cons.mp hi with rfl | hi
    · intro as has
      rw [originAfter_of_lt hlt, h.alternativesAt_eq v hid] at has
      obtain rfl := Option.some.inj has
      refine ⟨_, alternativesIn_eq_some_iff.mpr ⟨_, v.getElem?_self, v.kind, rfl⟩, ?_⟩
      rw [h.map_levelTerms hd hlen v hid, originAfter_of_lt hlt]
    · have hne' : i ≠ id := fun hsame => hid (hsame ▸ hi)
      exact (h.settled i hi hne).of_visit hwalk v (h.bound i hi) hne'

end Visit

/-- A term of the definition is the origin of itself only. -/
theorem Traced.origin_eq_term_iff (h : Traced d visited origin c)
    (hlen : d.terms.length ≤ c.terms.length) {i j : TermId} (hi : i < c.terms.length)
    (hj : j < d.terms.length) : origin i = .term j ↔ i = j := by
  rw [← h.own j hj]
  exact ⟨h.inj i hi j (Nat.lt_of_lt_of_le hj hlen), fun hij => hij ▸ rfl⟩

theorem Traced.isReserved_origin (h : Traced d visited origin c) (hd : d.WellFormed)
    (hlen : d.terms.length ≤ c.terms.length) {i : TermId} (hi : i < c.terms.length) :
    (origin i).isReserved = true ↔ i = TermId.eof ∨ i = TermId.empty := by
  have hthree := hd.three_le_length
  have heof := h.origin_eq_term_iff hlen hi (Nat.lt_of_lt_of_le (by decide : TermId.eof < 3) hthree)
  have hempty :=
    h.origin_eq_term_iff hlen hi (Nat.lt_of_lt_of_le (by decide : TermId.empty < 3) hthree)
  rw [Site.isReserved, Bool.or_eq_true, beq_iff_eq, beq_iff_eq, heof, hempty]

/-- The terms a visit finds, but for those that were found at the start. -/
def mentioned (c : Collection) (e : Expr) : List TermId :=
  ((Operand.levelTerms (c.lifting.alternatives e.alternatives).2).filter
    (· != TermId.empty)).filter fun x => x ∉ [TermId.eof, TermId.root]

theorem Traced.map_mentioned (h : Traced d visited origin c) (hwalk : Walk d root onHint c)
    (hd : d.WellFormed) {id : TermId} {t : Term} {e : Expr} {new : List Term}
    (v : Visit onHint c (c.visit id) id t e new (c.lifting.alternatives e.alternatives).2)
    (hid : id ∉ visited) :
    (c.mentioned e).map (originAfter c origin id) = d.successors (origin id) := by
  have hlen := hwalk.terms_length_le
  rw [Definition.successors_of_some (h.alternativesAt_eq v hid),
    ← h.map_levelTerms hd hlen v hid, List.filter_map, mentioned, List.filter_filter]
  congr 1
  refine List.filter_congr fun x hx => ?_
  -- Only reserved terminals have reserved origins, and no rule mentions the augmented root.
  obtain ⟨hlt, hroot⟩ := usable_iff.mp (onTerm_of_mem_levelTerms v.every hx)
  have hgrow : d.terms.length ≤ (c.visit id).terms.length := by
    rw [v.length_eq]
    exact Nat.le_add_right_of_le hlen
  have hreserved := (h.of_visit hwalk hd v hid).isReserved_origin hd hgrow hlt
  rw [Bool.eq_iff_iff, Function.comp_apply, Bool.not_eq_true', ← Bool.not_eq_true, hreserved]
  simp [hroot]

/-- A term counts as visited if there is nothing to visit. -/
theorem Traced.visited_of_none (h : Traced d visited origin c) {id : TermId}
    (hid : id < c.terms.length) (hnone : d.alternativesAt (origin id) = none) :
    Traced d (id :: visited) origin c := by
  refine ⟨h.own, ?_, h.inj, ?_, ?_, ?_⟩
  · intro i hi hown
    obtain ⟨j, hj, hrest⟩ := h.lifted i hi hown
    exact ⟨j, List.mem_cons_of_mem id hj, hrest⟩
  · exact fun i hi hnot => h.waiting i hi fun hmem => hnot (List.mem_cons_of_mem id hmem)
  · intro i hi
    rcases List.mem_cons.mp hi with rfl | hi
    · exact hid
    · exact h.bound i hi
  · intro i hi hne
    rcases List.mem_cons.mp hi with rfl | hi
    · exact fun as has => absurd (hnone.symm.trans has) (Option.some_ne_none as).symm
    · exact h.settled i hi hne

/-- **A visit finds the successors of the origin**, and keeps the origins. -/
theorem Traced.visit (h : Traced d visited origin c) (hwalk : Walk d root onHint c)
    (hd : d.WellFormed) {ids : List TermId} (hfound : c.found = TermId.eof :: TermId.root :: ids)
    {id : TermId} (hid : id ∈ ids) (hnew : id ∉ visited) :
    ∃ origin' ids', Traced d (id :: visited) origin' (c.visit id) ∧
      (c.visit id).found = TermId.eof :: TermId.root :: ids' ∧
      ids'.map origin' = appendNew (ids.map origin) (d.successors (origin id)) := by
  have hbound : ∀ x ∈ ids, x < c.terms.length := by
    intro x hx
    refine (hwalk.bound x ?_).1
    rw [hfound]
    exact List.mem_cons_of_mem _ (List.mem_cons_of_mem _ hx)
  by_cases hrule : ∃ t e, c.terms[id]? = some t ∧ t.isTerminal = false ∧ t.rule = some e
  · obtain ⟨t, e, ht, hterm, he⟩ := hrule
    obtain ⟨new, v⟩ := hwalk.visit_spec hd ht hterm he
    have htraced := h.of_visit hwalk hd v hnew
    have hfound' : (c.visit id).found =
        TermId.eof :: TermId.root :: appendNew ids (c.mentioned e) := by
      rw [v.found, hfound]
      exact appendNew_append [TermId.eof, TermId.root] ids _
    have hbound' : ∀ x ∈ ids ++ c.mentioned e, x < (c.visit id).terms.length := by
      intro x hx
      refine ((hwalk.visit hd (hbound id hid)).1.bound x ?_).1
      rw [hfound']
      exact List.mem_cons_of_mem _ (List.mem_cons_of_mem _
        (mem_appendNew.mpr (List.mem_append.mp hx)))
    have hold : ids.map (originAfter c origin id) = ids.map origin :=
      List.map_congr_left fun x hx => originAfter_of_lt (hbound x hx)
    refine ⟨_, _, htraced, hfound', ?_⟩
    rw [map_appendNew fun x hx y hy => htraced.inj x (hbound' x hx) y (hbound' y hy), hold,
      h.map_mentioned hwalk hd v hnew]
  · have hsame : c.visit id = c := visit_eq_self fun t e ht hterm he => hrule ⟨t, e, ht, hterm, he⟩
    have hnone : d.alternativesAt (origin id) = none := by
      rw [← h.waiting id (hbound id hid) hnew, Option.eq_none_iff_forall_ne_some]
      intro as has
      obtain ⟨t, ht, hterm, he⟩ := alternativesIn_eq_some_iff.mp has
      exact hrule ⟨t, _, ht, hterm, he⟩
    rw [hsame, Definition.successors_of_none hnone]
    exact ⟨origin, ids, h.visited_of_none (hbound id hid) hnone, hfound, rfl⟩

/-! ## The whole walk -/

/-- The walk is discovery over sites, from any moment on that has the augmented root behind it. -/
theorem Traced.visitFrom (hd : d.WellFormed) : ∀ (fuel cursor : Nat) {c : Collection}
    {visited : List TermId} {origin : TermId → Site} {ids : List TermId},
    Walk d root onHint c → Traced d visited origin c →
    c.found = TermId.eof :: TermId.root :: ids →
    (∀ j, j ∈ visited ↔ j ∈ c.found.take (cursor + 2)) →
    d.terms.length + d.nestedCount ≤ fuel + (cursor + 2) →
    ∃ visited' origin' ids', Traced d visited' origin' (c.visitFrom fuel (cursor + 2)) ∧
      (c.visitFrom fuel (cursor + 2)).found = TermId.eof :: TermId.root :: ids' ∧
      (∀ j, j ∈ visited' ↔ j ∈ (c.visitFrom fuel (cursor + 2)).found) ∧
      Discovers d.successors cursor (ids.map origin) (ids'.map origin')
  | 0, cursor, c, visited, origin, ids, hwalk, h, hfound, hvisited, hfuel => by
    have hle := hwalk.found_le
    rw [List.take_of_length_le (by omega)] at hvisited
    rw [hfound, List.length_cons, List.length_cons] at hle
    refine ⟨visited, origin, ids, h, hfound, hvisited, .done ?_⟩
    rw [List.getElem?_eq_none_iff, List.length_map]
    omega
  | fuel + 1, cursor, c, visited, origin, ids, hwalk, h, hfound, hvisited, hfuel => by
    have hcursor : c.found[cursor + 2]? = ids[cursor]? := by rw [hfound]; rfl
    unfold Collection.visitFrom
    cases hget : ids[cursor]? with
    | none =>
      have hend : c.found.length ≤ cursor + 2 := List.getElem?_eq_none_iff.mp (hcursor.trans hget)
      rw [List.take_of_length_le hend] at hvisited
      rw [hcursor, hget]
      refine ⟨visited, origin, ids, h, hfound, hvisited, .done ?_⟩
      rw [List.getElem?_map, hget]
      rfl
    | some id =>
      rw [hcursor, hget]
      rw [hget] at hcursor
      have hmem : id ∈ ids := List.mem_of_getElem? hget
      have hin : cursor + 2 < c.found.length := (List.getElem?_eq_some_iff.mp hcursor).1
      have hdrop : (c.found.drop (cursor + 2))[0]? = some id := by
        rw [List.getElem?_drop]
        exact hcursor
      have hnew : id ∉ visited := fun hid =>
        List.disjoint_take_drop hwalk.nodup (Nat.le_refl _) ((hvisited id).mp hid)
          (List.mem_of_getElem? hdrop)
      obtain ⟨origin', ids', h', hfound', hmap⟩ := h.visit hwalk hd hfound hmem hnew
      have hid := (hwalk.bound id (List.mem_of_getElem? hcursor)).1
      obtain ⟨hwalk', -, -, more, hmore⟩ := hwalk.visit hd hid
      have hvisited' : ∀ j, j ∈ id :: visited ↔ j ∈ (c.visit id).found.take (cursor + 1 + 2) := by
        intro j
        rw [hmore, List.take_append_of_le_length hin, List.take_add_one, hcursor, List.mem_append,
          ← hvisited j, List.mem_cons, or_comm]
        exact or_congr_right List.mem_singleton.symm
      obtain ⟨visited'', origin'', ids'', h'', hfound'', hall, hdiscovers⟩ :=
        Traced.visitFrom hd fuel (cursor + 1) hwalk' h' hfound' hvisited' (by omega)
      rw [hmap] at hdiscovers
      have hnext : (ids.map origin)[cursor]? = some (origin id) := by
        rw [List.getElem?_map, hget]
        rfl
      exact ⟨visited'', origin'', ids'', h'', hfound'', hall, .visit hnext hdiscovers⟩

/-- The end of input is a terminal, so nothing happens at its visit. -/
theorem visit_start_eof (hd : d.WellFormed) (hroot : d.root = some root) :
    (start d root).visit TermId.eof = start d root := by
  obtain ⟨e, he, hekind, -⟩ := hd.eof
  obtain ⟨e', he', hekind', -⟩ := (walk_start hd hroot hd.rules).kept _ e he
  refine visit_eq_self fun u _ hu hterm _ => ?_
  obtain rfl := Option.some.inj (he'.symm.trans hu)
  rw [hekind', hekind] at hterm
  exact Bool.false_ne_true hterm.symm

/-- The visit to the augmented root lifts nothing. -/
theorem exists_visit_root (hd : d.WellFormed) (hroot : d.root = some root) :
    ∃ t new, Visit (fun _ => true) (start d root) ((start d root).visit TermId.root) TermId.root t
        (Expr.term root) new
        ((start d root).lifting.alternatives (Expr.term root).alternatives).2 ∧
      ((start d root).visit TermId.root).terms.length = d.terms.length := by
  have hwalk := walk_start hd hroot hd.rules
  obtain ⟨a, ha, hakind⟩ := hd.augmented
  obtain ⟨a', ha', hakind', -⟩ := hwalk.kept _ a ha
  obtain ⟨t, ht, hrule⟩ := hwalk.root_rule
  obtain rfl : a' = t := Option.some.inj (ha'.symm.trans ht)
  obtain ⟨new, v⟩ := hwalk.visit_spec hd ht (hakind'.trans hakind) hrule
  refine ⟨a', new, v, ?_⟩
  have hcount : new.length + total (new.map Term.nestedCount) = 0 := v.lifted.count
  have haugment : (start d root).terms.length = d.terms.length := length_augment
  have hvisit := v.length_eq
  omega

/-- The visit to the augmented root finds the root. -/
theorem found_visit_root (hd : d.WellFormed) (hroot : d.root = some root) :
    ((start d root).visit TermId.root).found = [TermId.eof, TermId.root, root] := by
  obtain ⟨t, new, v, -⟩ := exists_visit_root hd hroot
  obtain ⟨hne, r, hr, hrkind⟩ := hd.root root hroot
  obtain ⟨heof, hempty⟩ : root ≠ TermId.eof ∧ root ≠ TermId.empty := by
    simpa [Site.isReserved] using hd.not_reserved hr hrkind
  have hlevel : (Operand.levelTerms ((start d root).lifting.alternatives
      (Expr.term root).alternatives).2).filter (· != TermId.empty) = [root] := by
    show [root].filter (· != TermId.empty) = [root]
    simp [hempty]
  have hnew : root ∉ (start d root).found := by
    simp [start, heof, hne]
  rw [v.found, hlevel, appendNew_cons, if_neg hnew]
  rfl

/-- After the visit to the augmented root every term is its own origin. -/
theorem traced_visit_root (hd : d.WellFormed) (hroot : d.root = some root) :
    Traced d [TermId.eof, TermId.root] Site.term ((start d root).visit TermId.root) := by
  obtain ⟨t, new, v, hlen⟩ := exists_visit_root hd hroot
  constructor
  case own => exact fun _ _ => rfl
  case lifted =>
    intro i hi hle
    exact absurd (hlen ▸ hi) (Nat.not_lt.mpr hle)
  case inj => exact fun i _ j _ hij => Site.term.inj hij
  case waiting =>
    intro i hi hnot
    have hne : i ≠ TermId.root := fun h => hnot (h ▸ List.mem_cons_of_mem _ List.mem_cons_self)
    have hlt : i < (start d root).terms.length := by
      rw [hlen] at hi
      rwa [show (start d root).terms.length = d.terms.length from length_augment]
    have hget : ((start d root).visit TermId.root).terms[i]? = d.terms[i]? :=
      (v.getElem?_other hlt hne).trans (Definition.getElem?_augment hne)
    rw [alternativesIn, hget, Definition.alternativesAt, alternativesIn]
  case bound =>
    intro i hi
    have hthree := hd.three_le_length
    rw [hlen]
    rcases List.mem_pair.mp hi with rfl | rfl
    · exact Nat.lt_of_lt_of_le (by decide) hthree
    · exact Nat.lt_of_lt_of_le (by decide) hthree
  case settled =>
    intro i hi hne as has
    -- The end of input is a terminal, and the augmented root is left out.
    obtain rfl : i = TermId.eof := (List.mem_pair.mp hi).resolve_right hne
    obtain ⟨e, he, hekind, -⟩ := hd.eof
    obtain ⟨u, hu, hkind, -⟩ := alternativesIn_eq_some_iff.mp has
    obtain rfl := Option.some.inj (he.symm.trans hu)
    exact absurd (hkind.symm.trans hekind) Bool.false_ne_true

/-- The first two visits find the root, and lift nothing. -/
theorem traced_start (hd : d.WellFormed) (hroot : d.root = some root) :
    ∃ c : Collection, Walk d root (fun _ => true) c ∧
      Traced d [TermId.eof, TermId.root] Site.term c ∧
      c.found = [TermId.eof, TermId.root, root] ∧
      ∀ fuel, (start d root).visitFrom (fuel + 2) 0 = c.visitFrom fuel 2 := by
  have hwalk := walk_start hd hroot hd.rules
  obtain ⟨t, ht, -⟩ := hwalk.root_rule
  have hlt : TermId.root < (start d root).terms.length := (List.getElem?_eq_some_iff.mp ht).1
  refine ⟨_, (hwalk.visit hd hlt).1, traced_visit_root hd hroot, found_visit_root hd hroot, ?_⟩
  intro fuel
  calc (start d root).visitFrom (fuel + 2) 0
      = ((start d root).visit TermId.eof).visitFrom (fuel + 1) 1 := rfl
    _ = (start d root).visitFrom (fuel + 1) 1 := by rw [visit_start_eof hd hroot]
    _ = ((start d root).visit TermId.root).visitFrom fuel 2 := rfl

end Collection

namespace Definition

variable {d : Definition} {root : TermId}

/-- **Collection finds what discovery over sites does**, in the same order, and everything found has
been visited. -/
theorem WellFormed.traced_collect (hd : d.WellFormed) (hroot : d.root = some root) :
    ∃ visited origin ids, Collection.Traced d visited origin (d.collect root) ∧
      (d.collect root).found = TermId.eof :: TermId.root :: ids ∧
      (∀ j, j ∈ visited ↔ j ∈ (d.collect root).found) ∧
      Discovers d.successors 0 [.term root] (ids.map origin) := by
  obtain ⟨c, hwalk, htraced, hfound, hstart⟩ := Collection.traced_start hd hroot
  have hthree := hd.three_le_length
  obtain ⟨fuel, hfuel⟩ : ∃ fuel, d.terms.length + d.nestedCount = fuel + 2 :=
    ⟨d.terms.length + d.nestedCount - 2, by omega⟩
  have hcollect : d.collect root = c.visitFrom fuel 2 := by
    rw [← hstart, ← hfuel]
    rfl
  rw [hcollect]
  refine Collection.Traced.visitFrom hd fuel 0 hwalk htraced hfound ?_ (by omega)
  rw [hfound]
  exact fun j => Iff.rfl

end Definition

end Lalr

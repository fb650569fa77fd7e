import Mathlib.Data.List.Nodup
import Lalr.Proofs.Definition.Consistency
import Lalr.Proofs.Definition.Tracing

/-!
# Collection is exact

Collection walks over a list of terms that grows under it, and takes rules apart while it walks. It
comes to an end all the same, and lists what it should.

* **It ends.** `Collection.RunsTo` is the walk without any bound on its visits. It ends for every
  definition, however deep its rules are nested and whichever circles they lead in, and `collect` is
  what it ends with (**`WellFormed.runsTo_collect_iff`**).
* **It lists what the root reaches, each once** (`Collection.Exact`): the terminals, the
  nonterminals, and one more nonterminal for every nested expression in a rule of one of these.
  What a lifted term stands for is told by its origin, and its rule mentions what the nested
  expression does. The result is **`WellFormed.exact_collect`**.
* **What it does not find** among the declared terminals is listed by id
  (**`WellFormed.mem_unreachable_iff`**), for the log to name.
-/

namespace Lalr

/-! ## The walk ends -/

namespace Collection

variable {d : Definition} {root : TermId} {onHint : Hint → Bool} {c : Collection}

/-- The walk, run for as many visits as it takes, ends with the result. -/
inductive RunsTo : Nat → Collection → Collection → Prop
  | done {cursor : Nat} {c : Collection} (h : c.found[cursor]? = none) : RunsTo cursor c c
  | visit {cursor : Nat} {c result : Collection} {id : TermId} (h : c.found[cursor]? = some id)
      (hrest : RunsTo (cursor + 1) (c.visit id) result) : RunsTo cursor c result

theorem RunsTo.unique {cursor : Nat} {r r' : Collection} (h : RunsTo cursor c r)
    (h' : RunsTo cursor c r') : r = r' := by
  induction h with
  | done hend =>
    cases h' with
    | done _ => rfl
    | visit hsome _ => exact absurd (hend.symm.trans hsome) (Option.some_ne_none _).symm
  | visit hsome _ ih =>
    cases h' with
    | done hend => exact absurd (hend.symm.trans hsome) (Option.some_ne_none _).symm
    | visit hsome' hrest =>
      obtain rfl := Option.some.inj (hsome.symm.trans hsome')
      exact ih hrest

/-- Terms and nested expressions are never more than at the start, and no term is visited twice. -/
theorem Walk.runsTo (hd : d.WellFormed) : ∀ (fuel cursor : Nat) {c : Collection},
    Walk d root onHint c → d.terms.length + d.nestedCount ≤ fuel + cursor →
    RunsTo cursor c (c.visitFrom fuel cursor)
  | 0, cursor, c, h, hfuel => by
    have hle := h.found_le
    exact .done (List.getElem?_eq_none_iff.mpr (by omega))
  | fuel + 1, cursor, c, h, hfuel => by
    unfold Collection.visitFrom
    cases hcursor : c.found[cursor]? with
    | none => exact .done hcursor
    | some id =>
      have hid := (h.bound id (List.mem_of_getElem? hcursor)).1
      exact .visit hcursor (Walk.runsTo hd fuel (cursor + 1) (h.visit hd hid).1 (by omega))

end Collection

theorem Definition.WellFormed.runsTo_collect_iff {d : Definition} {root : TermId}
    (hd : d.WellFormed) (hroot : d.root = some root) {result : Collection} :
    Collection.RunsTo 0 (Collection.start d root) result ↔ result = d.collect root := by
  have hrun : Collection.RunsTo 0 (Collection.start d root) (d.collect root) :=
    Collection.Walk.runsTo hd _ 0 (Collection.walk_start hd hroot hd.rules) (Nat.le_refl _)
  exact ⟨fun h => h.unique hrun, fun h => h ▸ hrun⟩

/-! ## Terminals stay as they are -/

namespace Collection

variable {c : Collection} {j : TermId} {t : Term}

theorem getElem?_visit_of_terminal (hj : c.terms[j]? = some t) (hterm : t.isTerminal = true)
    (id : TermId) : (c.visit id).terms[j]? = some t := by
  by_cases hrule : ∃ u e, c.terms[id]? = some u ∧ u.isTerminal = false ∧ u.rule = some e
  · obtain ⟨u, e, hu, hkind, he⟩ := hrule
    have hne : id ≠ j := by
      rintro rfl
      obtain rfl := Option.some.inj (hu.symm.trans hj)
      exact Bool.false_ne_true (hkind.symm.trans hterm)
    obtain ⟨more, hmore⟩ := Lifting.alternatives_extends e.alternatives c.lifting
    have hlt : j < c.lifting.terms.length := (List.getElem?_eq_some_iff.mp hj).1
    rw [visit_terms hu hkind he, List.getElem?_modify_ne _ _ hne, ← hmore,
      List.getElem?_append_left hlt]
    exact hj
  · rw [visit_eq_self fun u e hu hkind he => hrule ⟨u, e, hu, hkind, he⟩]
    exact hj

theorem getElem?_visitFrom_of_terminal (hterm : t.isTerminal = true) :
    ∀ (fuel cursor : Nat) {c : Collection}, c.terms[j]? = some t →
      (c.visitFrom fuel cursor).terms[j]? = some t
  | 0, _, _, hj => hj
  | fuel + 1, cursor, c, hj => by
    unfold visitFrom
    split
    · exact hj
    · exact getElem?_visitFrom_of_terminal hterm fuel (cursor + 1)
        (getElem?_visit_of_terminal hj hterm _)

end Collection

namespace Definition

variable {d : Definition} {root id : TermId}

/-- The term is a terminal. -/
def IsTerminal (d : Definition) (id : TermId) : Prop :=
  ∃ t, d.terms[id]? = some t ∧ t.isTerminal = true

/-- The author declared the terminal: it is none of the reserved ones. -/
def IsDeclared (d : Definition) (id : TermId) : Prop :=
  d.IsTerminal id ∧ id ≠ TermId.eof ∧ id ≠ TermId.empty

/-- The site is a nonterminal, or a nested expression of a rule. -/
def IsNonterminal (d : Definition) : Site → Prop
  | .term id => ∃ t, d.terms[id]? = some t ∧ t.isTerminal = false
  | .nested site k => (d.alternativesAt (.nested site k)).isSome = true

theorem WellFormed.isTerminal_eof (hd : d.WellFormed) : d.IsTerminal TermId.eof := by
  obtain ⟨t, ht, hterm, -⟩ := hd.eof
  exact ⟨t, ht, hterm⟩

theorem WellFormed.not_isTerminal_root (hd : d.WellFormed) : ¬d.IsTerminal TermId.root := by
  rintro ⟨t, ht, hterm⟩
  obtain ⟨a, ha, hkind⟩ := hd.augmented
  obtain rfl := Option.some.inj (ha.symm.trans ht)
  exact Bool.false_ne_true (hkind.symm.trans hterm)

theorem IsTerminal.lt (h : d.IsTerminal id) : id < d.terms.length := by
  obtain ⟨t, ht, -⟩ := h
  exact (List.getElem?_eq_some_iff.mp ht).1

theorem WellFormed.getElem?_collect_of_terminal (hd : d.WellFormed) {t : Term}
    (ht : d.terms[id]? = some t) (hterm : t.isTerminal = true) :
    (d.collect root).terms[id]? = some t := by
  refine Collection.getElem?_visitFrom_of_terminal hterm _ 0 ?_
  have hne : id ≠ TermId.root := fun h => hd.not_isTerminal_root (h ▸ ⟨t, ht, hterm⟩)
  exact (getElem?_augment hne).trans ht

/-- Collecting makes no terminals. -/
theorem WellFormed.isTerminal_collect_iff (hd : d.WellFormed) (hroot : d.root = some root) :
    (d.collect root).isTerminal id = true ↔ d.IsTerminal id := by
  obtain ⟨hwalk, -⟩ := hd.walk_collect hroot hd.rules
  constructor
  · intro h
    obtain ⟨t, ht, hterm⟩ : ∃ t, (d.collect root).terms[id]? = some t ∧ t.isTerminal = true := by
      rw [Collection.isTerminal] at h
      cases ht : (d.collect root).terms[id]? with
      | none => simp [ht] at h
      | some t => exact ⟨t, rfl, by simpa [ht] using h⟩
    by_cases hown : id < d.terms.length
    · obtain ⟨t', ht', hkind, -⟩ := hwalk.kept id _ (List.getElem?_eq_getElem hown)
      obtain rfl := Option.some.inj (ht.symm.trans ht')
      exact ⟨_, List.getElem?_eq_getElem hown, hkind.symm.trans hterm⟩
    · have hmade := (hwalk.made id t (Nat.not_lt.mp hown) ht).1
      exact absurd (hmade.symm.trans hterm) Bool.false_ne_true
  · rintro ⟨t, ht, hterm⟩
    rw [Collection.isTerminal_eq (hd.getElem?_collect_of_terminal ht hterm), hterm]

/-- What is made has a rule: the nested expression that it was. -/
theorem WellFormed.isSome_alternativesIn_of_made (hd : d.WellFormed) (hroot : d.root = some root)
    (hid : id < (d.collect root).terms.length) (hmade : d.terms.length ≤ id) :
    (alternativesIn (d.collect root).terms id).isSome = true := by
  obtain ⟨hwalk, -⟩ := hd.walk_collect hroot hd.rules
  have hget := List.getElem?_eq_getElem hid
  have hterm := (hwalk.made id _ hmade hget).1
  have hunruled : unruledIn (d.collect root).terms id = none := by
    have hlen : (d.augment root).length ≤ id := by rwa [augment, List.length_modify]
    exact (Collection.unruledIn_visitFrom id _ 0 (Collection.start d root)).trans
      (unruledIn_of_length_le hlen)
  cases hrule : (d.collect root).terms[id].rule with
  | none =>
    have hsome := unruledIn_eq_some_iff.mpr ⟨hget, hterm, hrule⟩
    exact absurd (hunruled.symm.trans hsome) (Option.some_ne_none _).symm
  | some e =>
    exact Option.isSome_iff_exists.mpr ⟨_, alternativesIn_eq_some_iff.mpr ⟨_, hget, hterm, hrule⟩⟩

theorem IsDeclared.not_reserved (h : d.IsDeclared id) : Site.isReserved (.term id) = false := by
  simp [Site.isReserved, h.2.1, h.2.2]

end Definition

/-! ## What is listed -/

/-- The collection lists what `root` reaches, and each term comes from its origin in the
definition. -/
structure Collection.Exact (d : Definition) (root : TermId) (origin : TermId → Site)
    (c : Collection) : Prop where
  /-- The end of input, and the declared terminals that are reached. -/
  terminals    : ∃ rest, c.terminals = TermId.eof :: rest ∧ c.terminals.Nodup ∧
    ∀ id, id ∈ rest ↔ d.IsDeclared id ∧ d.Reaches root id
  /-- The augmented root, the nonterminals that are reached, and the nested expressions in the rules
  of these. No two come from one origin. -/
  nonterminals : ∃ rest, c.nonterminals = TermId.root :: rest ∧ c.nonterminals.Nodup ∧
    (rest.map origin).Nodup ∧
    ∀ site, site ∈ rest.map origin ↔ d.IsNonterminal site ∧ d.Reaches root site.owner
  /-- A term of the definition stands for itself. -/
  own          : ∀ id < d.terms.length, origin id = .term id
  /-- What has been made is listed, and stands for a nested expression. -/
  lifted       : ∀ id < c.terms.length, d.terms.length ≤ id →
    id ∈ c.nonterminals ∧ ∃ site k, origin id = .nested site k
  /-- Nothing is nested any more. -/
  flat         : ∀ id ∈ c.nonterminals, ∀ t e, c.terms[id]? = some t → t.rule = some e →
    e.nestedCount = 0
  /-- The augmented root derives the root. -/
  augmented    : ∃ t, c.terms[TermId.root]? = some t ∧ t.rule = some (Expr.term root)
  /-- Rules mention what they did, and in place of a nested expression the term it became. -/
  settled      : ∀ id ∈ c.nonterminals, id ≠ TermId.root → Collection.Settled d origin c id

namespace Definition

variable {d : Definition} {root : TermId} {visited ids : List TermId} {origin : TermId → Site}

/-- The list of what is found, by origins, is what the root reaches over sites. -/
structure Listed (d : Definition) (root : TermId) (origin : TermId → Site)
    (ids : List TermId) : Prop where
  traced : Collection.Traced d (d.collect root).found origin (d.collect root)
  found  : (d.collect root).found = TermId.eof :: TermId.root :: ids
  reach  : ∀ site, site ∈ ids.map origin ↔ Reach d.successors [.term root] site

theorem WellFormed.exists_listed (hd : d.WellFormed) (hroot : d.root = some root) :
    ∃ origin ids, d.Listed root origin ids := by
  obtain ⟨visited, origin, ids, htraced, hfound, hvisited, hdiscovers⟩ := hd.traced_collect hroot
  refine ⟨origin, ids, ⟨htraced.own, ?_, htraced.inj, ?_, ?_, ?_⟩, hfound,
    fun site => hdiscovers.mem_iff⟩
  · intro i hi hown
    obtain ⟨j, hj, hrest⟩ := htraced.lifted i hi hown
    exact ⟨j, (hvisited j).mp hj, hrest⟩
  · exact fun i hi hnot => htraced.waiting i hi (mt (hvisited i).mp hnot)
  · exact fun i hi => htraced.bound i ((hvisited i).mpr hi)
  · exact fun i hi => htraced.settled i ((hvisited i).mpr hi)

namespace Listed

variable {id : TermId}

theorem mem_found (h : d.Listed root origin ids) (hid : id ∈ ids) :
    id ∈ (d.collect root).found := by
  rw [h.found]
  exact List.mem_cons_of_mem _ (List.mem_cons_of_mem _ hid)

theorem lt (h : d.Listed root origin ids) (hid : id ∈ ids) :
    id < (d.collect root).terms.length :=
  h.traced.bound id (h.mem_found hid)

/-- A term of the definition is listed iff it is reached. -/
theorem mem_iff (h : d.Listed root origin ids)
    (hlen : d.terms.length ≤ (d.collect root).terms.length) (hid : id < d.terms.length) :
    id ∈ ids ↔ Reach d.successors [.term root] (.term id) := by
  rw [← h.reach, List.mem_map]
  constructor
  · exact fun hmem => ⟨id, hmem, h.traced.own id hid⟩
  · rintro ⟨i, hi, horigin⟩
    exact (h.traced.origin_eq_term_iff hlen (h.lt hi) hid).mp horigin ▸ hi

/-- Neither the end of input nor the augmented root is listed again. -/
theorem ne_of_mem (h : d.Listed root origin ids) (hnodup : (d.collect root).found.Nodup)
    (hid : id ∈ ids) : id ≠ TermId.eof ∧ id ≠ TermId.root := by
  rw [h.found] at hnodup
  obtain ⟨heof, hrest⟩ := List.nodup_cons.mp hnodup
  refine ⟨?_, ?_⟩
  · rintro rfl
    exact heof (List.mem_cons_of_mem _ hid)
  · rintro rfl
    exact (List.nodup_cons.mp hrest).1 hid

/-- **A declared terminal is listed iff rules lead to it.** -/
theorem mem_found_iff (h : d.Listed root origin ids) (hd : d.WellFormed)
    (hlen : d.terms.length ≤ (d.collect root).terms.length) (hid : d.IsDeclared id) :
    id ∈ (d.collect root).found ↔ d.Reaches root id := by
  have hne : id ≠ TermId.root := fun hroot => hd.not_isTerminal_root (hroot ▸ hid.1)
  rw [h.found, List.mem_cons, List.mem_cons, or_iff_right hid.2.1, or_iff_right hne,
    h.mem_iff hlen hid.1.lt, hd.reach_iff_reaches hid.not_reserved]

section Parts

variable (h : d.Listed root origin ids) (hd : d.WellFormed) (hroot : d.root = some root)
include h hd hroot

theorem terminals_eq : (d.collect root).terminals =
    TermId.eof :: ids.filter (d.collect root).isTerminal := by
  have heof := (hd.isTerminal_collect_iff hroot).mpr hd.isTerminal_eof
  have haugmented := mt (hd.isTerminal_collect_iff hroot).mp hd.not_isTerminal_root
  rw [Collection.terminals, h.found, List.filter_cons_of_pos heof,
    List.filter_cons_of_neg haugmented]

theorem nonterminals_eq : (d.collect root).nonterminals =
    TermId.root :: ids.filter fun id => !(d.collect root).isTerminal id := by
  have heof := (hd.isTerminal_collect_iff hroot).mpr hd.isTerminal_eof
  have haugmented := mt (hd.isTerminal_collect_iff hroot).mp hd.not_isTerminal_root
  rw [Collection.nonterminals, h.found, List.filter_cons_of_neg (by simp [heof]),
    List.filter_cons_of_pos (by simp [haugmented])]

theorem mem_terminals_iff : id ∈ ids.filter (d.collect root).isTerminal ↔
    d.IsDeclared id ∧ d.Reaches root id := by
  obtain ⟨hwalk, -⟩ := hd.walk_collect hroot hd.rules
  rw [List.mem_filter, hd.isTerminal_collect_iff hroot]
  constructor
  · rintro ⟨hid, hterm⟩
    have hdeclared : d.IsDeclared id :=
      ⟨hterm, (h.ne_of_mem hwalk.nodup hid).1, (hwalk.bound id (h.mem_found hid)).2⟩
    exact ⟨hdeclared, (h.mem_found_iff hd hwalk.terms_length_le hdeclared).mp (h.mem_found hid)⟩
  · rintro ⟨hdeclared, hreaches⟩
    refine ⟨(h.mem_iff hwalk.terms_length_le hdeclared.1.lt).mpr ?_, hdeclared.1⟩
    exact (hd.reach_iff_reaches hdeclared.not_reserved).mpr hreaches

theorem isNonterminal_origin (hid : id ∈ ids)
    (hkind : (d.collect root).isTerminal id = false) : d.IsNonterminal (origin id) := by
  obtain ⟨hwalk, -⟩ := hd.walk_collect hroot hd.rules
  by_cases hown : id < d.terms.length
  · rw [h.traced.own id hown]
    obtain ⟨t', ht', hterm, -⟩ := hwalk.kept id _ (List.getElem?_eq_getElem hown)
    rw [Collection.isTerminal_eq ht', hterm] at hkind
    exact ⟨_, List.getElem?_eq_getElem hown, hkind⟩
  · obtain ⟨j, -, -, k, hk⟩ := h.traced.lifted id (h.lt hid) (Nat.not_lt.mp hown)
    have hreach := (h.reach (origin id)).mp (List.mem_map_of_mem hid)
    rw [hk] at hreach ⊢
    exact isSome_of_reach_nested hreach

theorem mem_nonterminals_iff {site : Site} :
    site ∈ (ids.filter fun id => !(d.collect root).isTerminal id).map origin ↔
      d.IsNonterminal site ∧ d.Reaches root site.owner := by
  obtain ⟨hwalk, -⟩ := hd.walk_collect hroot hd.rules
  constructor
  · intro hsite
    obtain ⟨id, hid, rfl⟩ := List.mem_map.mp hsite
    obtain ⟨hmem, hkind⟩ := List.mem_filter.mp hid
    exact ⟨h.isNonterminal_origin hd hroot hmem (by simpa using hkind),
      reaches_owner ((h.reach _).mp (List.mem_map_of_mem hmem))⟩
  · rintro ⟨hkind, hreaches⟩
    have hreach : Reach d.successors [.term root] site := by
      cases site with
      | term id =>
        obtain ⟨t, ht, hterm⟩ := hkind
        exact (hd.reach_iff_reaches (hd.not_reserved ht hterm)).mpr hreaches
      | nested site k => exact (hd.reach_nested_iff hkind).mpr hreaches
    obtain ⟨id, hid, rfl⟩ := List.mem_map.mp ((h.reach site).mpr hreach)
    refine List.mem_map_of_mem (List.mem_filter.mpr ⟨hid, ?_⟩)
    -- A terminal is its own origin, and that is no nonterminal.
    rw [Bool.not_eq_true', ← Bool.not_eq_true, hd.isTerminal_collect_iff hroot]
    rintro ⟨t, ht, hterm⟩
    rw [h.traced.own id (List.getElem?_eq_some_iff.mp ht).1] at hkind
    obtain ⟨u, hu, hnot⟩ := hkind
    obtain rfl := Option.some.inj (ht.symm.trans hu)
    exact Bool.false_ne_true (hnot.symm.trans hterm)

end Parts

/-- **Everything that is made is listed**: it was lifted out of a rule that was visited. -/
theorem mem_of_made (h : d.Listed root origin ids) (hd : d.WellFormed) (ha : d.Assigned)
    (hroot : d.root = some root) (hid : id < (d.collect root).terms.length)
    (hmade : d.terms.length ≤ id) : id ∈ ids := by
  have hthree := Nat.le_trans hd.three_le_length hmade
  obtain ⟨j, hj, hjlt, k, hk⟩ := h.traced.lifted id hid hmade
  by_cases hfound : id ∈ (d.collect root).found
  · have heof : id ≠ TermId.eof := Nat.ne_of_gt (Nat.lt_of_lt_of_le (by decide) hthree)
    have hne : id ≠ TermId.root := Nat.ne_of_gt (Nat.lt_of_lt_of_le (by decide) hthree)
    rwa [h.found, List.mem_cons, List.mem_cons, or_iff_right heof, or_iff_right hne] at hfound
  -- What is not found was not visited, and still has the alternatives of its origin.
  have hsome : (d.alternativesAt (.nested (origin j) k)).isSome = true := by
    rw [← hk, ← h.traced.waiting id hid hfound]
    exact hd.isSome_alternativesIn_of_made hroot hid hmade
  obtain ⟨bs, hbs⟩ := Option.isSome_iff_exists.mp hsome
  obtain ⟨as, has, -⟩ := Option.bind_eq_some_iff.mp hbs
  obtain ⟨t, e, ht, hterm, hrule, -⟩ := exists_rule_of_alternativesAt has
  have hjids : j ∈ ids := by
    -- The end of input and the augmented root have no rule to lift anything out of.
    rw [h.found, List.mem_cons, List.mem_cons] at hj
    refine (hj.resolve_left ?_).resolve_left ?_
    · rintro rfl
      rw [h.traced.own _ hd.isTerminal_eof.lt] at ht
      exact absurd (hd.not_reserved ht hterm) (by decide)
    · rintro rfl
      rw [h.traced.own _ ha.reserved] at ht
      exact (ha.rules _ t ht (by rw [hrule]; rfl)).2 rfl
  have hreach : Reach d.successors [.term root] (origin id) := by
    rw [hk]
    exact ((h.reach _).mp (List.mem_map_of_mem hjids)).step
      (nested_mem_successors_iff.mpr ⟨rfl, hsome⟩)
  obtain ⟨i, hi, hsame⟩ := List.mem_map.mp ((h.reach _).mpr hreach)
  exact h.traced.inj i (h.lt hi) id hid hsame ▸ hi

end Listed

/-- **Collection is exact.** -/
theorem WellFormed.exact_collect (hd : d.WellFormed) (ha : d.Assigned)
    (hroot : d.root = some root) :
    ∃ origin, Collection.Exact d root origin (d.collect root) := by
  obtain ⟨origin, ids, h⟩ := hd.exists_listed hroot
  obtain ⟨hwalk, hvisited⟩ := hd.walk_collect hroot hd.rules
  refine ⟨origin, ?_, ?_, h.traced.own, ?_, ?_, hwalk.root_rule, ?_⟩
  · exact ⟨_, h.terminals_eq hd hroot, hwalk.nodup.filter _, fun id => h.mem_terminals_iff hd hroot⟩
  · refine ⟨_, h.nonterminals_eq hd hroot, hwalk.nodup.filter _, ?_,
      fun site => h.mem_nonterminals_iff hd hroot⟩
    have hnodup := hwalk.nodup
    rw [h.found] at hnodup
    have hids := (List.nodup_cons.mp (List.nodup_cons.mp hnodup).2).2
    refine List.Nodup.map_on (fun i hi j hj => ?_) (hids.filter _)
    exact h.traced.inj i (h.lt (List.mem_filter.mp hi).1) j (h.lt (List.mem_filter.mp hj).1)
  · intro id hid hmade
    obtain ⟨j, -, -, k, hk⟩ := h.traced.lifted id hid hmade
    refine ⟨Collection.mem_nonterminals.mpr ⟨h.mem_found (h.mem_of_made hd ha hroot hid hmade), ?_⟩,
      _, k, hk⟩
    rw [← Bool.not_eq_true, hd.isTerminal_collect_iff hroot]
    exact fun hterm => absurd hterm.lt (Nat.not_lt.mpr hmade)
  · intro id hid t e ht he
    obtain ⟨hfound, hkind⟩ := Collection.mem_nonterminals.mp hid
    exact (hvisited id hfound t e ht ((Collection.isTerminal_eq ht).symm.trans hkind) he).1
  · exact fun id hid hne => h.traced.settled id (Collection.mem_nonterminals.mp hid).1 hne

/-! ## What is not listed -/

/-- **The unreachable terminals** are the declared ones that rules do not lead to. -/
theorem WellFormed.mem_unreachable_iff (hd : d.WellFormed) (hroot : d.root = some root)
    {id : TermId} : id ∈ (d.collect root).unreachable ↔ d.IsDeclared id ∧ ¬d.Reaches root id := by
  obtain ⟨origin, ids, h⟩ := hd.exists_listed hroot
  obtain ⟨hwalk, -⟩ := hd.walk_collect hroot hd.rules
  have hlen := hwalk.terms_length_le
  simp only [Collection.unreachable, List.mem_filter, List.mem_range, Bool.and_eq_true,
    hd.isTerminal_collect_iff hroot, bne_iff_ne, Bool.not_eq_true', List.contains_eq_mem,
    decide_eq_false_iff_not]
  constructor
  · rintro ⟨-, ⟨hterm, hempty⟩, hfound⟩
    have heof : id ≠ TermId.eof := by
      rintro rfl
      exact hfound (h.found ▸ List.mem_cons_self)
    have hdeclared : d.IsDeclared id := ⟨hterm, heof, hempty⟩
    exact ⟨hdeclared, mt (h.mem_found_iff hd hlen hdeclared).mpr hfound⟩
  · rintro ⟨hdeclared, hnot⟩
    exact ⟨Nat.lt_of_lt_of_le hdeclared.1.lt hlen, ⟨hdeclared.1, hdeclared.2.2⟩,
      mt (h.mem_found_iff hd hlen hdeclared).mp hnot⟩

end Definition

/-- They are listed by id. -/
theorem Collection.pairwise_unreachable (c : Collection) : c.unreachable.Pairwise (· < ·) :=
  List.pairwise_lt_range.filter _

end Lalr

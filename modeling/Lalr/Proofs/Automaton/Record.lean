import Lalr.Automaton.Record
import Lalr.Proofs.Automaton.Lookahead

/-!
# What records offer

A record is made by resolving a dispute. `disputeAt` gives the dispute of a state and a key by the
items of the state and their lookaheads, and **`find?_records_iff`** says that the records are
exactly the resolved disputes in which there is anything to decide.

What a dispute can come to is said once: it moves where the automaton moves, it reduces only
productions with a completed item and the key as its lookahead (`mem_candidates`), and it accepts
only where the augmented root is the only one of these, at the end of input.
-/

namespace Lalr

/-! ## Resolving -/

namespace Dispute

variable {d : Dispute}

theorem ordered_perm (d : Dispute) : d.ordered.Perm d.candidates := by
  unfold ordered
  split
  · rename_i p hp
    exact (List.perm_cons_erase (List.mem_of_find?_eq_some hp)).symm
  · exact .refl _

theorem mem_ordered {p : ProductionId} : p ∈ d.ordered ↔ p ∈ d.candidates :=
  d.ordered_perm.mem_iff

theorem ordered_eq_nil_iff : d.ordered = [] ↔ d.candidates = [] := by
  simp only [List.eq_nil_iff_forall_not_mem, mem_ordered]

/-- If no rule asks to be reduced, the candidates stay in order. -/
theorem ordered_eq_candidates (h : ∀ p ∈ d.candidates, d.prefersReduce p = false) :
    d.ordered = d.candidates := by
  unfold ordered
  rw [List.find?_eq_none.mpr fun p hp => by simp [h p hp]]

/-- A single candidate stays in front, whatever the rules ask for. -/
theorem ordered_of_candidates {i : ProductionId} (h : d.candidates = [i]) : d.ordered = [i] := by
  unfold ordered
  rw [h]
  cases hprefers : d.prefersReduce i <;> simp [hprefers]

/-- The first candidate whose rule asks for it comes to the front, and the others stay in order. -/
theorem ordered_of_preferred {before after : List ProductionId} {p : ProductionId}
    (hcandidates : d.candidates = before ++ p :: after) (hp : d.prefersReduce p = true)
    (hbefore : ∀ i ∈ before, d.prefersReduce i = false) : d.ordered = p :: (before ++ after) := by
  have hfind : d.candidates.find? d.prefersReduce = some p := by
    rw [hcandidates, List.find?_append,
      List.find?_eq_none.mpr fun i hi => by simp [hbefore i hi], List.find?_cons_of_pos hp]
    rfl
  have hnew : p ∉ before := fun hmem => by simp [hbefore p hmem] at hp
  unfold ordered
  rw [hfind, hcandidates]
  dsimp only
  rw [List.erase_append_right _ hnew, List.erase_cons_head]

/-- What a dispute comes to, apart from the conflicts it leaves. -/
def kind (d : Dispute) : ActionKind :=
  match d.ordered, d.target with
  | [], _ => .shift
  | production :: rest, none =>
    if d.key == TermId.eof && production :: rest == [ProductionId.root] then .accept else .reduce
  | production :: _, some _ => (d.shiftOrReduce production).1

theorem resolve_fst (d : Dispute) :
    d.resolve.1 = { kind := d.kind, target := d.target, reduces := d.ordered } := by
  unfold resolve kind
  split
  · rename_i hordered
    simp [hordered]
  · rename_i production rest hordered
    cases htarget : d.target with
    | none =>
      simp only [hordered]
      split <;> rfl
    | some target => simp only [hordered]

/-- Without a move, reducing the augmented root alone at the end of input is accepting. -/
theorem kind_of_target_none (htarget : d.target = none) {i : ProductionId}
    {rest : List ProductionId} (hordered : d.ordered = i :: rest) :
    d.kind = if d.key = TermId.eof ∧ i = ProductionId.root ∧ rest = [] then .accept
      else .reduce := by
  unfold kind
  simp only [hordered, htarget, Bool.and_eq_true, beq_iff_eq, List.cons.injEq]

/-- With a move, the production in front is all that counts. -/
theorem kind_of_target_some {target : StateId} (htarget : d.target = some target)
    {i : ProductionId} {rest : List ProductionId} (hordered : d.ordered = i :: rest) :
    d.kind = if d.isOperator = true then .operator
      else if d.prefersShift = true then .shift
      else if d.prefersReduce i = true then .reduce else .shift := by
  unfold kind
  simp only [hordered, htarget, shiftOrReduce]
  split
  · rfl
  · split
    · rfl
    · split <;> rfl

theorem kind_of_ordered_nil (hordered : d.ordered = []) : d.kind = .shift := by
  unfold kind
  rw [hordered]

theorem kind_eq_accept (h : d.kind = .accept) :
    d.key = TermId.eof ∧ d.target = none ∧ d.ordered = [ProductionId.root] := by
  unfold kind at h
  split at h
  · simp at h
  · rename_i production rest hordered htarget
    split at h
    · rename_i hroot
      rw [Bool.and_eq_true, beq_iff_eq, beq_iff_eq] at hroot
      exact ⟨hroot.1, htarget, hordered.trans hroot.2⟩
    · simp at h
  · unfold shiftOrReduce at h
    repeat' split at h
    all_goals simp at h

/-! ### Conflicts left -/

/-- The shift-reduce conflict of the dispute, if there is one. -/
def shiftConflict (d : Dispute) : List Conflict :=
  match d.target, d.ordered with
  | some _, production :: _ => (d.shiftOrReduce production).2
  | _, _ => []

theorem mem_reduceConflict {conflict : Conflict} :
    conflict ∈ d.reduceConflict ↔ ∃ first second rest, d.candidates = first :: second :: rest ∧
      (∀ i ∈ d.candidates, d.prefersReduce i = false) ∧
      conflict = .reduceReduce first second := by
  unfold reduceConflict
  split
  · rename_i first second rest hcandidates
    by_cases hany : d.candidates.any d.prefersReduce = true
    · rw [if_pos hany]
      refine ⟨fun h => absurd h List.not_mem_nil, ?_⟩
      rintro ⟨-, -, -, -, hnone, -⟩
      obtain ⟨i, hi, hasked⟩ := List.any_eq_true.mp hany
      exact absurd (hasked.symm.trans (hnone i hi)) Bool.true_eq_false.mp
    · have hnone : ∀ i ∈ d.candidates, d.prefersReduce i = false := by simpa using hany
      rw [if_neg hany, List.mem_singleton]
      refine ⟨fun h => ⟨first, second, rest, hcandidates, hnone, h⟩, ?_⟩
      rintro ⟨first', second', rest', heq, -, rfl⟩
      cases hcandidates.symm.trans heq
      rfl
  · rename_i hshort
    refine ⟨fun h => absurd h List.not_mem_nil, ?_⟩
    rintro ⟨first, second, rest, heq, -⟩
    exact absurd heq (hshort first second rest)

theorem mem_shiftOrReduce {conflict : Conflict} {i : ProductionId} :
    conflict ∈ (d.shiftOrReduce i).2 ↔ d.isOperator = false ∧ d.prefersShift = false ∧
      d.prefersReduce i = false ∧ conflict = .shiftReduce i := by
  unfold shiftOrReduce
  cases d.isOperator <;> cases d.prefersShift <;> cases d.prefersReduce i <;> simp

/-- If the candidate in front does not ask to be reduced, none does. -/
theorem prefersReduce_eq_false_of_head {i : ProductionId} {rest : List ProductionId}
    (hordered : d.ordered = i :: rest) (hi : d.prefersReduce i = false) :
    ∀ j ∈ d.candidates, d.prefersReduce j = false := by
  unfold ordered at hordered
  split at hordered
  · rename_i first hfind
    obtain ⟨rfl, -⟩ := List.cons.inj hordered
    exact absurd ((List.find?_some hfind).symm.trans hi) (by simp)
  · rename_i hfind
    exact fun j hj => by simpa using List.find?_eq_none.mp hfind j hj

theorem mem_shiftConflict {conflict : Conflict} :
    conflict ∈ d.shiftConflict ↔ ∃ first rest, d.target.isSome = true ∧
      d.candidates = first :: rest ∧ d.isOperator = false ∧ d.prefersShift = false ∧
      (∀ i ∈ d.candidates, d.prefersReduce i = false) ∧ conflict = .shiftReduce first := by
  unfold shiftConflict
  constructor
  · intro h
    split at h
    · rename_i target i rest htarget hordered
      obtain ⟨hoperator, hshift, hi, rfl⟩ := mem_shiftOrReduce.mp h
      have hnone := prefersReduce_eq_false_of_head hordered hi
      rw [ordered_eq_candidates hnone] at hordered
      exact ⟨i, rest, by rw [htarget]; rfl, hordered, hoperator, hshift, hnone, rfl⟩
    · exact absurd h List.not_mem_nil
  · rintro ⟨first, rest, htarget, hcandidates, hoperator, hshift, hnone, rfl⟩
    obtain ⟨target, htarget⟩ := Option.isSome_iff_exists.mp htarget
    rw [htarget, ordered_eq_candidates hnone, hcandidates]
    refine mem_shiftOrReduce.mpr ⟨hoperator, hshift, hnone first ?_, rfl⟩
    rw [hcandidates]
    exact List.mem_cons_self

theorem reduceConflict_cases (d : Dispute) :
    d.reduceConflict = [] ∨ ∃ first second, d.reduceConflict = [.reduceReduce first second] := by
  unfold reduceConflict
  split
  · split
    · exact Or.inl rfl
    · exact Or.inr ⟨_, _, rfl⟩
  · exact Or.inl rfl

theorem shiftConflict_cases (d : Dispute) :
    d.shiftConflict = [] ∨ ∃ reduced, d.shiftConflict = [.shiftReduce reduced] := by
  unfold shiftConflict
  split
  · rename_i production _ _ _
    unfold shiftOrReduce
    cases d.isOperator <;> cases d.prefersShift <;> cases d.prefersReduce production <;> simp
  · exact Or.inl rfl

/-- **The conflicts that a dispute leaves**: at most one of each sort. -/
theorem resolve_snd (d : Dispute) : d.resolve.2 = d.reduceConflict ++ d.shiftConflict := by
  -- A single candidate leaves no reduce-reduce conflict.
  have hsingle : ∀ i, d.ordered = [i] → d.reduceConflict = [] := by
    intro i hordered
    have hcandidates : d.candidates = [i] := by
      have hperm := d.ordered_perm
      rw [hordered] at hperm
      exact List.perm_singleton.mp hperm.symm
    rw [reduceConflict, hcandidates]
  unfold resolve shiftConflict
  cases hordered : d.ordered with
  | nil =>
    have hcandidates := ordered_eq_nil_iff.mp hordered
    cases d.target <;> simp [reduceConflict, hcandidates]
  | cons i rest =>
    cases d.target with
    | some target => rfl
    | none =>
      dsimp only
      split
      · rename_i haccept
        have hroot : i :: rest = [ProductionId.root] := by
          simpa using (Bool.and_eq_true_iff.mp haccept).2
        rw [hsingle _ (hordered.trans hroot)]
        rfl
      · rw [List.append_nil]

/-- A dispute that nothing settles and that leaves no conflict offers one thing only. -/
theorem unique_of_resolve_snd (h : d.resolve.2 = []) (hoperator : d.isOperator = false)
    (hshift : d.prefersShift = false) (hreduce : ∀ p, d.prefersReduce p = false) :
    (d.target = none ∨ d.candidates = []) ∧ d.candidates.length ≤ 1 := by
  have hordered := ordered_eq_candidates fun p _ => hreduce p
  unfold resolve at h
  rw [hordered] at h
  cases hcandidates : d.candidates with
  | nil => exact ⟨Or.inr rfl, Nat.zero_le _⟩
  | cons first rest =>
    cases htarget : d.target with
    | some target =>
      rw [hcandidates, htarget] at h
      simp [shiftOrReduce, hoperator, hshift, hreduce] at h
    | none =>
      refine ⟨Or.inl rfl, ?_⟩
      cases rest with
      | nil => exact Nat.le_refl 1
      | cons second rest =>
        rw [hcandidates, htarget] at h
        simp [reduceConflict, hcandidates, hreduce] at h

/-- Something can be done: a move or a reduction. -/
def IsPosed (d : Dispute) : Prop := d.target.isSome = true ∨ d.candidates ≠ []

theorem isPosed_of_mem_resolve {conflict : Conflict} (h : conflict ∈ d.resolve.2) : d.IsPosed := by
  right
  rw [d.resolve_snd] at h
  rcases List.mem_append.mp h with h | h
  · obtain ⟨first, second, rest, hcandidates, -⟩ := mem_reduceConflict.mp h
    exact hcandidates ▸ List.cons_ne_nil _ _
  · obtain ⟨first, rest, -, hcandidates, -⟩ := mem_shiftConflict.mp h
    exact hcandidates ▸ List.cons_ne_nil _ _

end Dispute

namespace Cfg

/-- The production has a completed item in the state, with the key as its lookahead. -/
def Reducible (g : Cfg) (q : StateId) (k : TermId) (i : ProductionId) : Prop :=
  ∃ p, g.productions[i]? = some p ∧ g.Lookahead q ⟨i, p.rhs.length⟩ k

variable {g : Cfg} {root : TermId}

/-- A completed item of a state has its dot at the end of its production. -/
theorem Augmented.isComplete_iff (h : g.Augmented root) {q : StateId} {item : Item}
    (hi : item ∈ g.itemsOf q) {p : Production} (hp : g.productions[item.production]? = some p) :
    g.isComplete item = true ↔ item.position = p.rhs.length := by
  obtain ⟨p', hp', hle⟩ := mem_items_iff.mp (h.items_of_state hi)
  obtain rfl : p = p' := Option.some.inj (hp.symm.trans hp')
  rw [isComplete, next, hp, Option.bind_some, Option.isNone_iff_eq_none,
    List.getElem?_eq_none_iff]
  omega

end Cfg

namespace Automaton

variable {g : Cfg} {root : TermId} {isOperator : TermId → Bool} {q : StateId} {k : TermId}

/-! ## Disputes by items and lookaheads -/

/-- What the choice in a state for a key depends on, by the items of the state. -/
def disputeAt (g : Cfg) (isOperator : TermId → Bool) (q : StateId) (k : TermId) : Dispute where
  key := k
  target := g.goto? q k
  candidates := (((g.itemsOf q).filter g.isComplete).filter fun item =>
    k ∈ (ofCfg g g.facts).lookaheadsOf q item).map Item.production
  isOperator := isOperator k
  prefersShift := (g.itemsOf q).any fun item =>
    g.next item == some k && g.hasHint item .preferShift
  prefersReduce p := (g.productions[p]?.map Production.prefersReduce).getD false

theorem mem_candidates (h : g.Augmented root) {i : ProductionId} :
    i ∈ (disputeAt g isOperator q k).candidates ↔ g.Reducible q k i := by
  simp only [disputeAt, List.mem_map, List.mem_filter, decide_eq_true_eq]
  constructor
  · rintro ⟨item, ⟨⟨hi, hcomplete⟩, hk⟩, rfl⟩
    obtain ⟨p, hp, -⟩ := Cfg.mem_items_iff.mp (h.items_of_state hi)
    refine ⟨p, hp, ?_⟩
    rw [← (h.isComplete_iff hi hp).mp hcomplete]
    exact (h.mem_lookaheadsOf_iff hi).mp hk
  · rintro ⟨p, hp, hk⟩
    have hi := hk.mem_itemsOf h
    exact ⟨⟨i, p.rhs.length⟩, ⟨⟨hi, (h.isComplete_iff hi hp).mpr rfl⟩,
      (h.mem_lookaheadsOf_iff hi).mpr hk⟩, rfl⟩

/-- A state has one completed item of a production, so no candidate is listed twice. -/
theorem nodup_candidates (h : g.Augmented root) :
    (disputeAt g isOperator q k).candidates.Nodup := by
  refine List.Nodup.map_on ?_ (((h.nodup_itemsOf q).filter _).filter _)
  intro item hitem item' hitem' heq
  obtain ⟨hi, hcomplete⟩ := List.mem_filter.mp (List.mem_filter.mp hitem).1
  obtain ⟨hi', hcomplete'⟩ := List.mem_filter.mp (List.mem_filter.mp hitem').1
  obtain ⟨p, hp, -⟩ := Cfg.mem_items_iff.mp (h.items_of_state hi)
  have hpos := (h.isComplete_iff hi hp).mp hcomplete
  have hpos' := (h.isComplete_iff hi' (heq ▸ hp)).mp hcomplete'
  cases item
  cases item'
  simp only [Item.mk.injEq]
  exact ⟨heq, hpos.trans hpos'.symm⟩

/-! ## Drafts

A draft has the target of its key, and it has been offered the productions whose completed items
have the key as a lookahead. -/

theorem foldl_offer (productions : List ProductionId) (d : Draft) :
    productions.foldl (fun d p => d.offer p) d =
      { d with candidates := appendNew d.candidates productions } := by
  induction productions generalizing d with
  | nil => rfl
  | cons p rest ih =>
    rw [List.foldl_cons, ih, appendNew_cons, Draft.offer]
    split <;> rfl

/-- A completed item offers its production once under each of its lookaheads. -/
theorem valuesAt_reductions (completed : List (ProductionId × TermSet)) (k : TermId) :
    valuesAt (reductions completed) k = (completed.filter fun c => k ∈ c.2).map Prod.fst := by
  induction completed with
  | nil => rfl
  | cons c rest ih =>
    rw [reductions, List.flatMap_cons, valuesAt_append, valuesAt_map_pair c.2.nodup_toList]
    by_cases hk : k ∈ c.2
    · rw [if_pos (show k ∈ c.2.toList from hk), List.filter_cons_of_pos (by simpa using hk),
        List.map_cons, ← ih]
      rfl
    · rw [if_neg (show k ∉ c.2.toList from hk), List.filter_cons_of_neg (by simpa using hk), ← ih]
      rfl

/-- The keys of a state: what can be moved over, then the lookaheads of completed items. -/
def keys (s : State) (completed : List (ProductionId × TermSet)) : List TermId :=
  appendNew (s.moves.map Prod.fst) (completed.flatMap fun c => c.2.toList)

/-- **Drafts by key**: nothing is lost on the way, and nothing is put under another key. -/
theorem drafts_eq {s : State} (hmoves : (s.moves.map Prod.fst).Nodup)
    (completed : List (ProductionId × TermSet)) :
    drafts s completed = (keys s completed).map fun k =>
      (k, ⟨s.moves.lookup k, appendNew [] ((completed.filter fun c => k ∈ c.2).map Prod.fst)⟩) := by
  have hkeys : (s.moves.map fun m => (m.1, (⟨some m.2, []⟩ : Draft))).map Prod.fst =
      s.moves.map Prod.fst := by
    rw [List.map_map]
    rfl
  have hreductions : (reductions completed).map Prod.fst =
      completed.flatMap fun c => c.2.toList := by
    simp [reductions, List.map_flatMap, Function.comp_def]
  rw [drafts, gather_eq (hkeys ▸ hmoves), hkeys, hreductions]
  refine List.map_congr_left fun k _ => ?_
  have hlookup : (s.moves.map fun m => (m.1, (⟨some m.2, []⟩ : Draft))).lookup k =
      (s.moves.lookup k).map fun target => ⟨some target, []⟩ := 
    lookup_map_snd (fun target => (⟨some target, []⟩ : Draft)) k s.moves
  rw [valuesAt_reductions, foldl_offer, hlookup]
  cases s.moves.lookup k <;> rfl

theorem nodup_moves {s : State} (hs : g.states[q]? = some s) : (s.moves.map Prod.fst).Nodup := by
  obtain ⟨kernel, -, rfl⟩ := Cfg.state_eq_some_iff.mp hs
  show (((g.movable (g.closure kernel)).map fun x => (x, _)).map Prod.fst).Nodup
  rw [List.map_map]
  exact (List.map_id _).symm ▸ nodup_appendNew List.nodup_nil

theorem candidates_completed (a : Automaton) (g : Cfg) (q : StateId) (s : State) (k : TermId) :
    ((a.completed g q s).filter fun c => k ∈ c.2).map Prod.fst =
      ((s.items.filter g.isComplete).filter fun item =>
        k ∈ a.lookaheadsOf q item).map Item.production := by
  rw [completed, List.filter_map, List.map_map]
  rfl

/-- **The disputes of a state**, one for each key. -/
theorem disputes_eq (h : g.Augmented root) {s : State} (hs : g.states[q]? = some s) :
    (ofCfg g g.facts).disputes g isOperator q s =
      (keys s ((ofCfg g g.facts).completed g q s)).map (disputeAt g isOperator q) := by
  rw [disputes, drafts_eq (nodup_moves hs), List.map_map]
  refine List.map_congr_left fun k _ => ?_
  have hcandidates : appendNew [] (((ofCfg g g.facts).completed g q s).filter
      (fun c => k ∈ c.2) |>.map Prod.fst) = (disputeAt g isOperator q k).candidates := by
    have hnodup : (disputeAt g isOperator q k).candidates.Nodup := nodup_candidates h
    rw [candidates_completed, ← Cfg.itemsOf_eq hs]
    exact appendNew_of_nodup hnodup
  rw [Function.comp_apply, hcandidates, dispute, disputeAt, Cfg.goto?, hs, Cfg.itemsOf_eq hs,
    Option.bind_some]

theorem isSome_lookup_iff {α β : Type} [DecidableEq α] {pairs : List (α × β)} {x : α} :
    (pairs.lookup x).isSome = true ↔ x ∈ pairs.map Prod.fst := by
  induction pairs with
  | nil => simp
  | cons pair rest ih =>
    rw [lookup_cons_eq_ite, List.map_cons, List.mem_cons]
    by_cases hx : x = pair.1
    · simp [hx]
    · simp only [hx, if_false, ih, false_or]

/-- The keys of a state are those for which there is anything to decide. -/
theorem mem_keys_iff {s : State} (hs : g.states[q]? = some s) :
    k ∈ keys s ((ofCfg g g.facts).completed g q s) ↔ (disputeAt g isOperator q k).IsPosed := by
  have hcandidates : (disputeAt g isOperator q k).candidates =
      (((ofCfg g g.facts).completed g q s).filter fun c => k ∈ c.2).map Prod.fst := by
    rw [candidates_completed, ← Cfg.itemsOf_eq hs]
    rfl
  have htarget : (disputeAt g isOperator q k).target = s.moves.lookup k := by
    rw [disputeAt, Cfg.goto?, hs, Option.bind_some]
  rw [keys, mem_appendNew, Dispute.IsPosed, htarget, hcandidates]
  refine or_congr isSome_lookup_iff.symm ?_
  simp only [ne_eq, List.map_eq_nil_iff, List.filter_eq_nil_iff, decide_eq_true_eq,
    not_forall, not_not, List.mem_flatMap, exists_prop]
  rfl

theorem disputes_getElem? (h : g.Augmented root) (isOperator : TermId → Bool) (q : StateId) :
    ((ofCfg g g.facts).allDisputes g isOperator)[q]? =
      g.states[q]?.map fun s =>
        (keys s ((ofCfg g g.facts).completed g q s)).map (disputeAt g isOperator q) := by
  have hstates : (ofCfg g g.facts).states = g.states := rfl
  rw [allDisputes, hstates, List.getElem?_map, List.getElem?_zipIdx]
  cases hs : g.states[q]? with
  | none => rfl
  | some s =>
    simp only [Option.map_some, Nat.zero_add, disputes_eq h hs]

theorem records_getElem? (h : g.Augmented root) (isOperator : TermId → Bool) (q : StateId) :
    (records ((ofCfg g g.facts).allDisputes g isOperator))[q]? =
      g.states[q]?.map fun s => (keys s ((ofCfg g g.facts).completed g q s)).map fun k =>
        (k, (disputeAt g isOperator q k).resolve.1) := by
  rw [records, List.getElem?_map, disputes_getElem? h, Option.map_map]
  congr 1
  funext s
  exact List.map_map

/-- **The records are the resolved disputes.** -/
theorem find?_records_iff (h : g.Augmented root) {r : Record} :
    (records ((ofCfg g g.facts).allDisputes g isOperator)).find? q k = some r ↔
      (disputeAt g isOperator q k).IsPosed ∧ r = (disputeAt g isOperator q k).resolve.1 := by
  rw [Records.find?, records_getElem? h]
  cases hs : g.states[q]? with
  | none =>
    have hposed : ¬ (disputeAt g isOperator q k).IsPosed := by
      simp [Dispute.IsPosed, disputeAt, Cfg.goto?, Cfg.itemsOf, hs]
    simp [hposed]
  | some s =>
    rw [Option.map_some, Option.bind_some, lookup_map_pair, ← mem_keys_iff hs]
    by_cases hk : k ∈ keys s ((ofCfg g g.facts).completed g q s)
    · simp [hk, eq_comm]
    · simp [hk]

/-- **The conflicts are those that the disputes of states leave.** -/
theorem mem_conflicts_iff (h : g.Augmented root) {conflict : Conflict} :
    (q, k, conflict) ∈ conflicts ((ofCfg g g.facts).allDisputes g isOperator) ↔
      q < g.states.length ∧ conflict ∈ (disputeAt g isOperator q k).resolve.2 := by
  constructor
  · intro hmem
    obtain ⟨⟨ds, q'⟩, hrow, hmem⟩ := List.mem_flatMap.mp hmem
    obtain ⟨d, hd, hmem⟩ := List.mem_flatMap.mp hmem
    obtain ⟨conflict', hconflict, heq⟩ := List.mem_map.mp hmem
    obtain ⟨rfl, rfl, rfl⟩ : q' = q ∧ d.key = k ∧ conflict' = conflict := by simpa using heq
    have hrow := List.mk_mem_zipIdx_iff_getElem?.mp hrow
    rw [disputes_getElem? h] at hrow
    obtain ⟨s, hs, rfl⟩ := Option.map_eq_some_iff.mp hrow
    obtain ⟨k, -, rfl⟩ := List.mem_map.mp hd
    exact ⟨(List.getElem?_eq_some_iff.mp hs).1, hconflict⟩
  · rintro ⟨hq, hconflict⟩
    have hs := List.getElem?_eq_getElem hq
    have hkey := (mem_keys_iff hs).mpr (Dispute.isPosed_of_mem_resolve hconflict)
    have hrow := disputes_getElem? h isOperator q
    rw [hs, Option.map_some] at hrow
    exact List.mem_flatMap.mpr ⟨_, List.mk_mem_zipIdx_iff_getElem?.mpr hrow,
      List.mem_flatMap.mpr ⟨_, List.mem_map_of_mem hkey, List.mem_map_of_mem hconflict⟩⟩

/-- If there are no conflicts at all, no dispute has left one. -/
theorem resolve_snd_eq_nil (h : g.Augmented root)
    (hnone : conflicts ((ofCfg g g.facts).allDisputes g isOperator) = [])
    (hposed : (disputeAt g isOperator q k).IsPosed) :
    (disputeAt g isOperator q k).resolve.2 = [] := by
  cases hs : g.states[q]? with
  | none => simp [Dispute.IsPosed, disputeAt, Cfg.goto?, Cfg.itemsOf, hs] at hposed
  | some s =>
    refine List.eq_nil_iff_forall_not_mem.mpr fun conflict hconflict => ?_
    have hmem := (mem_conflicts_iff h).mpr ⟨(List.getElem?_eq_some_iff.mp hs).1, hconflict⟩
    exact absurd (hnone ▸ hmem) List.not_mem_nil

end Automaton

end Lalr

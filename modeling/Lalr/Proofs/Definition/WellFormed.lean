import Lalr.Proofs.Definition.Changes

/-!
# Well-formed definitions

Whatever commands a definition is made by, refused ones included, it keeps its shape
(**`wellFormed_ofCommands`**): the reserved terms are in their places, the root is a nonterminal
of the author, and no rule mentions, at any depth, a term that does not exist or the augmented
root.

A condition on everything an expression mentions is a Boolean function of it (`Expr.every`), with
one test for terms and one for hints, so that it can be evaluated.
-/

namespace Lalr

/-! ## Conditions on everything an expression mentions -/

mutual

/-- All terms and hints of an operand, at any depth, pass the tests. -/
def Operand.every (onTerm : TermId → Bool) (onHint : Hint → Bool) : Operand → Bool
  | .term id => onTerm id
  | .hint mark => onHint mark
  | .nested alternatives => Operand.everyAlternatives onTerm onHint alternatives

/-- All terms and hints of a sequence, at any depth, pass the tests. -/
def Operand.everySequence (onTerm : TermId → Bool) (onHint : Hint → Bool) : List Operand → Bool
  | [] => true
  | operand :: rest => operand.every onTerm onHint && Operand.everySequence onTerm onHint rest

/-- All terms and hints of alternatives, at any depth, pass the tests. -/
def Operand.everyAlternatives (onTerm : TermId → Bool) (onHint : Hint → Bool) :
    List (List Operand) → Bool
  | [] => true
  | sequence :: rest =>
    Operand.everySequence onTerm onHint sequence &&
      Operand.everyAlternatives onTerm onHint rest

end

/-- All terms and hints of an expression, at any depth, pass the tests. -/
def Expr.every (onTerm : TermId → Bool) (onHint : Hint → Bool) (e : Expr) : Bool :=
  Operand.everyAlternatives onTerm onHint e.alternatives

variable {onTerm onTerm' : TermId → Bool} {onHint onHint' : Hint → Bool}

theorem Operand.everySequence_iff {s : List Operand} :
    Operand.everySequence onTerm onHint s = true ↔
      ∀ operand ∈ s, operand.every onTerm onHint = true := by
  induction s with
  | nil => simp [Operand.everySequence]
  | cons operand rest ih => simp [Operand.everySequence, ih]

theorem Operand.everyAlternatives_iff {alternatives : List (List Operand)} :
    Operand.everyAlternatives onTerm onHint alternatives = true ↔
      ∀ s ∈ alternatives, ∀ operand ∈ s, operand.every onTerm onHint = true := by
  induction alternatives with
  | nil => simp [Operand.everyAlternatives]
  | cons s rest ih => simp [Operand.everyAlternatives, Operand.everySequence_iff, ih]

mutual

theorem Operand.every_mono (hterm : ∀ x, onTerm x = true → onTerm' x = true)
    (hhint : ∀ x, onHint x = true → onHint' x = true) :
    ∀ operand : Operand, operand.every onTerm onHint = true →
      operand.every onTerm' onHint' = true
  | .term id, h => hterm id h
  | .hint mark, h => hhint mark h
  | .nested alternatives, h => Operand.everyAlternatives_mono hterm hhint alternatives h

theorem Operand.everySequence_mono (hterm : ∀ x, onTerm x = true → onTerm' x = true)
    (hhint : ∀ x, onHint x = true → onHint' x = true) :
    ∀ s : List Operand, Operand.everySequence onTerm onHint s = true →
      Operand.everySequence onTerm' onHint' s = true
  | [], _ => rfl
  | operand :: rest, h => by
    simp only [Operand.everySequence, Bool.and_eq_true] at h ⊢
    exact ⟨Operand.every_mono hterm hhint operand h.1,
      Operand.everySequence_mono hterm hhint rest h.2⟩

theorem Operand.everyAlternatives_mono (hterm : ∀ x, onTerm x = true → onTerm' x = true)
    (hhint : ∀ x, onHint x = true → onHint' x = true) :
    ∀ alternatives : List (List Operand),
      Operand.everyAlternatives onTerm onHint alternatives = true →
      Operand.everyAlternatives onTerm' onHint' alternatives = true
  | [], _ => rfl
  | s :: rest, h => by
    simp only [Operand.everyAlternatives, Bool.and_eq_true] at h ⊢
    exact ⟨Operand.everySequence_mono hterm hhint s h.1,
      Operand.everyAlternatives_mono hterm hhint rest h.2⟩

end

theorem Expr.every_mono (hterm : ∀ x, onTerm x = true → onTerm' x = true)
    (hhint : ∀ x, onHint x = true → onHint' x = true) {e : Expr}
    (h : e.every onTerm onHint = true) : e.every onTerm' onHint' = true :=
  Operand.everyAlternatives_mono hterm hhint e.alternatives h

mutual

/-- Two conditions hold together if each holds. -/
theorem Operand.every_and : ∀ operand : Operand, operand.every onTerm onHint = true →
    operand.every onTerm' onHint' = true →
    operand.every (fun x => onTerm x && onTerm' x) (fun x => onHint x && onHint' x) = true
  | .term id, h, h' => by simpa [Operand.every] using And.intro h h'
  | .hint mark, h, h' => by simpa [Operand.every] using And.intro h h'
  | .nested alternatives, h, h' => Operand.everyAlternatives_and alternatives h h'

theorem Operand.everySequence_and : ∀ s : List Operand,
    Operand.everySequence onTerm onHint s = true →
    Operand.everySequence onTerm' onHint' s = true →
    Operand.everySequence (fun x => onTerm x && onTerm' x) (fun x => onHint x && onHint' x) s = true
  | [], _, _ => rfl
  | operand :: rest, h, h' => by
    simp only [Operand.everySequence, Bool.and_eq_true] at h h' ⊢
    exact ⟨Operand.every_and operand h.1 h'.1, Operand.everySequence_and rest h.2 h'.2⟩

theorem Operand.everyAlternatives_and : ∀ alternatives : List (List Operand),
    Operand.everyAlternatives onTerm onHint alternatives = true →
    Operand.everyAlternatives onTerm' onHint' alternatives = true →
    Operand.everyAlternatives (fun x => onTerm x && onTerm' x) (fun x => onHint x && onHint' x)
      alternatives = true
  | [], _, _ => rfl
  | s :: rest, h, h' => by
    simp only [Operand.everyAlternatives, Bool.and_eq_true] at h h' ⊢
    exact ⟨Operand.everySequence_and s h.1 h'.1, Operand.everyAlternatives_and rest h.2 h'.2⟩

end

mutual

/-- An operand passes a test for terms if it is a term that passes, or all terms inside do. -/
theorem Operand.every_of_terms : ∀ operand : Operand,
    (∀ x, operand.term? = some x → onTerm x = true) →
    (∀ x ∈ operand.innerTerms, onTerm x = true) →
    operand.every onTerm (fun _ => true) = true
  | .term id, h, _ => h id rfl
  | .hint _, _, _ => rfl
  | .nested alternatives, _, h => by
    rw [Operand.innerTerms] at h
    exact Operand.everyAlternatives_of_terms alternatives
      (fun x hx => h x (List.mem_append_left _ hx))
      (fun x hx => h x (List.mem_append_right _ hx))

theorem Operand.everySequence_of_terms : ∀ s : List Operand,
    (∀ x ∈ s.filterMap Operand.term?, onTerm x = true) →
    (∀ x ∈ Operand.innerTermsSequence s, onTerm x = true) →
    Operand.everySequence onTerm (fun _ => true) s = true
  | [], _, _ => rfl
  | operand :: rest, h, h' => by
    rw [Operand.innerTermsSequence] at h'
    simp only [Operand.everySequence, Bool.and_eq_true]
    refine ⟨Operand.every_of_terms operand (fun x hx => h x ?_)
      (fun x hx => h' x (List.mem_append_right _ hx)),
      Operand.everySequence_of_terms rest (fun x hx => h x ?_)
        (fun x hx => h' x (List.mem_append_left _ hx))⟩
    · exact List.mem_filterMap.mpr ⟨operand, List.mem_cons_self, hx⟩
    · obtain ⟨o, ho, hx⟩ := List.mem_filterMap.mp hx
      exact List.mem_filterMap.mpr ⟨o, List.mem_cons_of_mem _ ho, hx⟩

theorem Operand.everyAlternatives_of_terms : ∀ alternatives : List (List Operand),
    (∀ x ∈ Operand.levelTerms alternatives, onTerm x = true) →
    (∀ x ∈ Operand.innerTermsAlternatives alternatives, onTerm x = true) →
    Operand.everyAlternatives onTerm (fun _ => true) alternatives = true
  | [], _, _ => rfl
  | s :: rest, h, h' => by
    rw [Operand.innerTermsAlternatives] at h'
    have hlevel : Operand.levelTerms (s :: rest) =
        s.filterMap Operand.term? ++ Operand.levelTerms rest := by
      simp [Operand.levelTerms]
    rw [hlevel] at h
    simp only [Operand.everyAlternatives, Bool.and_eq_true]
    exact ⟨Operand.everySequence_of_terms s (fun x hx => h x (List.mem_append_left _ hx))
        (fun x hx => h' x (List.mem_append_right _ hx)),
      Operand.everyAlternatives_of_terms rest (fun x hx => h x (List.mem_append_right _ hx))
        (fun x hx => h' x (List.mem_append_left _ hx))⟩

end

theorem Expr.every_of_terms {e : Expr} (h : ∀ x ∈ e.terms, onTerm x = true) :
    e.every onTerm (fun _ => true) = true :=
  Operand.everyAlternatives_of_terms e.alternatives
    (fun x hx => h x (List.mem_append_left _ hx)) (fun x hx => h x (List.mem_append_right _ hx))

theorem Expr.every_append {as bs : List (List Operand)} :
    Expr.every onTerm onHint ⟨as ++ bs⟩ = true ↔
      Expr.every onTerm onHint ⟨as⟩ = true ∧ Expr.every onTerm onHint ⟨bs⟩ = true := by
  simp only [Expr.every, Operand.everyAlternatives_iff, List.mem_append]
  exact ⟨fun h => ⟨fun s hs => h s (Or.inl hs), fun s hs => h s (Or.inr hs)⟩,
    fun h s hs => hs.elim (h.1 s) (h.2 s)⟩

/-! ## The shape of a definition -/

namespace Definition

/-- The reserved terms are in place, the root is a nonterminal of the author, and rules mention
only usable terms. -/
structure WellFormed (d : Definition) : Prop where
  eof         : ∃ t, d.terms[TermId.eof]? = some t ∧ t.isTerminal = true ∧ t.precedence = none
  empty       : ∃ t, d.terms[TermId.empty]? = some t ∧ t.isTerminal = true
  augmented   : ∃ t, d.terms[TermId.root]? = some t ∧ t.isTerminal = false
  rules       : ∀ t ∈ d.terms, ∀ e, t.rule = some e → e.every d.isUsable (fun _ => true) = true
  root        : ∀ id, d.root = some id →
    id ≠ TermId.root ∧ ∃ t, d.terms[id]? = some t ∧ t.isTerminal = false
  repetitions : ∀ r id, (r, id) ∈ d.repetitions → d.isUsable id = true

theorem isUsable_iff {d : Definition} {id : TermId} :
    d.isUsable id = true ↔ id < d.terms.length ∧ id ≠ TermId.root := by
  simp [isUsable]

theorem isUsable_of_checkTerms {d : Definition} {ids : List TermId}
    (h : d.checkTerms ids = .ok ()) {id : TermId} (hid : id ∈ ids) : d.isUsable id = true := by
  unfold checkTerms at h
  split at h
  · simp at h
  · rename_i hfind
    simpa using List.find?_eq_none.mp hfind id hid

theorem userNonterminal_ok {d : Definition} {id : TermId} {t : Term}
    (h : d.userNonterminal id = .ok t) :
    id ≠ TermId.root ∧ d.terms[id]? = some t ∧ t.isTerminal = false := by
  unfold userNonterminal term at h
  cases ht : d.terms[id]? with
  | none => simp [ht] at h
  | some t' =>
    simp only [ht] at h
    split at h
    · simp at h
    · rename_i hc
      obtain rfl : t' = t := by simpa using h
      simp only [Bool.or_eq_true, beq_iff_eq, not_or, Bool.not_eq_true] at hc
      exact ⟨hc.2, rfl, hc.1⟩

theorem userTerminal_ok {d : Definition} {id : TermId} {t : Term}
    (h : d.userTerminal id = .ok t) :
    id ≠ TermId.eof ∧ id ≠ TermId.empty ∧ d.terms[id]? = some t ∧ t.isTerminal = true := by
  unfold userTerminal term at h
  cases ht : d.terms[id]? with
  | none => simp [ht] at h
  | some t' =>
    simp only [ht] at h
    split at h
    · simp at h
    · rename_i hc
      obtain rfl : t' = t := by simpa using h
      simp only [Bool.or_eq_true, beq_iff_eq, not_or, Bool.not_eq_true', Bool.not_eq_false] at hc
      exact ⟨hc.1.2, hc.2, rfl, hc.1.1⟩

/-! ## Adding and changing terms -/

theorem isUsable_add {d : Definition} {t : Term} {id : TermId} (h : d.isUsable id = true) :
    (d.add t).isUsable id = true := by
  rw [isUsable_iff] at h ⊢
  have hlen : (d.add t).terms.length = d.terms.length + 1 := by simp [add]
  exact ⟨by rw [hlen]; exact Nat.lt_succ_of_lt h.1, h.2⟩

theorem WellFormed.three_le_length {d : Definition} (h : d.WellFormed) : 3 ≤ d.terms.length := by
  obtain ⟨t, ht, -⟩ := h.augmented
  exact (List.getElem?_eq_some_iff.mp ht).1

/-- A new term is usable. -/
theorem WellFormed.isUsable_length {d : Definition} (h : d.WellFormed) (t : Term) :
    (d.add t).isUsable d.terms.length = true := by
  have hthree := h.three_le_length
  rw [isUsable_iff]
  exact ⟨by simp [Definition.add], Nat.ne_of_gt hthree⟩

/-- The empty alternative is usable. -/
theorem WellFormed.isUsable_empty {d : Definition} (h : d.WellFormed) :
    d.isUsable TermId.empty = true :=
  isUsable_iff.mpr ⟨Nat.lt_of_lt_of_le (by decide) h.three_le_length, by decide⟩

/-- A term whose rule mentions usable terms may be added. -/
theorem WellFormed.add {d : Definition} (h : d.WellFormed) {t : Term}
    (ht : ∀ e, t.rule = some e → e.every (d.add t).isUsable (fun _ => true) = true) :
    (d.add t).WellFormed := by
  refine ⟨?_, ?_, ?_, ?_, ?_, ?_⟩
  · obtain ⟨t', ht', hterm, hprec⟩ := h.eof
    exact ⟨t', getElem?_add ht', hterm, hprec⟩
  · obtain ⟨t', ht', hterm⟩ := h.empty
    exact ⟨t', getElem?_add ht', hterm⟩
  · obtain ⟨t', ht', hterm⟩ := h.augmented
    exact ⟨t', getElem?_add ht', hterm⟩
  · intro t' ht' e he
    rcases List.mem_append.mp ht' with ht' | ht'
    · exact Expr.every_mono (fun x hx => isUsable_add hx) (fun _ hx => hx) (h.rules t' ht' e he)
    · obtain rfl := List.mem_singleton.mp ht'
      exact ht e he
  · intro id hid
    obtain ⟨hne, t', ht', hterm⟩ := h.root id hid
    exact ⟨hne, t', getElem?_add ht', hterm⟩
  · intro r id hr
    exact isUsable_add (h.repetitions r id hr)

theorem isUsable_modify {d : Definition} {i id : TermId} {f : Term → Term} :
    (d.modify i f).isUsable id = d.isUsable id := by
  simp [isUsable, modify]

/-- A change that keeps what a term is, and its rule usable, may be made. -/
theorem WellFormed.modify {d : Definition} (h : d.WellFormed) {i : TermId} {f : Term → Term}
    (hkind : ∀ t, (f t).isTerminal = t.isTerminal)
    (hrule : ∀ t ∈ d.terms, ∀ e, (f t).rule = some e → e.every d.isUsable (fun _ => true) = true)
    (hprec : i = TermId.eof → ∀ t, (f t).precedence = t.precedence) :
    (d.modify i f).WellFormed := by
  have hget : ∀ {id : TermId} {t : Term} {b : Bool}, d.terms[id]? = some t → t.isTerminal = b →
      ∃ t', (d.modify i f).terms[id]? = some t' ∧ t'.isTerminal = b := by
    intro id t b ht hterm
    refine ⟨_, getElem?_modify ht, ?_⟩
    split
    · rw [hkind, hterm]
    · exact hterm
  refine ⟨?_, ?_, ?_, ?_, ?_, ?_⟩
  · obtain ⟨t, ht, hterm, hnone⟩ := h.eof
    refine ⟨_, getElem?_modify ht, ?_⟩
    split
    · rename_i hi
      exact ⟨by rw [hkind, hterm], by rw [hprec hi, hnone]⟩
    · exact ⟨hterm, hnone⟩
  · obtain ⟨t, ht, hterm⟩ := h.empty
    exact hget ht hterm
  · obtain ⟨t, ht, hterm⟩ := h.augmented
    exact hget ht hterm
  · intro t ht e he
    have husable : (d.modify i f).isUsable = d.isUsable := funext fun id => isUsable_modify
    rw [husable]
    obtain ⟨j, hj⟩ := List.mem_iff_getElem?.mp ht
    have hlt : j < d.terms.length := by
      simpa [Definition.modify] using (List.getElem?_eq_some_iff.mp hj).1
    have hold := List.getElem?_eq_getElem hlt
    rw [getElem?_modify hold, Option.some.injEq] at hj
    have hmem := List.mem_of_getElem? hold
    split at hj
    · subst hj
      exact hrule _ hmem e he
    · subst hj
      exact h.rules _ hmem e he
  · intro id hid
    obtain ⟨hne, t, ht, hterm⟩ := h.root id hid
    exact ⟨hne, hget ht hterm⟩
  · intro r id hr
    rw [isUsable_modify]
    exact h.repetitions r id hr

/-- A change of anything but the rule, the kind and the precedence may be made. -/
theorem WellFormed.modify_other {d : Definition} (h : d.WellFormed) {i : TermId} {f : Term → Term}
    (hkind : ∀ t, (f t).isTerminal = t.isTerminal) (hrule : ∀ t, (f t).rule = t.rule)
    (hprec : ∀ t, (f t).precedence = t.precedence) : (d.modify i f).WellFormed :=
  h.modify hkind (fun t ht e he => h.rules t ht e (hrule t ▸ he)) fun _ => hprec

/-- The look-up tables have no part in the shape. -/
theorem WellFormed.listName {d : Definition} (h : d.WellFormed) (name : String) :
    (d.listName name).WellFormed :=
  ⟨h.eof, h.empty, h.augmented, h.rules, h.root, h.repetitions⟩

theorem WellFormed.listLiteral {d : Definition} (h : d.WellFormed) (text : String) :
    (d.listLiteral text).WellFormed :=
  ⟨h.eof, h.empty, h.augmented, h.rules, h.root, h.repetitions⟩

/-! ## Commands -/

theorem wellFormed_start (ignoreCase : Bool) : (start ignoreCase).WellFormed := by
  refine ⟨⟨_, rfl, rfl, rfl⟩, ⟨_, rfl, rfl⟩, ⟨_, rfl, rfl⟩, ?_, by simp [start], by simp [start]⟩
  intro t ht e he
  simp only [start, List.mem_cons, List.not_mem_nil, or_false] at ht
  rcases ht with rfl | rfl | rfl <;> simp [Term.named] at he

theorem WellFormed.rule {d d' : Definition} (h : d.WellFormed) {lhs : TermId} {e : Expr}
    (hrule : d.rule lhs e = .ok d') : d'.WellFormed := by
  obtain ⟨hterms, -, rfl⟩ := rule_ok hrule
  refine h.modify (fun t => rfl) ?_ (fun _ _ => rfl)
  intro t ht e' he'
  have hnew : e.every d.isUsable (fun _ => true) = true :=
    Expr.every_of_terms fun x hx => isUsable_of_checkTerms hterms hx
  obtain rfl : extendRule e t.rule = e' := by simpa using he'
  cases hold : t.rule with
  | none => exact hnew
  | some rule => exact Expr.every_append.mpr ⟨h.rules t ht rule hold, hnew⟩

/-- The rule of a repetition mentions its own terms, itself, the empty alternative and `x+[s]`. -/
theorem every_repetition_rule {test : TermId → Bool} {r : Repetition} {self plus : TermId}
    (hterms : ∀ x ∈ r.terms, test x = true) (hself : test self = true)
    (hplus : test plus = true) (hempty : test TermId.empty = true) :
    (r.rule self plus).every test (fun _ => true) = true := by
  cases r <;> simp_all [Repetition.rule, Repetition.terms, Expr.every, Expr.term, Expr.orElse,
    Expr.andThen, Operand.everyAlternatives, Operand.everySequence, Operand.every]

/-- The nonterminal of a repetition may be added with its rule, and listed. -/
theorem WellFormed.listRepetition {d : Definition} (h : d.WellFormed) {r : Repetition}
    {plus : TermId} {t : Term} (hterms : d.checkTerms r.terms = .ok ())
    (hplus : r.RestsOn d plus) (hrule : t.rule = some (r.rule d.terms.length plus)) :
    Definition.WellFormed { d.add t with
      repetitions := d.repetitions ++ [(r, d.terms.length)] } := by
  have husable : d.isUsable plus = true := by
    cases r with
    | zeroOrMoreSep x s => exact h.repetitions _ plus hplus
    | _ => exact hplus ▸ h.isUsable_empty
  have hadd : (d.add t).WellFormed := by
    refine h.add fun e he => ?_
    obtain rfl : r.rule d.terms.length plus = e := Option.some.inj (hrule.symm.trans he)
    exact every_repetition_rule (fun x hx => isUsable_add (isUsable_of_checkTerms hterms hx))
      (h.isUsable_length t) (isUsable_add husable) (isUsable_add h.isUsable_empty)
  refine ⟨hadd.eof, hadd.empty, hadd.augmented, hadd.rules, hadd.root, ?_⟩
  intro r' id hr'
  rcases List.mem_append.mp hr' with hr' | hr'
  · exact hadd.repetitions r' id hr'
  · obtain ⟨-, rfl⟩ := by simpa using hr'
    exact h.isUsable_length t

/-- **A change keeps the shape of a definition.** -/
theorem WellFormed.change [Text.Xid] {d d' : Definition} (h : d.WellFormed) (hd : d.Change d') :
    d'.WellFormed := by
  cases hd with
  | @symbol t _ _ _ _ hrule =>
    refine (h.listName t.name).add fun e he => ?_
    rw [hrule] at he
    cases he
  | literal _ _ =>
    refine (h.listLiteral _).add fun e he => ?_
    cases he
  | @repetition r plus t hterms hplus ht _ =>
    exact (h.listName t.name).listRepetition hterms hplus (ht ▸ rfl)
  | @root id t hid =>
    obtain ⟨hne, ht, hterm⟩ := userNonterminal_ok hid
    refine ⟨h.eof, h.empty, h.augmented, h.rules, ?_, h.repetitions⟩
    intro id' hid'
    obtain rfl : id = id' := by simpa using hid'
    exact ⟨hne, t, ht, hterm⟩
  | operator hid =>
    refine h.modify (fun t => rfl) (fun t ht e he => h.rules t ht e he) ?_
    intro heof
    exact absurd heof (userTerminal_ok hid).1
  | priority _ => exact h.modify_other (fun _ => rfl) (fun _ => rfl) (fun _ => rfl)
  | nickname _ => exact h.modify_other (fun _ => rfl) (fun _ => rfl) (fun _ => rfl)

/-- **Every definition made by commands is well-formed.** -/
theorem wellFormed_ofCommands [Text.Xid] (ignoreCase : Bool) (commands : List Command) :
    (ofCommands ignoreCase commands).WellFormed :=
  ofCommands_of_change (wellFormed_start ignoreCase) (fun _ _ h => h.change)
    (fun _ _ _ _ h => h.rule) commands

end Definition

end Lalr

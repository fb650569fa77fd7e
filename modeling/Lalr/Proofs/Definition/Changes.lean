import Lalr.Definition.Command
import Lalr.Entries
import Mathlib.Logic.Relation

/-!
# What commands change

A `rule` command extends the rule of one term, if it is not refused. Whatever another command does,
it does by changes of a few kinds, and each of them is made only where the definition allows it
(`Change`). A command that is refused has made some of its changes or none; one that makes `x*[s]`
makes `x+[s]` before.

**`changes_apply`** says so of every command. So an invariant of definitions is shown for rules and
for each kind of change, and not command by command (**`ofCommands_of_change`**).
-/

namespace Lalr

/-- What the rule of a repetition rests on: for `x*[s]` the nonterminal of `x+[s]`, which has to be
there, and for the others nothing. -/
def Repetition.RestsOn (d : Definition) (plus : TermId) : Repetition → Prop
  | .zeroOrMoreSep x s => (.oneOrMoreSep x s, plus) ∈ d.repetitions
  | _ => plus = TermId.empty

namespace Definition

/-- A change that leaves the rules of terms alone, with what allows it. -/
inductive Change [Text.Xid] (d : Definition) : Definition → Prop
  /-- A symbol that takes the next id, under a new name. -/
  | symbol {t : Term} (hname : d.findName t.name = none) (hid : t.id = d.terms.length)
      (hkind : t.isLiteral = false) (hprecedence : t.precedence = none) (hrule : t.rule = none)
      (hkey : t.key = t.name) (hword : Text.isWord t.name.toList = true) :
      Change d ((d.listName t.name).add t)
  /-- A literal that takes the next id, with a new text. -/
  | literal {text : String} (htext : text ≠ "") (hnew : d.findLiteral text = none) :
      Change d ((d.listLiteral text).add (Term.ofText d.terms.length text))
  /-- The nonterminal of a repetition, which comes with its rule. -/
  | repetition {r : Repetition} {plus : TermId} {t : Term} (hterms : d.checkTerms r.terms = .ok ())
      (hplus : r.RestsOn d plus)
      (ht : t = { Term.named d.terms.length .nonterminal (r.name d.nameOf) with
        rule := some (r.rule d.terms.length plus) })
      (hname : d.findName t.name = none) (hnew : d.repetitions.lookup r = none) :
      Change d { (d.listName t.name).add t with
        repetitions := d.repetitions ++ [(r, d.terms.length)] }
  | root {id : TermId} {t : Term} (hid : d.userNonterminal id = .ok t) :
      Change d { d with root := some id }
  | operator {id : TermId} {precedence : Precedence} {t : Term} (hid : d.userTerminal id = .ok t) :
      Change d (d.modify id fun t => { t with precedence := some precedence })
  | priority {id : TermId} {priority : Int} {t : Term} (hid : d.userTerminal id = .ok t) :
      Change d (d.modify id fun t => { t with priority })
  | nickname {id : TermId} {nickname : String} {t : Term} (hid : d.term id = .ok t) :
      Change d (d.modify id fun t => { t with nickname := some nickname })

/-- Any number of changes. -/
def Changes [Text.Xid] : Definition → Definition → Prop := Relation.ReflTransGen Change

variable {d d' : Definition} {id : TermId}

theorem Changes.refl [Text.Xid] (d : Definition) : d.Changes d := Relation.ReflTransGen.refl

theorem Changes.trans [Text.Xid] {d'' : Definition} (h : d.Changes d') (h' : d'.Changes d'') :
    d.Changes d'' :=
  Relation.ReflTransGen.trans h h'

theorem Change.changes [Text.Xid] (h : d.Change d') : d.Changes d' := Relation.ReflTransGen.single h

/-! ## What changes keep -/

theorem getElem?_add {u : Term} {t : Term} (ht : d.terms[id]? = some t) :
    (d.add u).terms[id]? = some t := by
  rw [add, List.getElem?_append_left (List.getElem?_eq_some_iff.mp ht).1, ht]

theorem getElem?_modify {i : TermId} {f : Term → Term} {t : Term} (ht : d.terms[id]? = some t) :
    (d.modify i f).terms[id]? = some (if i = id then f t else t) := by
  simp only [modify, List.getElem?_modify, ht]
  split <;> rfl

/-- **A term stays where it is**, with its kind, its name, its key and its rule. -/
theorem Change.exists_term [Text.Xid] (h : d.Change d') {t : Term} (ht : d.terms[id]? = some t) :
    ∃ t', d'.terms[id]? = some t' ∧ t'.kind = t.kind ∧ t'.name = t.name ∧ t'.key = t.key ∧
      t'.rule = t.rule := by
  have hmodify : ∀ {i : TermId} {f : Term → Term}, (∀ t : Term, (f t).kind = t.kind ∧
      (f t).name = t.name ∧ (f t).key = t.key ∧ (f t).rule = t.rule) →
      ∃ t', (d.modify i f).terms[id]? = some t' ∧ t'.kind = t.kind ∧ t'.name = t.name ∧
        t'.key = t.key ∧ t'.rule = t.rule := by
    intro i f hf
    refine ⟨_, getElem?_modify ht, ?_⟩
    split
    · exact hf t
    · exact ⟨rfl, rfl, rfl, rfl⟩
  cases h with
  | symbol _ _ _ _ _ _ _ => exact ⟨t, getElem?_add ht, rfl, rfl, rfl, rfl⟩
  | literal _ _ => exact ⟨t, getElem?_add ht, rfl, rfl, rfl, rfl⟩
  | repetition _ _ _ _ _ => exact ⟨t, getElem?_add ht, rfl, rfl, rfl, rfl⟩
  | root _ => exact ⟨t, ht, rfl, rfl, rfl, rfl⟩
  | operator _ => exact hmodify fun _ => ⟨rfl, rfl, rfl, rfl⟩
  | priority _ => exact hmodify fun _ => ⟨rfl, rfl, rfl, rfl⟩
  | nickname _ => exact hmodify fun _ => ⟨rfl, rfl, rfl, rfl⟩

/-- What each change keeps, any number of them keep. -/
theorem Changes.keep [Text.Xid] {P : Definition → Prop} (hchange : ∀ d d', P d → d.Change d' → P d')
    (h : d.Changes d') (hd : P d) : P d' := by
  induction h with
  | refl => exact hd
  | tail _ hlast ih => exact hchange _ _ ih hlast

theorem nameOf_eq {t : Term} (ht : d.terms[id]? = some t) : d.nameOf id = t.name := by
  rw [nameOf, ht]
  rfl

/-- A term keeps its name. -/
theorem Changes.nameOf_eq [Text.Xid] (h : d.Changes d') (hid : id < d.terms.length) :
    d'.nameOf id = d.nameOf id := by
  have ht := List.getElem?_eq_getElem hid
  obtain ⟨t', ht', hname⟩ : ∃ t', d'.terms[id]? = some t' ∧ t'.name = d.nameOf id := by
    refine h.keep (P := fun d' => ∃ t', d'.terms[id]? = some t' ∧ t'.name = d.nameOf id) ?_
      ⟨_, ht, (Definition.nameOf_eq ht).symm⟩
    rintro _ _ ⟨t, ht, hname⟩ hchange
    obtain ⟨t', ht', -, hname', -⟩ := hchange.exists_term ht
    exact ⟨t', ht', hname'.trans hname⟩
  rw [Definition.nameOf_eq ht', hname]

/-- A term that may be used stays usable. -/
theorem Changes.isUsable [Text.Xid] (h : d.Changes d') (hid : d.isUsable id = true) :
    d'.isUsable id = true := by
  refine h.keep (P := fun d' => d'.isUsable id = true) (fun d d' hd hchange => ?_) hid
  simp only [Definition.isUsable, Bool.and_eq_true, decide_eq_true_eq] at hd ⊢
  obtain ⟨_, ht, -⟩ := hchange.exists_term (List.getElem?_eq_getElem hd.1)
  exact ⟨(List.getElem?_eq_some_iff.mp ht).1, hd.2⟩

/-- A repetition that was made stays. -/
theorem Change.repetitions_subset [Text.Xid] (h : d.Change d') :
    d.repetitions ⊆ d'.repetitions := by
  cases h with
  | repetition _ _ _ _ _ => exact List.subset_append_left _ _
  | _ => exact List.Subset.refl _

/-! ## Steps -/

theorem addNamed_ok {t : Term} (h : d.addNamed t = .ok (d', id)) :
    d.findName t.name = none ∧ d' = (d.listName t.name).add t ∧ id = d.terms.length := by
  unfold addNamed at h
  split at h
  · cases h
  · rename_i hname
    obtain ⟨rfl, rfl⟩ := Prod.mk.inj (Except.ok.inj h)
    exact ⟨Option.not_isSome_iff_eq_none.mp hname, rfl, rfl⟩

theorem changes_literal [Text.Xid] {text : String} (h : d.literal text = .ok (d', id)) :
    d.Changes d' := by
  unfold Definition.literal at h
  split at h
  · cases h
  · rename_i htext
    split at h
    · cases h
      exact Changes.refl _
    · rename_i hnew
      cases h
      exact (Change.literal (by simpa using htext) hnew).changes

theorem terminal_ok [Text.Xid] {name : String} {matcher : Matcher}
    (h : d.terminal name matcher = .ok (d', id)) :
    Text.isWord name.toList = true ∧ d.findName name = none ∧ d' = (d.listName name).add
      { Term.named d.terms.length .terminal name with matcher := some matcher } := by
  unfold Definition.terminal at h
  split at h
  · rename_i hword
    obtain ⟨hname, rfl, -⟩ := addNamed_ok h
    exact ⟨hword, hname, rfl⟩
  · cases h

theorem changes_terminal [Text.Xid] {name : String} {matcher : Matcher}
    (h : d.terminal name matcher = .ok (d', id)) : d.Changes d' := by
  obtain ⟨hword, hname, rfl⟩ := terminal_ok h
  exact (Change.symbol hname rfl rfl rfl rfl rfl hword).changes

theorem nonterminal_ok [Text.Xid] {name : String} (h : d.nonterminal name = .ok (d', id)) :
    Text.isWord name.toList = true ∧ d.findName name = none ∧
      d' = (d.listName name).add (Term.named d.terms.length .nonterminal name) := by
  unfold Definition.nonterminal at h
  split at h
  · rename_i hword
    obtain ⟨hname, rfl, -⟩ := addNamed_ok h
    exact ⟨hword, hname, rfl⟩
  · cases h

theorem changes_nonterminal [Text.Xid] {name : String} (h : d.nonterminal name = .ok (d', id)) :
    d.Changes d' := by
  obtain ⟨hword, hname, rfl⟩ := nonterminal_ok h
  exact (Change.symbol hname rfl rfl rfl rfl rfl hword).changes

theorem rule_ok {lhs : TermId} {e : Expr} (h : d.rule lhs e = .ok d') :
    d.checkTerms e.terms = .ok () ∧ (∃ t, d.userNonterminal lhs = .ok t) ∧
      d' = d.modify lhs fun t => { t with rule := some (extendRule e t.rule) } := by
  unfold Definition.rule at h
  split at h
  · cases h
  · rename_i hterms
    split at h
    · cases h
    · rename_i t hlhs
      cases h
      exact ⟨hterms, ⟨t, hlhs⟩, rfl⟩

theorem setRoot_ok (h : d.setRoot id = .ok d') :
    (∃ t, d.userNonterminal id = .ok t) ∧ d' = { d with root := some id } := by
  unfold Definition.setRoot at h
  split at h
  · cases h
  · rename_i t hid
    cases h
    exact ⟨⟨t, hid⟩, rfl⟩

theorem changes_setRoot [Text.Xid] (h : d.setRoot id = .ok d') : d.Changes d' := by
  obtain ⟨⟨t, hid⟩, rfl⟩ := setRoot_ok h
  exact (Change.root hid).changes

theorem setPriority_ok {value : Int} (h : d.setPriority id value = .ok d') :
    (∃ t, d.userTerminal id = .ok t) ∧
      d' = d.modify id fun t => { t with priority := value } := by
  unfold Definition.setPriority at h
  split at h
  · cases h
  · rename_i t hid
    cases h
    exact ⟨⟨t, hid⟩, rfl⟩

theorem changes_setPriority [Text.Xid] {value : Int} (h : d.setPriority id value = .ok d') :
    d.Changes d' := by
  obtain ⟨⟨t, hid⟩, rfl⟩ := setPriority_ok h
  exact (Change.priority hid).changes

theorem setNickname_ok {text : String} (h : d.setNickname id text = .ok d') :
    (∃ t, d.term id = .ok t) ∧
      d' = d.modify id fun t => { t with nickname := some text } := by
  unfold Definition.setNickname at h
  split at h
  · cases h
  · rename_i t hid
    cases h
    exact ⟨⟨t, hid⟩, rfl⟩

theorem changes_setNickname [Text.Xid] {text : String} (h : d.setNickname id text = .ok d') :
    d.Changes d' := by
  obtain ⟨⟨t, hid⟩, rfl⟩ := setNickname_ok h
  exact (Change.nickname hid).changes

/-- The operators up to the first that is refused are registered one by one. -/
theorem changes_operators [Text.Xid] {precedence : Precedence} :
    ∀ (ids : List TermId) (d : Definition), d.Changes (operators precedence d ids).1
  | [], d => Changes.refl d
  | id :: rest, d => by
    unfold operators
    split
    · exact Changes.refl d
    · rename_i hid
      exact (Change.operator hid).changes.trans (changes_operators rest _)

/-- The nonterminal of a repetition was made before, or it is made now. -/
theorem shareRepetition_ok {r : Repetition} {plus : TermId}
    (h : d.shareRepetition r plus = .ok (d', id)) :
    (d.repetitions.lookup r = some id ∧ d' = d) ∨
      (d.repetitions.lookup r = none ∧ d.checkTerms r.terms = .ok () ∧ id = d.terms.length ∧
        ∃ t, t = { Term.named d.terms.length .nonterminal (r.name d.nameOf) with
            rule := some (r.rule d.terms.length plus) } ∧
          d.findName t.name = none ∧
          d' = { (d.listName t.name).add t with
            repetitions := d.repetitions ++ [(r, d.terms.length)] }) := by
  unfold shareRepetition at h
  split at h
  · rename_i hlookup
    cases h
    exact Or.inl ⟨hlookup, rfl⟩
  · rename_i hnew
    split at h
    · cases h
    · rename_i hterms
      dsimp only at h
      split at h
      · cases h
      · rename_i hadd
        cases h
        obtain ⟨hname, rfl, rfl⟩ := addNamed_ok hadd
        exact Or.inr ⟨hnew, hterms, rfl, _, rfl, hname, rfl⟩

/-- The nonterminal of a repetition is listed, whether it was made before or is new. -/
theorem changes_shareRepetition [Text.Xid] {r : Repetition} {plus : TermId}
    (hplus : r.RestsOn d plus)
    (h : d.shareRepetition r plus = .ok (d', id)) : d.Changes d' ∧ (r, id) ∈ d'.repetitions := by
  rcases shareRepetition_ok h with ⟨hlookup, rfl⟩ | ⟨hnew, hterms, rfl, t, ht, hname, rfl⟩
  · exact ⟨Changes.refl _, mem_of_lookup_eq_some hlookup⟩
  · exact ⟨(Change.repetition hterms hplus ht hname hnew).changes, by simp⟩

/-! ## Commands -/

/-- What holds before a step, and after it unless it is refused, holds in any case. -/
theorem keepOnError_of {P : Definition → Prop} {α : Type} (h : P d)
    {result : Except DefinitionError (Definition × α)}
    (hok : ∀ d' a, result = .ok (d', a) → P d') : P (d.keepOnError result).1 := by
  cases result with
  | error cause => exact h
  | ok pair => exact hok pair.1 pair.2 rfl

theorem withTerm_ok {result : Except DefinitionError (Definition × TermId)} {o : Option TermId}
    (h : withTerm result = .ok (d, o)) : ∃ id, result = .ok (d, id) := by
  cases result with
  | error cause => simp [withTerm] at h
  | ok pair =>
    obtain ⟨rfl, -⟩ := by simpa [withTerm] using h
    exact ⟨pair.2, rfl⟩

theorem withoutTerm_ok {result : Except DefinitionError Definition} {o : Option TermId}
    (h : withoutTerm result = .ok (d, o)) : result = .ok d := by
  cases result with
  | error cause => simp [withoutTerm] at h
  | ok d' =>
    obtain ⟨rfl, -⟩ := by simpa [withoutTerm] using h
    rfl

/-- A step changes the definition at most as it says, and not at all if it is refused. -/
theorem changes_keepOnError [Text.Xid] {α : Type} {result : Except DefinitionError (Definition × α)}
    (h : ∀ d' a, result = .ok (d', a) → d.Changes d') : d.Changes (d.keepOnError result).1 :=
  keepOnError_of (Changes.refl d) h

/-- A repetition other than `x*[s]` is made by itself. -/
theorem restsOn_empty {r : Repetition} (h : ∀ x s, r ≠ .zeroOrMoreSep x s) :
    r.RestsOn d TermId.empty := by
  cases r with
  | zeroOrMoreSep x s => exact absurd rfl (h x s)
  | _ => rfl

theorem changes_repetition [Text.Xid] (d : Definition) (r : Repetition) :
    d.Changes (d.repetition r).1 := by
  unfold Definition.repetition
  split
  · exact Changes.refl d
  · split
    · exact Changes.refl d
    · -- `x*[s]` may be refused after `x+[s]` has been made
      rename_i hshare
      obtain ⟨hchanges, hmem⟩ := changes_shareRepetition (restsOn_empty (by simp)) hshare
      refine hchanges.trans (changes_keepOnError fun _ _ h => ?_)
      exact (changes_shareRepetition (r := .zeroOrMoreSep _ _) hmem h).1
  · rename_i hother _
    have hplus := restsOn_empty (d := d) hother
    exact changes_keepOnError fun _ _ h => (changes_shareRepetition hplus h).1

/-- **A command other than `rule` makes changes and nothing else**, whether it is refused or not. -/
theorem changes_apply [Text.Xid] (d : Definition) {command : Command}
    (h : ∀ lhs e, command ≠ .rule lhs e) : d.Changes (d.apply command).1 := by
  cases command with
  | literal text =>
    exact changes_keepOnError fun _ _ hok => (withTerm_ok hok).elim fun _ => changes_literal
  | terminal name matcher =>
    exact changes_keepOnError fun _ _ hok => (withTerm_ok hok).elim fun _ => changes_terminal
  | nonterminal name =>
    exact changes_keepOnError fun _ _ hok => (withTerm_ok hok).elim fun _ => changes_nonterminal
  | rule lhs e => exact absurd rfl (h lhs e)
  | root id => exact changes_keepOnError fun _ _ hok => changes_setRoot (withoutTerm_ok hok)
  | operators precedence ids => exact changes_operators ids d
  | priority id value =>
    exact changes_keepOnError fun _ _ hok => changes_setPriority (withoutTerm_ok hok)
  | nickname id text =>
    exact changes_keepOnError fun _ _ hok => changes_setNickname (withoutTerm_ok hok)
  | repetition r => exact changes_repetition d r

/-- What changes and a rule keep, a command keeps. -/
theorem apply_of_change [Text.Xid] {P : Definition → Prop} {command : Command} (h : P d)
    (hchange : ∀ d d', P d → d.Change d' → P d')
    (hrule : ∀ d' lhs e, command = .rule lhs e → d.rule lhs e = .ok d' → P d') :
    P (d.apply command).1 := by
  by_cases hcommand : ∃ lhs e, command = .rule lhs e
  · obtain ⟨lhs, e, rfl⟩ := hcommand
    exact keepOnError_of h fun d' _ hok => hrule d' lhs e rfl (withoutTerm_ok hok)
  · exact (changes_apply d fun lhs e heq => hcommand ⟨lhs, e, heq⟩).keep hchange h

/-- **What holds at the start and is kept by changes and by rules** holds of all that commands
make. -/
theorem ofCommands_of_change [Text.Xid] {P : Definition → Prop} {ignoreCase : Bool}
    (hstart : P (start ignoreCase)) (hchange : ∀ d d', P d → d.Change d' → P d')
    (hrule : ∀ d d' lhs e, P d → d.rule lhs e = .ok d' → P d') (commands : List Command) :
    P (ofCommands ignoreCase commands) := by
  have happly : ∀ d command, P d → P (d.apply command).1 := fun d command h =>
    apply_of_change h hchange fun d' lhs e _ hok => hrule d d' lhs e h hok
  exact List.foldlRecOn commands _ hstart fun d h command _ => happly d command h

end Definition

end Lalr

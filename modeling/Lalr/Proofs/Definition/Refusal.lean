import Lalr.Definition.Edit
import Lalr.Proofs.Definition.Sharing

/-!
# What a refused command leaves

Commands change a definition in place, so a refusal could leave half a change behind: a name without
its term, a term without its rule. It does not, as long as all checks of an edit come before its
changes.

* An edit is **atomic** if a refusal leaves the definition as it was (`Edit.Atomic`). An edit that
  first only reads and then cannot be refused is atomic (`Edit.Reads.bind`,
  `Edit.Atomic.bind_succeeds`), and most edits are made this way.
* Two are not. `operators` checks a term, changes it and goes on to the next, so it leaves the terms
  before the first that it refuses (`Edit.operators_refused`). `x*[s]` makes `x+[s]` before it may
  find its own name taken, and leaves what `x+[s]` alone would have made
  (`Edit.share_refused`).
* In place or not, a command does the same (**`perform_eq_apply`**), and so do all commands together
  (`ofCommands_eq_perform`).

**`refused_leaves`** puts this together for every command and every definition.
-/

namespace Lalr

open Text

variable {α β : Type} {d d' : Definition} {cause : DefinitionError}

namespace Edit

/-! ## One edit after the other -/

theorem bind_of_ok {edit : Edit α} {next : α → Edit β} {a : α} (h : edit d = (d', .ok a)) :
    (edit >>= next) d = next a d' := by
  show andThen edit next d = _
  rw [andThen, h]

theorem bind_of_error {edit : Edit α} {next : α → Edit β} (h : edit d = (d', .error cause)) :
    (edit >>= next) d = (d', .error cause) := by
  show andThen edit next d = _
  rw [andThen, h]

/-- An edit in two parts is refused by the first, or by the second. -/
theorem bind_refused {edit : Edit α} {next : α → Edit β}
    (h : (edit >>= next) d = (d', .error cause)) :
    edit d = (d', .error cause) ∨
      ∃ d₁ a, edit d = (d₁, .ok a) ∧ next a d₁ = (d', .error cause) := by
  cases hedit : edit d with
  | mk d₁ outcome =>
    cases outcome with
    | error cause₁ =>
      rw [bind_of_error hedit] at h
      cases h
      exact Or.inl rfl
    | ok a => exact Or.inr ⟨d₁, a, rfl, (bind_of_ok hedit).symm.trans h⟩

theorem refused_of_map {f : α → β} {edit : Edit α} (h : (f <$> edit) d = (d', .error cause)) :
    edit d = (d', .error cause) :=
  (bind_refused h).resolve_right fun ⟨_, _, _, hpure⟩ => by cases hpure

theorem map_apply (f : α → β) (edit : Edit α) (d : Definition) :
    (f <$> edit) d = ((edit d).1, (edit d).2.map f) := by
  cases hedit : edit d with
  | mk d₁ outcome =>
    cases outcome with
    | error cause => exact bind_of_error hedit
    | ok a => exact bind_of_ok hedit

theorem read_bind (get : Definition → α) (next : α → Edit β) (d : Definition) :
    (read get >>= next) d = next (get d) d :=
  bind_of_ok rfl

theorem check_inv {test : Definition → Except DefinitionError α}
    {outcome : Except DefinitionError α} (h : check test d = (d', outcome)) :
    d = d' ∧ test d = outcome :=
  ⟨congrArg Prod.fst h, congrArg Prod.snd h⟩

theorem check_of_ok {test : Definition → Except DefinitionError α} {next : α → Edit β} {a : α}
    (h : test d = .ok a) : (check test >>= next) d = next a d :=
  bind_of_ok (congrArg (d, ·) h)

theorem check_of_error {test : Definition → Except DefinitionError α} {next : α → Edit β}
    (h : test d = .error cause) : (check test >>= next) d = (d, .error cause) :=
  bind_of_error (congrArg (d, ·) h)

/-! ## Atomic edits -/

/-- The edit changes nothing, refused or not. -/
def Reads (edit : Edit α) : Prop := ∀ d, (edit d).1 = d

/-- The edit is never refused. -/
def Succeeds (edit : Edit α) : Prop := ∀ d, ∃ d' a, edit d = (d', .ok a)

/-- **A refusal leaves the definition as it was.** -/
def Atomic (edit : Edit α) : Prop := ∀ d d' cause, edit d = (d', .error cause) → d' = d

theorem Reads.atomic {edit : Edit α} (h : edit.Reads) : edit.Atomic := by
  intro d d' cause herror
  rw [← h d, herror]

theorem Succeeds.atomic {edit : Edit α} (h : edit.Succeeds) : edit.Atomic := by
  intro d d' cause herror
  obtain ⟨d₁, a, hok⟩ := h d
  cases hok.symm.trans herror

/-- Checks may come first. -/
theorem Reads.bind {edit : Edit α} {next : α → Edit β} (h : edit.Reads)
    (hnext : ∀ a, (next a).Atomic) : (edit >>= next).Atomic := by
  intro d d' cause herror
  rcases bind_refused herror with hfirst | ⟨d₁, a, hfirst, hrest⟩
  · exact h.atomic d d' cause hfirst
  · have hsame : d₁ = d := by rw [← h d, hfirst]
    exact hsame ▸ hnext a d₁ d' cause hrest

/-- Changes that cannot be refused may come last. -/
theorem Atomic.bind_succeeds {edit : Edit α} {next : α → Edit β} (h : edit.Atomic)
    (hnext : ∀ a, (next a).Succeeds) : (edit >>= next).Atomic := by
  intro d d' cause herror
  rcases bind_refused herror with hfirst | ⟨d₁, a, -, hrest⟩
  · exact h d d' cause hfirst
  · exact absurd hrest (by
      obtain ⟨d₂, b, hok⟩ := hnext a d₁
      rw [hok]
      exact fun h => by cases h)

theorem Succeeds.bind {edit : Edit α} {next : α → Edit β} (h : edit.Succeeds)
    (hnext : ∀ a, (next a).Succeeds) : (edit >>= next).Succeeds := by
  intro d
  obtain ⟨d₁, a, hfirst⟩ := h d
  rw [bind_of_ok hfirst]
  exact hnext a d₁

theorem reads_read (get : Definition → α) : (read get).Reads := fun _ => rfl

theorem reads_check (test : Definition → Except DefinitionError α) : (check test).Reads :=
  fun _ => rfl

theorem reads_require (condition : Bool) (cause : DefinitionError) :
    (require condition cause).Reads := fun _ => rfl

theorem reads_pure (a : α) : (pure a : Edit α).Reads := fun _ => rfl

theorem succeeds_pure (a : α) : (pure a : Edit α).Succeeds := fun d => ⟨d, a, rfl⟩

theorem succeeds_change (f : Definition → Definition) : (change f).Succeeds :=
  fun d => ⟨f d, (), rfl⟩

theorem atomic_push (kind : TermKind) (name : String) : (push kind name).Atomic :=
  (reads_check _).bind fun _ =>
    ((succeeds_change _).bind fun _ => (succeeds_change _).bind fun _ => succeeds_pure _).atomic

theorem atomic_literal (text : String) : (literal text).Atomic := by
  refine (reads_require _ _).bind fun _ => (reads_read _).bind fun found => ?_
  cases found with
  | some id => exact (reads_pure id).atomic
  | none =>
    refine (reads_read _).bind fun id => Succeeds.atomic ?_
    exact (succeeds_change _).bind fun _ => (succeeds_change _).bind fun _ => succeeds_pure id

theorem atomic_terminal [Text.Xid] (name : String) (matcher : Matcher) :
    (terminal name matcher).Atomic :=
  (reads_require _ _).bind fun _ => (atomic_push _ _).bind_succeeds fun id =>
    (succeeds_change _).bind fun _ => succeeds_pure id

theorem atomic_nonterminal [Text.Xid] (name : String) : (nonterminal name).Atomic :=
  (reads_require _ _).bind fun _ => atomic_push _ _

theorem atomic_rule (lhs : TermId) (e : Expr) : (rule lhs e).Atomic :=
  (reads_check _).bind fun _ => (reads_check _).bind fun _ => (succeeds_change _).atomic

/-- A change after a check. -/
theorem atomic_change (test : Definition → Except DefinitionError α)
    (f : Definition → Definition) : (check test >>= fun _ => change f).Atomic :=
  (reads_check _).bind fun _ => (succeeds_change _).atomic

/-! ## Repetitions -/

theorem atomic_make (r : Repetition) (name : String) (plus : TermId) : (make r name plus).Atomic :=
  (atomic_push _ _).bind_succeeds fun id =>
    (succeeds_change _).bind fun _ => (succeeds_change _).bind fun _ => succeeds_pure id

theorem share_of_some {r : Repetition} {first : Edit TermId} {id : TermId}
    (h : d.repetitions.lookup r = some id) : share r first d = (d, .ok id) := by
  refine (read_bind _ _ d).trans ?_
  rw [h]
  rfl

theorem share_of_none {r : Repetition} {first : Edit TermId} (h : d.repetitions.lookup r = none) :
    share r first d =
      (check (·.checkTerms r.terms) >>= fun _ => first >>= make r (r.name d.nameOf)) d := by
  refine (read_bind _ _ d).trans ?_
  rw [h]
  cases hterms : d.checkTerms r.terms with
  | error cause => exact (check_of_error hterms).trans (check_of_error hterms).symm
  | ok _ =>
    -- The name is read after the check, from the same definition.
    refine ((check_of_ok hterms).trans ?_).trans (check_of_ok hterms).symm
    exact read_bind _ _ d

/-- Where the nonterminal of a repetition is refused, at most what its rule rests on has been
made. -/
theorem share_refused {r : Repetition} {first : Edit TermId}
    (h : share r first d = (d', .error cause)) :
    d.checkTerms r.terms = .error cause ∧ d' = d ∨
      first d = (d', .error cause) ∨ ∃ plus, first d = (d', .ok plus) := by
  cases hlookup : d.repetitions.lookup r with
  | some id =>
    rw [share_of_some hlookup] at h
    cases h
  | none =>
    rw [share_of_none hlookup] at h
    rcases bind_refused h with hcheck | ⟨d₁, _, hcheck, h⟩
    · obtain ⟨rfl, hterms⟩ := check_inv hcheck
      exact Or.inl ⟨hterms, rfl⟩
    obtain ⟨rfl, -⟩ := check_inv hcheck
    rcases bind_refused h with hfirst | ⟨d₂, plus, hfirst, hmake⟩
    · exact Or.inr (Or.inl hfirst)
    · obtain rfl := atomic_make _ _ _ _ _ _ hmake
      exact Or.inr (Or.inr ⟨plus, hfirst⟩)

theorem atomic_share (r : Repetition) (a : TermId) : (share r (pure a)).Atomic := by
  intro d d' cause herror
  rcases share_refused herror with ⟨-, hsame⟩ | hfirst | ⟨plus, hfirst⟩
  · exact hsame
  · cases hfirst
  · cases hfirst
    rfl

end Edit

/-! ## In place or not -/

namespace Definition

/-- A change of the last term is made before it is added. -/
theorem modify_add (d : Definition) (t : Term) (f : Term → Term) :
    (d.add t).modify d.terms.length f = d.add (f t) := by
  have hterms : (d.terms ++ [t]).modify d.terms.length f = d.terms ++ [f t] := by
    rw [List.modify_eq_set_getElem?, List.getElem?_concat_length]
    simp
  exact congrArg (fun terms => { d with terms }) hterms

end Definition

namespace Edit

open Definition

theorem push_of_taken {kind : TermKind} {name : String} (h : (d.findName name).isSome = true) :
    push kind name d = (d, .error (.duplicate name)) :=
  check_of_error (if_pos h)

theorem push_of_new {kind : TermKind} {name : String} (h : ¬(d.findName name).isSome = true) :
    push kind name d =
      ((d.listName name).add (Term.named d.terms.length kind name), .ok d.terms.length) :=
  (check_of_ok (if_neg h)).trans rfl

theorem literal_eq (text : String) (d : Definition) :
    literal text d = d.keepOnError (d.literal text) := by
  cases htext : text.isEmpty with
  | true =>
    rw [Definition.literal, if_pos htext]
    exact check_of_error (by rw [htext]; rfl)
  | false =>
    rw [Definition.literal, htext]
    refine (check_of_ok (a := ()) (by rw [htext]; rfl)).trans ?_
    refine (read_bind _ _ d).trans ?_
    cases d.findLiteral text with
    | some id => rfl
    | none => rfl

theorem terminal_eq [Text.Xid] (name : String) (matcher : Matcher) (d : Definition) :
    terminal name matcher d = d.keepOnError (d.terminal name matcher) := by
  unfold Definition.terminal Definition.addNamed
  by_cases hword : isWord name.toList = true
  · rw [if_pos hword]
    refine (check_of_ok (a := ()) (if_pos hword)).trans ?_
    by_cases hname : (d.findName name).isSome = true
    · rw [if_pos (by exact hname)]
      exact bind_of_error (push_of_taken hname)
    · rw [if_neg (by exact hname)]
      refine (bind_of_ok (push_of_new hname)).trans ?_
      exact congrArg (·, _) (modify_add (d.listName name) _ _)
  · rw [if_neg hword]
    exact check_of_error (if_neg hword)

theorem nonterminal_eq [Text.Xid] (name : String) (d : Definition) :
    nonterminal name d = d.keepOnError (d.nonterminal name) := by
  unfold Definition.nonterminal Definition.addNamed
  by_cases hword : isWord name.toList = true
  · rw [if_pos hword]
    refine (check_of_ok (a := ()) (if_pos hword)).trans ?_
    by_cases hname : (d.findName name).isSome = true
    · rw [if_pos (by exact hname)]
      exact push_of_taken hname
    · rw [if_neg (by exact hname)]
      exact push_of_new hname
  · rw [if_neg hword]
    exact check_of_error (if_neg hword)

/-- A change after a check. -/
theorem change_eq {test : Definition → Except DefinitionError α} {f : Definition → Definition}
    (d : Definition) : (check test >>= fun _ => change f) d =
      d.keepOnError ((test d).map fun _ => (f d, ())) := by
  cases htest : test d with
  | error cause => exact check_of_error htest
  | ok a => exact (check_of_ok htest).trans rfl

theorem rule_eq (lhs : TermId) (e : Expr) (d : Definition) :
    rule lhs e d = d.keepOnError ((d.rule lhs e).map (·, ())) := by
  unfold Definition.rule
  cases hterms : d.checkTerms e.terms with
  | error cause => exact check_of_error hterms
  | ok _ =>
    refine (check_of_ok hterms).trans ((change_eq d).trans ?_)
    cases d.userNonterminal lhs with
    | error cause => rfl
    | ok t => rfl

theorem setRoot_eq (id : TermId) (d : Definition) :
    setRoot id d = d.keepOnError ((d.setRoot id).map (·, ())) := by
  unfold Definition.setRoot
  refine (change_eq d).trans ?_
  cases d.userNonterminal id with
  | error cause => rfl
  | ok t => rfl

theorem setPriority_eq (id : TermId) (priority : Int) (d : Definition) :
    setPriority id priority d = d.keepOnError ((d.setPriority id priority).map (·, ())) := by
  unfold Definition.setPriority
  refine (change_eq d).trans ?_
  cases d.userTerminal id with
  | error cause => rfl
  | ok t => rfl

theorem setNickname_eq (id : TermId) (nickname : String) (d : Definition) :
    setNickname id nickname d = d.keepOnError ((d.setNickname id nickname).map (·, ())) := by
  unfold Definition.setNickname
  refine (change_eq d).trans ?_
  cases d.term id with
  | error cause => rfl
  | ok t => rfl

theorem operators_eq (precedence : Precedence) : ∀ (ids : List TermId) (d : Definition),
    operators precedence ids d = Definition.operators precedence d ids
  | [], d => rfl
  | id :: rest, d => by
    unfold Definition.operators
    cases hid : d.userTerminal id with
    | error cause => exact check_of_error hid
    | ok t =>
      refine (check_of_ok hid).trans ?_
      refine (bind_of_ok rfl).trans (operators_eq precedence rest _)

/-! ### Repetitions -/

theorem make_of_taken {r : Repetition} {name : String} {plus : TermId}
    (h : (d.findName name).isSome = true) :
    make r name plus d = (d, .error (.duplicate name)) :=
  bind_of_error (push_of_taken h)

theorem make_of_new {r : Repetition} {name : String} {plus : TermId}
    (h : ¬(d.findName name).isSome = true) :
    make r name plus d =
      ({ (d.listName name).add { Term.named d.terms.length .nonterminal name with
            rule := some (r.rule d.terms.length plus) } with
          repetitions := d.repetitions ++ [(r, d.terms.length)] }, .ok d.terms.length) := by
  refine (bind_of_ok (push_of_new h)).trans ?_
  refine Prod.ext ?_ rfl
  exact congrArg (fun d' : Definition =>
    { d' with repetitions := d.repetitions ++ [(r, d.terms.length)] })
    (modify_add (d.listName name) _ _)

theorem share_eq (r : Repetition) (plus : TermId) (d : Definition) :
    share r (pure plus) d = d.keepOnError (d.shareRepetition r plus) := by
  unfold Definition.shareRepetition
  cases hlookup : d.repetitions.lookup r with
  | some id => exact share_of_some hlookup
  | none =>
    rw [share_of_none hlookup]
    cases hterms : d.checkTerms r.terms with
    | error cause => exact check_of_error hterms
    | ok _ =>
      refine (check_of_ok hterms).trans ((bind_of_ok rfl).trans ?_)
      dsimp only
      unfold Definition.addNamed
      by_cases hname : (d.findName (r.name d.nameOf)).isSome = true
      · rw [if_pos (by exact hname)]
        exact make_of_taken hname
      · rw [if_neg (by exact hname)]
        exact make_of_new hname

/-- A repetition that was made before is found in place as well. -/
theorem shareRepetition_of_lookup {r : Repetition} {id plus : TermId}
    (h : d.repetitions.lookup r = some id) : d.shareRepetition r plus = .ok (d, id) := by
  unfold Definition.shareRepetition
  rw [h]

theorem keepOnError_shareRepetition {r : Repetition} (hr : ∀ x s, r ≠ .zeroOrMoreSep x s)
    (d : Definition) : d.keepOnError (d.shareRepetition r TermId.empty) = d.repetition r := by
  cases hlookup : d.repetitions.lookup r with
  | some id =>
    rw [repetition_of_lookup hlookup, shareRepetition_of_lookup hlookup]
    rfl
  | none => exact (repetition_of_none hlookup hr).symm

/-- Making `x+[s]` leaves what was read and checked for `x*[s]` as it was. -/
theorem separated_of_share {x s plus : TermId} (hterms : d.checkTerms [x, s] = .ok ())
    (hlookup : d.repetitions.lookup (.zeroOrMoreSep x s) = none)
    (hok : d.shareRepetition (.oneOrMoreSep x s) TermId.empty = .ok (d', plus)) :
    d'.repetitions.lookup (.zeroOrMoreSep x s) = none ∧ d'.checkTerms [x, s] = .ok () ∧
      (Repetition.zeroOrMoreSep x s).name d'.nameOf =
        (Repetition.zeroOrMoreSep x s).name d.nameOf := by
  have hchanges := (changes_shareRepetition (restsOn_empty (by simp)) hok).1
  have husable : ∀ y ∈ [x, s], d.isUsable y = true := fun y => isUsable_of_checkTerms hterms
  refine ⟨?_, checkTerms_of_usable fun y hy => hchanges.isUsable (husable y hy), ?_⟩
  · rcases shareRepetition_ok hok with ⟨-, rfl⟩ | ⟨-, -, -, t, -, -, rfl⟩
    · exact hlookup
    · show (d.repetitions ++ [(Repetition.oneOrMoreSep x s, d.terms.length)]).lookup _ = none
      rw [List.lookup_append, hlookup]
      rfl
  · exact Repetition.name_congr fun y hy =>
      hchanges.nameOf_eq (isUsable_iff.mp (husable y hy)).1

theorem repetition_sep_eq (x s : TermId) (d : Definition) :
    repetition (.zeroOrMoreSep x s) d = d.repetition (.zeroOrMoreSep x s) := by
  cases hlookup : d.repetitions.lookup (.zeroOrMoreSep x s) with
  | some id => exact (share_of_some hlookup).trans (repetition_of_lookup hlookup).symm
  | none =>
    rw [repetition_sep_of_none hlookup]
    refine (share_of_none hlookup).trans ?_
    cases hterms : d.checkTerms [x, s] with
    | error cause =>
      refine (check_of_error hterms).trans ?_
      -- The check of `x+[s]` is the same; where it is skipped, `x*[s]` is checked after all.
      cases hplus : d.repetitions.lookup (.oneOrMoreSep x s) with
      | some plus =>
        rw [shareRepetition_of_lookup hplus]
        refine ((share_eq _ plus d).symm.trans ((share_of_none hlookup).trans ?_)).symm
        exact check_of_error hterms
      | none =>
        have hterms' : d.checkTerms (Repetition.oneOrMoreSep x s).terms = .error cause := hterms
        have hshare : d.shareRepetition (.oneOrMoreSep x s) TermId.empty = .error cause := by
          unfold Definition.shareRepetition
          rw [hplus]
          dsimp only
          rw [hterms']
        rw [hshare]
    | ok _ =>
      refine (check_of_ok hterms).trans ?_
      cases hshare : d.shareRepetition (.oneOrMoreSep x s) TermId.empty with
      | error cause => exact bind_of_error ((share_eq _ _ d).trans (by rw [hshare]; rfl))
      | ok pair =>
        obtain ⟨hlookup', hterms', hname⟩ := separated_of_share hterms hlookup hshare
        refine (bind_of_ok ((share_eq _ _ d).trans (by rw [hshare]; rfl))).trans ?_
        refine Eq.trans ?_ (share_eq _ pair.2 pair.1)
        refine (Eq.trans ?_ (check_of_ok hterms').symm).trans (share_of_none hlookup').symm
        rw [hname]
        exact (bind_of_ok rfl).symm

theorem repetition_eq (r : Repetition) (d : Definition) : repetition r d = d.repetition r := by
  cases r with
  | zeroOrMoreSep x s => exact repetition_sep_eq x s d
  | _ => exact (share_eq _ _ d).trans (keepOnError_shareRepetition (by simp) d)

end Edit

namespace Definition

theorem keepOnError_withTerm (d : Definition)
    (result : Except DefinitionError (Definition × TermId)) :
    d.keepOnError (withTerm result) =
      ((d.keepOnError result).1, (d.keepOnError result).2.map some) := by
  cases result with
  | error cause => rfl
  | ok pair => rfl

theorem keepOnError_withoutTerm (d : Definition) (result : Except DefinitionError Definition) :
    d.keepOnError (withoutTerm result) =
      ((d.keepOnError (result.map (·, ()))).1,
        (d.keepOnError (result.map (·, ()))).2.map fun _ => none) := by
  cases result with
  | error cause => rfl
  | ok d' => rfl

/-- **In place or not, a command does the same.** -/
theorem perform_eq_apply [Text.Xid] (d : Definition) (command : Command) :
    command.perform d = d.apply command := by
  cases command with
  | literal text =>
    refine (Edit.map_apply _ _ d).trans ?_
    rw [Edit.literal_eq, apply, keepOnError_withTerm]
  | terminal name matcher =>
    refine (Edit.map_apply _ _ d).trans ?_
    rw [Edit.terminal_eq, apply, keepOnError_withTerm]
  | nonterminal name =>
    refine (Edit.map_apply _ _ d).trans ?_
    rw [Edit.nonterminal_eq, apply, keepOnError_withTerm]
  | rule lhs e =>
    refine (Edit.map_apply _ _ d).trans ?_
    rw [Edit.rule_eq, apply, keepOnError_withoutTerm]
  | root id =>
    refine (Edit.map_apply _ _ d).trans ?_
    rw [Edit.setRoot_eq, apply, keepOnError_withoutTerm]
  | operators precedence ids =>
    refine (Edit.map_apply _ _ d).trans ?_
    rw [Edit.operators_eq]
    rfl
  | priority id value =>
    refine (Edit.map_apply _ _ d).trans ?_
    rw [Edit.setPriority_eq, apply, keepOnError_withoutTerm]
  | nickname id text =>
    refine (Edit.map_apply _ _ d).trans ?_
    rw [Edit.setNickname_eq, apply, keepOnError_withoutTerm]
  | repetition r =>
    refine (Edit.map_apply _ _ d).trans ?_
    rw [Edit.repetition_eq]
    rfl

/-- What commands make is made by edits. -/
theorem ofCommands_eq_perform [Text.Xid] (ignoreCase : Bool) (commands : List Command) :
    ofCommands ignoreCase commands =
      commands.foldl (fun d command => (command.perform d).1) (start ignoreCase) := by
  simp only [perform_eq_apply]
  rfl

/-! ## What is left -/

/-- The definition with the precedence set for these terms and nothing else changed. -/
def registered (d : Definition) (precedence : Precedence) (ids : List TermId) : Definition :=
  { d with terms := d.terms.mapIdx fun i t =>
      if i ∈ ids then { t with precedence := some precedence } else t }

/-- What a command leaves when it is refused for this cause. -/
inductive Leaves [Text.Xid] (d : Definition) (cause : DefinitionError) : Command → Definition → Prop
  /-- Other commands than the two below leave the definition as it was. -/
  | same {command : Command} (hoperators : ∀ precedence ids, command ≠ .operators precedence ids)
      (hseparated : ∀ x s, command ≠ .repetition (.zeroOrMoreSep x s)) :
      Leaves d cause command d
  /-- The terms before the first that is refused have their precedence. -/
  | operators {precedence : Precedence} {before after : List TermId} {id : TermId}
      (hbefore : ∀ x ∈ before, ∃ t, d.userTerminal x = .ok t)
      (hid : d.userTerminal id = .error cause) :
      Leaves d cause (.operators precedence (before ++ id :: after))
        (d.registered precedence before)
  /-- Nothing has been made for `x*[s]`, nor does `x+[s]` alone make anything. -/
  | unmade {x s : TermId} (halone : (d.apply (.repetition (.oneOrMoreSep x s))).1 = d) :
      Leaves d cause (.repetition (.zeroOrMoreSep x s)) d
  /-- The nonterminal of `x+[s]` has been made, as that repetition alone makes it: with its name,
  its rule and its entry among the repetitions. -/
  | made {d' : Definition} {x s : TermId} {t : Term}
      (halone : d.apply (.repetition (.oneOrMoreSep x s)) = (d', .ok (some d.terms.length)))
      (ht : t = { Term.named d.terms.length .nonterminal ((Repetition.oneOrMoreSep x s).name
        d.nameOf) with rule := some ((Repetition.oneOrMoreSep x s).rule d.terms.length
          TermId.empty) })
      (hmade : d' = { d with
        terms := d.terms ++ [t]
        names := d.names ++ [(t.name, d.terms.length)]
        repetitions := d.repetitions ++ [(.oneOrMoreSep x s, d.terms.length)] }) :
      Leaves d cause (.repetition (.zeroOrMoreSep x s)) d'

theorem registered_nil (d : Definition) (precedence : Precedence) :
    d.registered precedence [] = d := by
  refine congrArg (fun terms => { d with terms }) (List.ext_getElem? fun i => ?_)
  rw [List.getElem?_mapIdx]
  cases d.terms[i]? with
  | none => rfl
  | some t => simp

theorem registered_cons (d : Definition) (precedence : Precedence) (id : TermId)
    (ids : List TermId) : d.registered precedence (id :: ids) = Definition.registered
      (d.modify id fun t => { t with precedence := some precedence }) precedence ids := by
  refine congrArg (fun terms => { d with terms }) (List.ext_getElem? fun i => ?_)
  rw [List.getElem?_mapIdx, List.getElem?_mapIdx, Definition.modify, List.getElem?_modify]
  cases d.terms[i]? with
  | none => rfl
  | some t =>
    by_cases hi : id = i
    · simp [hi]
    · simp [hi, Ne.symm hi]

/-- Whether a terminal is at the author's disposal does not depend on its precedence. -/
theorem userTerminal_modify (d : Definition) (i id : TermId) {f : Term → Term}
    (hf : ∀ t, (f t).isTerminal = t.isTerminal ∧ (f t).name = t.name) :
    (d.modify i f).userTerminal id =
      (d.userTerminal id).map fun t => if i = id then f t else t := by
  unfold Definition.userTerminal Definition.term
  cases ht : d.terms[id]? with
  | none =>
    have hnone : (d.modify i f).terms[id]? = none := by
      simpa [Definition.modify] using List.getElem?_eq_none_iff.mp ht
    rw [hnone]
    rfl
  | some t =>
    simp only [getElem?_modify ht]
    by_cases hi : i = id
    · simp only [if_pos hi, (hf t).1, (hf t).2]
      split <;> rfl
    · simp only [if_neg hi]
      split <;> rfl

theorem operators_refused {precedence : Precedence} : ∀ (ids : List TermId) {d : Definition},
    Edit.operators precedence ids d = (d', .error cause) →
    ∃ before id after, ids = before ++ id :: after ∧
      (∀ x ∈ before, ∃ t, d.userTerminal x = .ok t) ∧ d.userTerminal id = .error cause ∧
      d' = d.registered precedence before
  | [], d, h => by cases h
  | id :: rest, d, h => by
    rcases Edit.bind_refused h with hcheck | ⟨d₁, t, hcheck, hnext⟩
    · obtain ⟨rfl, hid⟩ := Edit.check_inv hcheck
      exact ⟨[], id, rest, rfl, by simp, hid, (registered_nil _ precedence).symm⟩
    obtain ⟨rfl, hid⟩ := Edit.check_inv hcheck
    obtain ⟨_, _, hchange, hrest⟩ :=
      (Edit.bind_refused hnext).resolve_left fun hchange => by cases hchange
    cases hchange
    obtain ⟨before, bad, after, rfl, hbefore, hbad, rfl⟩ := operators_refused rest hrest
    have hkeep := fun x : TermId => userTerminal_modify d id x
      (f := fun t => { t with precedence := some precedence }) fun t => ⟨rfl, rfl⟩
    refine ⟨id :: before, bad, after, rfl, fun x hx => ?_, ?_,
      (registered_cons d precedence id before).symm⟩
    · rcases List.mem_cons.mp hx with rfl | hx
      · exact ⟨t, hid⟩
      · obtain ⟨u, hu⟩ := hbefore x hx
        rw [hkeep] at hu
        cases hx : d.userTerminal x with
        | error cause =>
          rw [hx] at hu
          cases hu
        | ok v => exact ⟨v, rfl⟩
    · rw [hkeep] at hbad
      cases hx : d.userTerminal bad with
      | error cause =>
        rw [hx] at hbad
        cases hbad
        rfl
      | ok v =>
        rw [hx] at hbad
        cases hbad

/-- A refused `x*[s]` leaves what `x+[s]` alone does. -/
theorem separated_refused [Text.Xid] {x s : TermId}
    (h : Edit.repetition (.zeroOrMoreSep x s) d = (d', .error cause)) :
    d.Leaves cause (.repetition (.zeroOrMoreSep x s)) d' := by
  have halone : ∀ {d₁ : Definition} {outcome : Except DefinitionError TermId},
      Edit.share (.oneOrMoreSep x s) (pure TermId.empty) d = (d₁, outcome) →
      d.apply (.repetition (.oneOrMoreSep x s)) = (d₁, outcome.map some) := by
    intro d₁ outcome hshare
    have hrepetition := (Edit.repetition_eq (.oneOrMoreSep x s) d).symm.trans hshare
    rw [apply, hrepetition]
  rcases Edit.share_refused h with ⟨hterms, rfl⟩ | hplus | ⟨plus, hplus⟩
  · -- The terms were refused. They are checked for `x+[s]` as well, unless it is there.
    refine .unmade ?_
    cases hlookup : d'.repetitions.lookup (.oneOrMoreSep x s) with
    | some id => rw [halone (Edit.share_of_some hlookup)]
    | none =>
      rw [halone ((Edit.share_of_none hlookup).trans (Edit.check_of_error hterms))]
  · obtain rfl := Edit.atomic_share _ _ _ _ _ hplus
    exact .unmade (by rw [halone hplus])
  · have hok : d.shareRepetition (.oneOrMoreSep x s) TermId.empty = .ok (d', plus) := by
      have hkeep := (Edit.share_eq _ _ d).symm.trans hplus
      cases hshare : d.shareRepetition (.oneOrMoreSep x s) TermId.empty with
      | error cause =>
        rw [hshare] at hkeep
        cases hkeep
      | ok pair =>
        rw [hshare] at hkeep
        cases hkeep
        rfl
    rcases shareRepetition_ok hok with ⟨-, rfl⟩ | ⟨-, -, rfl, t, ht, -, rfl⟩
    · exact .unmade (by rw [halone hplus])
    · exact .made (halone hplus) ht rfl

/-- **A refused command leaves the definition as it was**, but for two. `operators` has set the
precedence of the terms before the first that it refuses, and changed nothing else. `x*[s]` leaves
what `x+[s]` alone does: nothing, or the one nonterminal with its name, its rule and its entry among
the repetitions. This holds for commands carried out in place, with every check and every change in
its turn, and these do what the definition after a command is said to be. -/
theorem refused_leaves [Text.Xid] {command : Command} (h : command.perform d = (d', .error cause)) :
    d.apply command = (d', .error cause) ∧ d.Leaves cause command d' := by
  refine ⟨(perform_eq_apply d command).symm.trans h, ?_⟩
  cases command with
  | literal text =>
    obtain rfl := Edit.atomic_literal text _ _ _ (Edit.refused_of_map h)
    exact .same (by simp) (by simp)
  | terminal name matcher =>
    obtain rfl := Edit.atomic_terminal name matcher _ _ _ (Edit.refused_of_map h)
    exact .same (by simp) (by simp)
  | nonterminal name =>
    obtain rfl := Edit.atomic_nonterminal name _ _ _ (Edit.refused_of_map h)
    exact .same (by simp) (by simp)
  | rule lhs e =>
    obtain rfl := Edit.atomic_rule lhs e _ _ _ (Edit.refused_of_map h)
    exact .same (by simp) (by simp)
  | root id =>
    obtain rfl := Edit.atomic_change _ _ _ _ _ (Edit.refused_of_map h)
    exact .same (by simp) (by simp)
  | operators precedence ids =>
    obtain ⟨before, id, after, rfl, hbefore, hid, rfl⟩ :=
      operators_refused ids (Edit.refused_of_map h)
    exact .operators hbefore hid
  | priority id value =>
    obtain rfl := Edit.atomic_change _ _ _ _ _ (Edit.refused_of_map h)
    exact .same (by simp) (by simp)
  | nickname id text =>
    obtain rfl := Edit.atomic_change _ _ _ _ _ (Edit.refused_of_map h)
    exact .same (by simp) (by simp)
  | repetition r =>
    have hedit := Edit.refused_of_map h
    cases r with
    | zeroOrMoreSep x s => exact separated_refused hedit
    | _ =>
      obtain rfl := Edit.atomic_share _ _ _ _ _ hedit
      exact .same (by simp) (by simp)

/-- Literals whose names run into each other, and a list made of two of them. -/
def overlappingNames : List Command :=
  [.literal "a", .literal "b'*['c", .literal "a'*['b", .literal "c",
    .repetition (.zeroOrMoreSep 3 4)]

/-- The name of a second list is taken when its `x+[s]` has been made. -/
theorem refused_leaves_overlappingNames :
    (ofCommands false overlappingNames).Leaves (.duplicate "'a'*['b'*['c']")
        (.repetition (.zeroOrMoreSep 5 6))
        ((Command.repetition (.zeroOrMoreSep 5 6)).perform (ofCommands false overlappingNames)).1 ∧
      ((Command.repetition (.zeroOrMoreSep 5 6)).perform
        (ofCommands false overlappingNames)).1.terms.length = 10 := by
  have herror : ((Command.repetition (.zeroOrMoreSep 5 6)).perform
      (ofCommands false overlappingNames)).2 = .error (.duplicate "'a'*['b'*['c']") := by
    decide
  exact ⟨(refused_leaves (Prod.ext rfl herror)).2, by decide⟩

end Definition

end Lalr

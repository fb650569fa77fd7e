import Lalr.Definition.Command

/-!
# Definitions in place

An **edit** carries a step of a definition out in place, as the functions of `GrammarDef` do. It
checks what it needs and makes its changes one after the other: a name is listed before its term is
added, a term is added before it gets its matcher or its rule, and `x*[s]` has its name before
`x+[s]` is made. An edit that is refused stops where it is, and everything it has changed by then
stays changed.

`Command.perform` is the edit for each command. That it does what `Definition.apply` says has to be
shown: it is a matter of the order of checks and changes.
-/

namespace Lalr

open Text

variable [Xid]

/-- A step in place: the definition it leaves, and what it returns unless it is refused. -/
def Edit (α : Type) := Definition → Definition × Except DefinitionError α

namespace Edit

variable {α β : Type}

/-- An edit goes on with what another leaves and returns, if it is not refused. -/
def andThen (edit : Edit α) (next : α → Edit β) : Edit β := fun d =>
  match edit d with
  | (d', .ok a) => next a d'
  | (d', .error cause) => (d', .error cause)

instance : Monad Edit where
  pure a := fun d => (d, .ok a)
  bind := andThen

/-- Reads from the definition. -/
def read (get : Definition → α) : Edit α := fun d => (d, .ok (get d))

/-- Reads from the definition, which may refuse. -/
def check (test : Definition → Except DefinitionError α) : Edit α := fun d => (d, test d)

/-- Refuses unless the condition is met. -/
def require (condition : Bool) (cause : DefinitionError) : Edit Unit :=
  check fun _ => if condition then .ok () else .error cause

/-- Changes the definition. -/
def change (f : Definition → Definition) : Edit Unit := fun d => (f d, .ok ())

/-! ## Terms -/

/-- Adds a symbol under a new name. -/
def push (kind : TermKind) (name : String) : Edit TermId := do
  let id ← check fun d =>
    if (d.findName name).isSome then .error (.duplicate name) else .ok d.terms.length
  change (·.listName name)
  change (·.add (Term.named id kind name))
  return id

def literal (text : String) : Edit TermId := do
  require (!text.isEmpty) .emptyLiteral
  match ← read (·.findLiteral text) with
  | some id => return id
  | none =>
    let id ← read (·.terms.length)
    change (·.listLiteral text)
    change (·.add (Term.ofText id text))
    return id

def terminal (name : String) (matcher : Matcher) : Edit TermId := do
  require (isWord name.toList) (.invalidName name)
  let id ← push .terminal name
  change (·.modify id fun t => { t with matcher := some matcher })
  return id

def nonterminal (name : String) : Edit TermId := do
  require (isWord name.toList) (.invalidName name)
  push .nonterminal name

/-! ## Properties of terms -/

def rule (lhs : TermId) (e : Expr) : Edit Unit := do
  check (·.checkTerms e.terms)
  let _ ← check (·.userNonterminal lhs)
  change (·.modify lhs fun t => { t with rule := some (Definition.extendRule e t.rule) })

def setRoot (id : TermId) : Edit Unit := do
  let _ ← check (·.userNonterminal id)
  change fun d => { d with root := some id }

/-- Registers operators, each after a check of its own. -/
def operators (precedence : Precedence) : List TermId → Edit Unit
  | [] => pure ()
  | id :: rest => do
    let _ ← check (·.userTerminal id)
    change (·.modify id fun t => { t with precedence := some precedence })
    operators precedence rest

def setPriority (id : TermId) (priority : Int) : Edit Unit := do
  let _ ← check (·.userTerminal id)
  change (·.modify id fun t => { t with priority })

def setNickname (id : TermId) (nickname : String) : Edit Unit := do
  let _ ← check (·.term id)
  change (·.modify id fun t => { t with nickname := some nickname })

/-! ## Repetitions -/

/-- Makes the nonterminal of a repetition under a name. -/
def make (r : Repetition) (name : String) (plus : TermId) : Edit TermId := do
  let id ← push .nonterminal name
  change (·.modify id fun t => { t with rule := some (r.rule id plus) })
  change fun d => { d with repetitions := d.repetitions ++ [(r, id)] }
  return id

/-- Makes the nonterminal of a repetition, unless it is there. The edit `first` makes what its rule
rests on. -/
def share (r : Repetition) (first : Edit TermId) : Edit TermId := do
  match ← read (·.repetitions.lookup r) with
  | some id => return id
  | none =>
    check (·.checkTerms r.terms)
    let name ← read fun d => r.name d.nameOf
    let plus ← first
    make r name plus

def repetition : Repetition → Edit TermId
  | .zeroOrMoreSep x s =>
    share (.zeroOrMoreSep x s) (share (.oneOrMoreSep x s) (pure TermId.empty))
  | r => share r (pure TermId.empty)

end Edit

/-- **The edit for a command.** -/
def Command.perform : Command → Edit (Option TermId)
  | .literal text => some <$> Edit.literal text
  | .terminal name matcher => some <$> Edit.terminal name matcher
  | .nonterminal name => some <$> Edit.nonterminal name
  | .rule lhs e => (fun _ => none) <$> Edit.rule lhs e
  | .root id => (fun _ => none) <$> Edit.setRoot id
  | .operators precedence ids => (fun _ => none) <$> Edit.operators precedence ids
  | .priority id value => (fun _ => none) <$> Edit.setPriority id value
  | .nickname id text => (fun _ => none) <$> Edit.setNickname id text
  | .repetition r => some <$> Edit.repetition r

end Lalr

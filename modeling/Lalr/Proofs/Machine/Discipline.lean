import Lalr.Proofs.Machine.Session

/-!
# Stacks and tokens under any table

A session is asked for events again and again, and in between its user does to the buffer whatever
he likes (`Session.Reached`). Nothing is assumed of the table. Still:

* the stacks keep their balance (`Reached.balanced`). So a reduction either would take away the
  bottom state, and is refused before anything is popped, or it finds all its items;
* each token that has been read is held, lies on the stack or has been handed out, once
  (`Session.Accounted`: `Step.tokens_perm` for a step, **`Reached.accounted`** for a run).

**`Reached.discipline`** puts this together with the reasons for an error on an empty stack and with
what a reduction hands out.

Accepting hands out the topmost item and leaves its state where it is. From then on there may be
two more states than items (`unlevel_after_accept`); before, there is at most one more.
-/

namespace Lalr

variable {State Symbol Rule : Type}

/-- The token that a signal brings, if it brings one. -/
def Signal.token? : Signal Symbol → Option (Token Symbol)
  | .token read => some read
  | _ => none

/-- What is pulled from a source was at its front. -/
theorem Source.exists_pulled (source : Source Symbol) :
    ∃ signals, source = signals ++ source.pull.2 ∧
      signals.filterMap Signal.token? = source.pull.1.toOption.join.toList := by
  match source with
  | [] => exact ⟨[], rfl, rfl⟩
  | signal :: rest => cases signal <;> exact ⟨[_], rfl, rfl⟩

/-- The entries that a round hands out. -/
def Round.handed : Round State Symbol Rule → List (Entry Symbol)
  | .goOn _ => []
  | .event _ s => s.args.filterMap id
  | .error _ _ => []

namespace Session

variable {table : Table State Symbol Rule} {source : Source Symbol} {s s' : Session State Symbol}
  {handed : List (Entry Symbol)}

/-! ## Where the tokens are -/

/-- The tokens in a session: those on the stack, and the one ahead. -/
def tokens (s : Session State Symbol) : List (Token Symbol) :=
  s.entries.filterMap Entry.token? ++ s.held.toList

/-- The tokens read so far are those handed out and those still in the session. -/
def Accounted (source : Source Symbol) (s : Session State Symbol) (handed : List (Entry Symbol)) :
    Prop :=
  ∃ pulled, source = pulled ++ s.source ∧
    (pulled.filterMap Signal.token?).Perm (handed.filterMap Entry.token? ++ s.tokens)

theorem accounted_start (table : Table State Symbol Rule) (source : Source Symbol) :
    (start table source).Accounted source [] :=
  ⟨[], rfl, .nil⟩

/-- Asking the source adds what it brings to the tokens read. -/
theorem Accounted.pull (h : s.Accounted source handed) :
    ∃ pulled, source = pulled ++ s.source.pull.2 ∧ (pulled.filterMap Signal.token?).Perm
      (handed.filterMap Entry.token? ++ s.tokens ++ s.source.pull.1.toOption.join.toList) := by
  obtain ⟨pulled, hsource, hperm⟩ := h
  obtain ⟨signals, hpull, htokens⟩ := s.source.exists_pulled
  refine ⟨pulled ++ signals, ?_, ?_⟩
  · rw [List.append_assoc, ← hpull]
    exact hsource
  · rw [List.filterMap_append, htokens]
    exact hperm.append_right _

theorem Sees.accounted (hsees : s.Sees s') (h : s.Accounted source handed) :
    s'.Accounted source handed := by
  cases hsees with
  | known => exact h
  | read hasks hpull =>
    obtain ⟨pulled, hsource, hperm⟩ := h.pull
    rw [hpull] at hsource hperm
    refine ⟨pulled, hsource, ?_⟩
    simpa [tokens, entries, hasks.2, Except.toOption] using hperm

/-- **A step moves tokens about**, and leaves the source alone. -/
theorem Step.tokens_perm {r : Round State Symbol Rule} (h : Step table s r) :
    r.session.source = s.source ∧
      (r.handed.filterMap Entry.token? ++ r.session.tokens).Perm s.tokens := by
  cases h with
  | goto => exact ⟨rfl, .refl _⟩
  | shift _ hheld =>
    refine ⟨rfl, ?_⟩
    simp only [Round.handed, Round.session, tokens, entries, hheld, List.filterMap_nil,
      List.nil_append, List.filterMap_cons, id, Entry.token?, Option.toList_none, List.append_nil,
      Option.toList_some]
    exact (List.perm_append_singleton _ _).symm
  | unexpectedEnd => exact ⟨rfl, .refl _⟩
  | @reduce rule lhs arity =>
    refine ⟨rfl, ?_⟩
    have hitems : ((s.items.take arity).reverse ++ s.items.drop arity).Perm s.items := by
      conv => rhs; rw [← List.take_append_drop arity s.items]
      exact (List.reverse_perm _).append_right _
    simp only [Round.handed, Round.session, tokens, entries, List.filterMap_cons, id,
      Entry.token?, ← List.append_assoc, ← List.filterMap_append]
    exact ((hitems.filterMap _).filterMap _).append_right _
  | noState => exact ⟨rfl, .refl _⟩
  | accept _ hitems =>
    refine ⟨rfl, ?_⟩
    simp only [Round.handed, Round.session, tokens, entries, hitems, ← List.append_assoc,
      ← List.filterMap_append, List.singleton_append]
    exact .refl _
  | noEntry => exact ⟨rfl, .refl _⟩
  | rejected => exact ⟨rfl, .refl _⟩

/-- A round keeps account of the tokens. -/
theorem Balanced.round_accounted (hb : s.Balanced) (table : Table State Symbol Rule)
    (hmode : s.mode ≠ .accepted) (h : s.Accounted source handed) :
    (s.round table).session.Accounted source (handed ++ (s.round table).handed) := by
  rcases hb.round_cases table hmode with
    ⟨message, rest, -, hpull, hround⟩ | ⟨s₁, hsees, -, -, hstep⟩
  · obtain ⟨pulled, hsource, hperm⟩ := h.pull
    rw [hpull] at hsource hperm
    rw [hround]
    refine ⟨pulled, hsource, ?_⟩
    simpa [Round.handed, Round.session, tokens, entries, Except.toOption] using hperm
  · obtain ⟨pulled, hsource, hperm⟩ := hsees.accounted h
    obtain ⟨hsame, hmoved⟩ := hstep.tokens_perm
    refine ⟨pulled, hsame ▸ hsource, hperm.trans ?_⟩
    rw [List.filterMap_append, List.append_assoc]
    exact hmoved.symm.append_left _

/-! ## Runs of calls -/

/-- The sessions that a user comes to, with the entries handed out to him so far. -/
inductive Reached (table : Table State Symbol Rule) (source : Source Symbol) :
    Session State Symbol → List (Entry Symbol) → Prop
  | start : Reached table source (start table source) []
  /-- The user leaves whatever he likes in the buffer. -/
  | refill {s : Session State Symbol} {handed : List (Entry Symbol)}
      (args : List (Slot Symbol)) (h : Reached table source s handed) :
      Reached table source { s with args } handed
  /-- A call that is not over yet. -/
  | goOn {s s' : Session State Symbol} {handed : List (Entry Symbol)}
      (h : Reached table source s handed) (hmode : s.mode ≠ .accepted)
      (hround : s.round table = .goOn s') : Reached table source s' handed
  | event {s s' : Session State Symbol} {handed : List (Entry Symbol)} {e : Event Rule}
      (h : Reached table source s handed) (hnext : s.next table = (.ok e, s')) :
      Reached table source s' (handed ++ s'.args.filterMap id)
  | error {s s' : Session State Symbol} {handed : List (Entry Symbol)} {cause : ParseError}
      (h : Reached table source s handed) (hnext : s.next table = (.error cause, s')) :
      Reached table source s' handed

/-- **The stacks stay balanced.** -/
theorem Reached.balanced (h : Reached table source s handed) : s.Balanced := by
  induction h with
  | start => exact balanced_start table source
  | refill args _ ih => exact ⟨ih.states, ih.heights, ih.filled⟩
  | goOn _ hmode hround ih =>
    have hround' := ih.round table hmode
    rwa [hround] at hround'
  | event _ hnext ih | error _ hnext ih =>
    have hnext' := ih.next table
    rwa [hnext] at hnext'

/-- Silent rounds hand out nothing, and keep account of the tokens. -/
theorem Silent.accounted (hsilent : Silent table s s') (hb : s.Balanced)
    (hmode : s.mode ≠ .accepted) (h : s.Accounted source handed) :
    s'.Accounted source handed := by
  induction hsilent using Relation.ReflTransGen.head_induction_on with
  | refl => exact h
  | head hround _ ih =>
    have hb₁ := hb.round table hmode
    have h₁ := hb.round_accounted table hmode h
    have hmode₁ := hb.reading_of_goOn hmode hround
    rw [hround] at hb₁ h₁
    rw [Round.handed, List.append_nil] at h₁
    exact ih hb₁ (Mode.ne_accepted hmode₁) h₁

/-- A call keeps account of the tokens. -/
theorem Balanced.next_accounted (hb : s.Balanced) (table : Table State Symbol Rule)
    (h : s.Accounted source handed) :
    (s.next table).2.Accounted source (handed ++ (Round.report (s.next table)).handed) := by
  by_cases hmode : s.mode = .accepted
  · rw [next_of_accepted hmode]
    simpa [Round.report, Round.handed] using h
  · obtain ⟨s₀, hsilent, hb₀, hmode₀, hlast⟩ := hb.exists_last table hmode
    have h₀ := hb₀.round_accounted table hmode₀ (hsilent.accounted hb hmode h)
    rwa [hlast, Round.session_report] at h₀

/-- **Each token read is held, lies on the stack or has been handed out**, once. -/
theorem Reached.accounted (h : Reached table source s handed) : s.Accounted source handed := by
  induction h with
  | start => exact accounted_start table source
  | refill args _ ih => exact ih
  | goOn h hmode hround ih =>
    have hround' := h.balanced.round_accounted table hmode ih
    rwa [hround, Round.handed, List.append_nil] at hround'
  | event h hnext ih =>
    have hnext' := h.balanced.next_accounted table ih
    rwa [hnext] at hnext'
  | error h hnext ih =>
    have hnext' := h.balanced.next_accounted table ih
    rwa [hnext, Round.report, Round.handed, List.append_nil] at hnext'

/-! ## What a call comes to -/

/-- Where a call takes its last step, the symbol ahead being known. -/
def Leads (table : Table State Symbol Rule) (s s₁ : Session State Symbol) : Prop :=
  ∃ s₀, Silent table s s₀ ∧ s₀.Sees s₁

/-- A call takes a last step, unless it is too late or the source fails. -/
theorem Balanced.exists_step (hb : s.Balanced) {result : Except ParseError (Event Rule)}
    (hnext : s.next table = (result, s')) (hlate : result ≠ .error .alreadyAccepted)
    (hread : ∀ message, result ≠ .error (.lexer message)) :
    ∃ s₁, s.Leads table s₁ ∧ Step table s₁ (.report (result, s')) := by
  have hmode : s.mode ≠ .accepted := by
    intro hmode
    rw [next_of_accepted hmode] at hnext
    exact hlate (congrArg Prod.fst hnext).symm
  obtain ⟨s₀, hsilent, ⟨message, rest, -, -, hfail⟩ | ⟨s₁, hsees, hb₁, hmode₁, hstep⟩⟩ :=
    hb.next_cases table hmode
  · exact absurd (congrArg Prod.fst (hnext.symm.trans hfail)) (hread message)
  · exact ⟨s₁, ⟨s₀, hsilent, hsees⟩, hnext ▸ hstep ▸ hb₁.step table hmode₁⟩

/-- The states run out only before a reduction that would take away the bottom one. -/
theorem Balanced.noState_of_next (hb : s.Balanced)
    (hnext : s.next table = (.error .noState, s')) :
    s.Leads table s' ∧ ∃ rule lhs arity,
      s'.Faces table (.ok (.reduce rule lhs arity)) ∧ s'.states.length ≤ arity := by
  obtain ⟨s₁, hleads, hstep⟩ := hb.exists_step hnext (by simp) (by simp)
  cases hstep with
  | noState hfaces hle => exact ⟨hleads, _, _, _, hfaces, hle⟩

/-- The items run out only when there is nothing to accept. -/
theorem Balanced.noEntry_of_next (hb : s.Balanced)
    (hnext : s.next table = (.error .noEntry, s')) :
    s.Leads table s' ∧ s'.Faces table (.ok .accept) ∧ s'.items = [] := by
  obtain ⟨s₁, hleads, hstep⟩ := hb.exists_step hnext (by simp) (by simp)
  cases hstep with
  | noEntry hfaces hitems => exact ⟨hleads, hfaces, hitems⟩

/-- **A reduction hands out the topmost items**, bottom to top. -/
theorem Balanced.reduce_of_next (hb : s.Balanced) {rule : Rule}
    (hnext : s.next table = (.ok (.reduce rule), s')) :
    ∃ s₁ lhs arity, s.Leads table s₁ ∧ s₁.Faces table (.ok (.reduce rule lhs arity)) ∧
      arity ≤ s₁.items.length ∧ s'.args = (s₁.items.take arity).reverse ∧
      s'.items = some (.nonterminal lhs) :: s₁.items.drop arity ∧
      s'.states = s₁.states.drop arity := by
  obtain ⟨s₁, hleads, hstep⟩ := hb.exists_step hnext (by simp) (by simp)
  cases hstep with
  | reduce hfaces hlt hle => exact ⟨s₁, _, _, hleads, hfaces, hle, rfl, rfl, rfl⟩

/-- **Stack discipline and conservation of tokens.** Whatever the table, the source and the user
do: the stacks stay level, an error on an empty stack has its one reason, a reduction hands out the
topmost items, and each token that has been read is held, lies on the stack or has been handed
out, once. -/
theorem Reached.discipline (h : Reached table source s handed) :
    s.states ≠ [] ∧
      (s.mode ≠ .accepted → s.states.length - 1 ≤ s.items.length) ∧
      (s.mode = .accepted → s.states.length - 1 ≤ s.items.length + 1) ∧
      none ∉ s.items ∧
      s.Accounted source handed ∧
      (∀ s', s.next table = (.error .noState, s') →
        s.Leads table s' ∧ ∃ rule lhs arity,
          s'.Faces table (.ok (.reduce rule lhs arity)) ∧ s'.states.length ≤ arity) ∧
      (∀ s', s.next table = (.error .noEntry, s') →
        s.Leads table s' ∧ s'.Faces table (.ok .accept) ∧ s'.items = []) ∧
      ∀ rule s', s.next table = (.ok (.reduce rule), s') →
        ∃ s₁ lhs arity, s.Leads table s₁ ∧ s₁.Faces table (.ok (.reduce rule lhs arity)) ∧
          arity ≤ s₁.items.length ∧ s'.args = (s₁.items.take arity).reverse ∧
          s'.items = some (.nonterminal lhs) :: s₁.items.drop arity ∧
          s'.states = s₁.states.drop arity := by
  have hb := h.balanced
  have hheights := hb.heights
  refine ⟨hb.states, ?_, ?_, hb.filled, h.accounted, fun s' => hb.noState_of_next,
    fun s' => hb.noEntry_of_next, fun rule s' => hb.reduce_of_next⟩
  · intro hmode
    have hslack := Mode.slack_le_one hmode
    omega
  · intro hmode
    rw [hmode, Mode.slack] at hheights
    omega

/-- Reduces while a `goto` is due, and then asks for more than there is. -/
def stubborn : Table Nat Nat Nat :=
  .ofRows 0 [[(some 1, .shift 1), (some 5, .reduce 8 6 0), (some 6, .reduce 9 7 4)],
    [(none, .reduce 7 5 1)]] []

/-- The session over the stubborn table after one token has been reduced. -/
def midway : Session Nat Nat :=
  { states := [0], items := [some (.nonterminal 5)], mode := .goto, held := none, source := [],
    args := [some (.token ⟨1, "x"⟩)] }

theorem reached_midway : Reached stubborn [.token ⟨1, "x"⟩] midway [.token ⟨1, "x"⟩] := by
  have hnext : (start stubborn [.token ⟨1, "x"⟩]).next stubborn = (.ok (.reduce 7), midway) := by
    rw [next_of_goOn (by decide) rfl, next_of_event (by decide) rfl]
    rfl
  exact .event .start hnext

theorem discipline_midway :
    Reached stubborn [.token ⟨1, "x"⟩] midway [.token ⟨1, "x"⟩] ∧ midway.mode ≠ .accepted ∧
      midway.states.length - 1 ≤ midway.items.length ∧
      midway.Accounted [.token ⟨1, "x"⟩] [.token ⟨1, "x"⟩] := by
  have hmode : midway.mode ≠ .accepted := by decide
  obtain ⟨-, hlevel, -, -, haccounted, -⟩ := Reached.discipline reached_midway
  exact ⟨reached_midway, hmode, hlevel hmode, haccounted⟩

/-- Takes one symbol, and accepts at the end of input. -/
def oneSymbol : Table Nat Nat Nat :=
  .ofRows 0 [[(some 1, .shift 1)], [(none, .accept)]] []

/-- **Accepting takes an item and leaves its state.** -/
theorem unlevel_after_accept :
    ¬ ∀ (s : Session Nat Nat) (handed : List (Entry Nat)),
      Reached oneSymbol [.token ⟨1, "x"⟩] s handed → s.states.length - 1 ≤ s.items.length := by
  intro hlevel
  have hnext : (start oneSymbol [.token ⟨1, "x"⟩]).next oneSymbol = (.ok .accept,
      { states := [1, 0], items := [], mode := .accepted, held := none, source := [],
        args := [some (.token ⟨1, "x"⟩)] }) := by
    rw [next_of_goOn (by decide) rfl, next_of_event (by decide) rfl]
    rfl
  exact absurd (hlevel _ _ (.event .start hnext)) (by decide)

end Session

end Lalr

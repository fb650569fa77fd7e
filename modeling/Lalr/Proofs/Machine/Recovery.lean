import Lalr.Proofs.Machine.Discipline

/-!
# Errors leave a session as it was

The round that reports an error has changed nothing, apart from what it has read: a token stays
with the session, and a failure of the source is gone (`Balanced.exists_failing`). For a step
without an event depends neither on the source nor on the buffer, and one with an event does so for
the arguments it leaves there only (`Balanced.step_refit`).

* **`Balanced.calls_interspersed`**: failures put into a source show as so many more lexer errors
  among the reports, and change nothing else.
* **`Balanced.next_again`**: after any other error, asking again gives the same error, as long as
  the source has nothing new.

**`Reached.recovery`** puts this together.
-/

namespace Lalr

/-- The second list is the first with extra elements put in. -/
inductive Interspersed {α : Type} (extra : α → Prop) : List α → List α → Prop
  | nil : Interspersed extra [] []
  | keep (a : α) {as bs : List α} (h : Interspersed extra as bs) :
      Interspersed extra (a :: as) (a :: bs)
  | insert {b : α} {as bs : List α} (hb : extra b) (h : Interspersed extra as bs) :
      Interspersed extra as (b :: bs)

namespace Interspersed

variable {α : Type} {extra : α → Prop}

theorem insert_append {cs as bs : List α} (hcs : ∀ c ∈ cs, extra c)
    (h : Interspersed extra as bs) : Interspersed extra as (cs ++ bs) := by
  induction cs with
  | nil => exact h
  | cons c cs ih =>
    exact .insert (hcs c List.mem_cons_self) (ih fun c hc => hcs c (List.mem_cons_of_mem _ hc))

end Interspersed

variable {State Symbol Rule : Type}

/-- The source fails. -/
def Signal.IsFailure (signal : Signal Symbol) : Prop := ∃ message, signal = .failure message

theorem Source.eq_of_pull_some {source rest : Source Symbol} {token : Token Symbol}
    (h : source.pull = (.ok (some token), rest)) : source = .token token :: rest := by
  match source with
  | [] => simp [Source.pull] at h
  | signal :: _ => cases signal <;> simp_all [Source.pull]

/-- Asked before it, the source with failures put in either fails first or does the same. -/
theorem Interspersed.pull {base more : Source Symbol}
    (h : Interspersed Signal.IsFailure base more) :
    (∃ message more', more.pull = (.error message, more') ∧ more'.length < more.length ∧
        Interspersed Signal.IsFailure base more') ∨
      more.pull.1 = base.pull.1 ∧ more.pull.2.length ≤ more.length ∧
        Interspersed Signal.IsFailure base.pull.2 more.pull.2 := by
  cases h with
  | nil => exact Or.inr ⟨rfl, Nat.le_refl _, .nil⟩
  | keep signal h =>
    cases signal <;> exact Or.inr ⟨rfl, Nat.le_succ _, h⟩
  | insert hfailure h =>
    obtain ⟨message, rfl⟩ := hfailure
    exact Or.inl ⟨message, _, rfl, Nat.lt_succ_self _, h⟩

/-- The session before another source and with other contents of the buffer. -/
def Session.refit (source : Source Symbol) (args : List (Slot Symbol)) (s : Session State Symbol) :
    Session State Symbol :=
  { s with source, args }

/-- A round of the session before another source and with other contents of the buffer. An event
fills the buffer anew. -/
def Round.refit (source : Source Symbol) (args : List (Slot Symbol)) :
    Round State Symbol Rule → Round State Symbol Rule
  | .goOn s => .goOn (s.refit source args)
  | .event e s => .event e (s.refit source s.args)
  | .error cause s => .error cause (s.refit source args)

namespace Session

variable {table : Table State Symbol Rule} {source : Source Symbol} {s s' : Session State Symbol}
  {handed : List (Entry Symbol)}

theorem Balanced.refit (hb : s.Balanced) (source : Source Symbol) (args : List (Slot Symbol)) :
    (s.refit source args).Balanced :=
  ⟨hb.states, hb.heights, hb.filled⟩

/-- **A step depends neither on the source nor on the buffer.** -/
theorem Balanced.step_refit (hb : s.Balanced) (hmode : s.mode ≠ .accepted)
    (source : Source Symbol) (args : List (Slot Symbol)) :
    (s.refit source args).step table = (s.step table).refit source args := by
  obtain ⟨q, states, hstates⟩ := List.exists_cons_of_ne_nil hb.states
  have hchoose : table.choose (s.refit source args).entries (s.refit source args).ahead
      (table.action q (s.refit source args).ahead) =
        table.choose s.entries s.ahead (table.action q s.ahead) := rfl
  rw [step_of_states hstates, step_of_states (s := s.refit source args) hstates, act, act, hchoose]
  cases table.choose s.entries s.ahead (table.action q s.ahead) with
  | error cause => rfl
  | ok choice =>
    cases choice with
    | shift target =>
      show (s.refit source args).shift target = (s.shift target).refit source args
      by_cases hgoto : s.mode = .goto
      · have hgoto' : (s.refit source args).mode = .goto := hgoto
        rw [Session.shift, Session.shift, if_pos hgoto, if_pos hgoto']
        rfl
      · have hgoto' : (s.refit source args).mode ≠ .goto := hgoto
        rw [Session.shift, Session.shift, if_neg hgoto, if_neg hgoto']
        cases hheld : s.held <;> simp [Session.refit, Round.refit, hheld]
    | reduce rule lhs arity =>
      show (s.refit source args).reduce rule lhs arity =
        (s.reduce rule lhs arity).refit source args
      by_cases hle : s.states.length ≤ arity
      · have hle' : (s.refit source args).states.length ≤ arity := hle
        rw [Session.reduce, Session.reduce, if_pos hle, if_pos hle']
        rfl
      · rw [(hb.reduce_eq hmode rule lhs (Nat.not_le.mp hle)).2,
          ((hb.refit source args).reduce_eq hmode rule lhs (Nat.not_le.mp hle)).2]
        rfl
    | accept =>
      show (s.refit source args).accept = s.accept.refit source args
      rw [Session.accept, Session.accept]
      cases hitems : s.items <;> simp [Session.refit, Round.refit, hitems]

/-! ## The round that fails -/

/-- **A call that fails has changed nothing in its last round**, apart from what it has read. -/
theorem Balanced.exists_failing (hb : s.Balanced) {cause : ParseError}
    (hnext : s.next table = (.error cause, s')) :
    (s.mode = .accepted ∧ cause = .alreadyAccepted ∧ s' = s) ∨
      ∃ s₀, Silent table s s₀ ∧ s₀.round table = .error cause s' ∧
        s'.states = s₀.states ∧ s'.items = s₀.items ∧ s'.mode = s₀.mode ∧ s'.args = s₀.args ∧
        (s'.held = s₀.held ∨
          ∃ token, s₀.held = none ∧ s₀.source = .token token :: s'.source ∧
            s'.held = some token) := by
  by_cases hmode : s.mode = .accepted
  · rw [next_of_accepted hmode] at hnext
    cases hnext
    exact Or.inl ⟨hmode, rfl, rfl⟩
  obtain ⟨s₀, hsilent, hb₀, hmode₀, hlast⟩ := hb.exists_last table hmode
  rw [hnext] at hlast
  refine Or.inr ⟨s₀, hsilent, hlast, ?_⟩
  rcases hb₀.round_cases table hmode₀ with
    ⟨message, source, -, -, hround⟩ | ⟨s₁, hsees, -, -, hstep⟩
  · cases hlast.symm.trans hround
    exact ⟨rfl, rfl, rfl, rfl, Or.inl rfl⟩
  · rw [hlast] at hstep
    obtain rfl := hstep.eq_of_error
    cases hsees with
    | known => exact ⟨rfl, rfl, rfl, rfl, Or.inl rfl⟩
    | @read token source hasks hpull =>
      refine ⟨rfl, rfl, rfl, rfl, ?_⟩
      cases token with
      | none => exact Or.inl hasks.2.symm
      | some token => exact Or.inr ⟨token, hasks.2, Source.eq_of_pull_some hpull, rfl⟩

/-! ## Asking again -/

/-- **An error comes again** as long as the source has nothing new. -/
theorem Balanced.next_again (hb : s.Balanced) {cause : ParseError}
    (hnext : s.next table = (.error cause, s')) (hcause : ∀ message, cause ≠ .lexer message)
    (args : List (Slot Symbol)) (hend : s'.Asks → source.pull.1 = .ok none) :
    ∃ rest, (s'.refit source args).next table = (.error cause, s'.refit rest args) := by
  by_cases hmode : s.mode = .accepted
  · rw [next_of_accepted hmode] at hnext
    cases hnext
    exact ⟨source, next_of_accepted hmode⟩
  obtain ⟨s₀, -, ⟨message, rest, -, -, hfail⟩ | ⟨s₁, -, hb₁, hmode₁, hstep⟩⟩ :=
    hb.next_cases table hmode
  · cases hnext.symm.trans hfail
    exact absurd rfl (hcause message)
  have hsame : s₁.step table = .error cause s₁ := by
    have hlast := hb₁.step table hmode₁
    rw [hstep, hnext] at hlast
    rw [hstep, hnext, hlast.eq_of_error]
    rfl
  obtain rfl : s' = s₁ := by
    rw [hstep, hnext] at hsame
    cases hsame
    rfl
  have hagain : ∀ rest, (s'.refit rest args).step table = .error cause (s'.refit rest args) := by
    intro rest
    rw [hb₁.step_refit hmode₁, hsame]
    rfl
  have hmode' : (s'.refit source args).mode ≠ .accepted := hmode₁
  by_cases hasks : s'.Asks
  · refine ⟨source.pull.2, next_of_error hmode' ?_⟩
    have hsees : (s'.refit source args).Sees (s'.refit source.pull.2 args) := by
      have hread := Sees.read (s := s'.refit source args) hasks
        (show source.pull = (.ok none, source.pull.2) from Prod.ext (hend hasks) rfl)
      rwa [← hasks.2] at hread
    rw [hsees.round_eq (hb₁.refit source args) table, hagain]
  · refine ⟨source, next_of_error hmode' ?_⟩
    have hsees : (s'.refit source args).Sees (s'.refit source args) := .known hasks
    rw [hsees.round_eq (hb₁.refit source args) table, hagain]

/-! ## Failures of the source -/

/-- What is seen of one call: what it comes to, and what is in the buffer afterwards. -/
abbrev Report (Symbol Rule : Type) := Except ParseError (Event Rule) × List (Slot Symbol)

/-- The source has failed. -/
def IsFailure (report : Report Symbol Rule) : Prop :=
  ∃ message, report.1 = .error (.lexer message)

/-- So many calls, with what is seen of them. -/
def calls (table : Table State Symbol Rule) :
    Nat → Session State Symbol → List (Report Symbol Rule) × Session State Symbol
  | 0, s => ([], s)
  | n + 1, s =>
    let (result, s') := s.next table
    let (reports, last) := calls table n s'
    ((result, s'.args) :: reports, last)

theorem calls_add (m n : Nat) (s : Session State Symbol) : s.calls table (m + n) =
    ((s.calls table m).1 ++ ((s.calls table m).2.calls table n).1,
      ((s.calls table m).2.calls table n).2) := by
  induction m generalizing s with
  | zero => simp [calls]
  | succ m ih => simp [Nat.succ_add, calls, ih]

/-- The first call settles the rest. -/
theorem calls_succ_congr {n : Nat} (h : s.next table = s'.next table) :
    s.calls table (n + 1) = s'.calls table (n + 1) := by
  simp [calls, h]

/-- The calls of a session whose source has failures put in that make up for one call without:
some fail, and the last does what the call without does. -/
def CatchesUp (table : Table State Symbol Rule) (s : Session State Symbol)
    (more : Source Symbol) : Prop :=
  ∃ (n : Nat) (failures : List (Report Symbol Rule)) (more' : Source Symbol),
    (∀ report ∈ failures, IsFailure report) ∧
    Interspersed Signal.IsFailure (s.next table).2.source more' ∧
    (s.refit more s.args).calls table (n + 1) =
      (failures ++ [((s.next table).1, (s.next table).2.args)],
        (s.next table).2.refit more' (s.next table).2.args)

theorem CatchesUp.of_next_eq {more more' : Source Symbol} (hnext : s.next table = s'.next table)
    (hmore : (s.refit more s.args).next table = (s'.refit more' s'.args).next table)
    (h : s'.CatchesUp table more') : s.CatchesUp table more := by
  obtain ⟨n, failures, rest, hfailures, hrest, hcalls⟩ := h
  refine ⟨n, failures, rest, hfailures, hnext ▸ hrest, ?_⟩
  rw [calls_succ_congr hmore, hnext, hcalls]

/-- A call that does the same with the failures put in. -/
theorem CatchesUp.of_next {more : Source Symbol} (more' : Source Symbol)
    (hmore : (s.refit more s.args).next table =
      ((s.next table).1, (s.next table).2.refit more' (s.next table).2.args))
    (h : Interspersed Signal.IsFailure (s.next table).2.source more') :
    s.CatchesUp table more := by
  refine ⟨0, [], more', by simp, h, ?_⟩
  rw [calls, hmore]
  rfl

/-- A failure is reported, and then one goes on as before. -/
theorem CatchesUp.of_failure {more more' : Source Symbol} {message : String}
    (hmore : (s.refit more s.args).next table =
      (.error (.lexer message), s.refit more' s.args))
    (h : s.CatchesUp table more') : s.CatchesUp table more := by
  obtain ⟨n, failures, rest, hfailures, hrest, hcalls⟩ := h
  refine ⟨n + 1, (.error (.lexer message), s.args) :: failures, rest, ?_, hrest, ?_⟩
  · intro report hreport
    rcases List.mem_cons.mp hreport with rfl | hreport
    · exact ⟨message, rfl⟩
    · exact hfailures report hreport
  · rw [calls, hmore]
    dsimp only
    rw [hcalls]
    rfl

theorem Step.args_of_goOn (h : Step table s (.goOn s')) : s'.args = s.args := by
  cases h <;> rfl

theorem Sees.args (h : s.Sees s') : s'.args = s.args := by
  cases h <;> rfl

/-- The last round of a call, or one on the way, does the same with the failures put in. -/
theorem Sees.catchesUp {s₁ : Session State Symbol} {more more' : Source Symbol}
    (hb : s.Balanced) (hmode : s.mode ≠ .accepted) (hsees : s.Sees s₁)
    (hmore : (s.refit more s.args).Sees (s₁.refit more' s.args))
    (h : Interspersed Signal.IsFailure s₁.source more')
    (hrest : ∀ s₂, s.round table = .goOn s₂ → s₂.source = s₁.source →
      s₂.CatchesUp table more') : s.CatchesUp table more := by
  have hb₁ := hsees.balanced hb
  have hmode₁ : s₁.mode ≠ .accepted := hsees.mode ▸ hmode
  have hmode' : (s.refit more s.args).mode ≠ .accepted := hmode
  have hround := hsees.round_eq hb table
  have hround' := hmore.round_eq (hb.refit more s.args) table
  rw [hb₁.step_refit hmode₁, ← hround] at hround'
  have hstep := hb₁.step table hmode₁
  have hsource := hstep.tokens_perm.1
  rw [← hround] at hstep hsource
  cases hcase : s.round table with
  | goOn s₂ =>
    rw [hcase] at hround' hstep hsource
    refine .of_next_eq (next_of_goOn hmode hcase) ?_ (hrest s₂ hcase hsource)
    rw [next_of_goOn hmode' hround', hstep.args_of_goOn, hsees.args]
  | event event s₂ =>
    rw [hcase] at hround' hsource
    have hnext := next_of_event hmode hcase
    refine .of_next more' ?_ ?_
    · rw [next_of_event hmode' hround', hnext]
    · rw [hnext]
      exact hsource ▸ h
  | error cause s₂ =>
    rw [hcase] at hround' hstep hsource
    have hnext := next_of_error hmode hcase
    refine .of_next more' ?_ ?_
    · rw [next_of_error hmode' hround', hnext, hstep.eq_of_error, hsees.args]
    · rw [hnext]
      exact hsource ▸ h

/-- **One catches up with a call** by asking again after each failure. -/
theorem Balanced.catchesUp (hb : s.Balanced) (table : Table State Symbol Rule)
    {more : Source Symbol} (h : Interspersed Signal.IsFailure s.source more) :
    s.CatchesUp table more := by
  -- By induction on the silent rounds to come and the signals left, which a failure shortens.
  induction hload : s.load + more.length using Nat.strongRecOn generalizing s more with
  | ind load ih =>
    by_cases hmode : s.mode = .accepted
    · have hmode' : (s.refit more s.args).mode = .accepted := hmode
      refine .of_next more ?_ ?_
      · rw [next_of_accepted hmode, next_of_accepted hmode']
      · rw [next_of_accepted hmode]
        exact h
    have hmode' : (s.refit more s.args).mode ≠ .accepted := hmode
    have hrest : ∀ {s₁ : Session State Symbol} {more' : Source Symbol},
        Interspersed Signal.IsFailure s₁.source more' → more'.length ≤ more.length →
        ∀ s₂, s.round table = .goOn s₂ → s₂.source = s₁.source → s₂.CatchesUp table more' := by
      intro s₁ more' h₁ hle s₂ hround hsource
      have hb₂ := hb.round table hmode
      have hlt := round_goOn_load_lt hround
      rw [hround] at hb₂
      exact ih _ (by omega) (s := s₂) hb₂ (hsource ▸ h₁) rfl
    by_cases hasks : s.Asks
    · rcases h.pull with ⟨message, more', hpull, hlt, h'⟩ | ⟨hsame, hle, h'⟩
      · have hround : (s.refit more s.args).round table =
            .error (.lexer message) (s.refit more' s.args) :=
          (hb.refit more s.args).round_of_failure table hasks hpull
        exact .of_failure (next_of_error hmode' hround) (ih _ (by omega) hb h' rfl)
      · cases hpull : s.source.pull with
        | mk result rest =>
          rw [hpull] at hsame h'
          have hpull' : more.pull = (result, more.pull.2) := Prod.ext hsame rfl
          cases result with
          | error message =>
            have hnext := next_of_error hmode (hb.round_of_failure table hasks hpull)
            have hnext' := next_of_error hmode'
              ((hb.refit more s.args).round_of_failure table hasks hpull')
            refine .of_next more.pull.2 ?_ ?_
            · rw [hnext, hnext']
              rfl
            · rw [hnext]
              exact h'
          | ok token =>
            exact Sees.catchesUp hb hmode (.read hasks hpull) (.read hasks hpull') h' (hrest h' hle)
    · exact Sees.catchesUp hb hmode (.known hasks) (.known hasks) h (hrest h (Nat.le_refl _))

/-- **Failures of the source change nothing but the number of calls.** -/
theorem Balanced.calls_interspersed (hb : s.Balanced) {more : Source Symbol}
    (h : Interspersed Signal.IsFailure s.source more) (n : Nat) :
    ∃ m rest, Interspersed IsFailure (s.calls table n).1 ((s.refit more s.args).calls table m).1 ∧
      ((s.refit more s.args).calls table m).2 =
        (s.calls table n).2.refit rest (s.calls table n).2.args ∧
      Interspersed Signal.IsFailure (s.calls table n).2.source rest := by
  induction n generalizing s more with
  | zero => exact ⟨0, more, .nil, rfl, h⟩
  | succ n ih =>
    obtain ⟨k, failures, more', hfailures, h', hfirst⟩ := hb.catchesUp table h
    obtain ⟨m, rest, hreports, hlast, hrest⟩ := ih (hb.next table) h'
    refine ⟨k + 1 + m, rest, ?_, ?_, hrest⟩
    · rw [calls_add (k + 1), hfirst, List.append_assoc]
      exact .insert_append hfailures (.keep _ hreports)
    · rw [calls_add (k + 1), hfirst]
      exact hlast

/-! ## Recovery -/

/-- **Errors do not corrupt a session.** Whatever the table, the source and the user do:

* the round that fails changes neither the stacks, the mode nor the buffer, and the token ahead is
  as before or has been read in this round;
* put failures into what is left of the source, and ask again after each: apart from the failures
  the reports are the same, and so is the session that one comes to;
* after any other error, asking again gives the same error and changes nothing, whatever the source
  and the buffer have become, unless the source is asked and has something new. -/
theorem Reached.recovery (h : Reached table source s handed) :
    (∀ cause s', s.next table = (.error cause, s') →
      (s.mode = .accepted ∧ cause = .alreadyAccepted ∧ s' = s) ∨
        ∃ s₀, Silent table s s₀ ∧ s₀.round table = .error cause s' ∧
          s'.states = s₀.states ∧ s'.items = s₀.items ∧ s'.mode = s₀.mode ∧ s'.args = s₀.args ∧
          (s'.held = s₀.held ∨
            ∃ token, s₀.held = none ∧ s₀.source = .token token :: s'.source ∧
              s'.held = some token)) ∧
      (∀ more, Interspersed Signal.IsFailure s.source more → ∀ n, ∃ m rest,
        Interspersed IsFailure (s.calls table n).1 ((s.refit more s.args).calls table m).1 ∧
        ((s.refit more s.args).calls table m).2 =
          (s.calls table n).2.refit rest (s.calls table n).2.args ∧
        Interspersed Signal.IsFailure (s.calls table n).2.source rest) ∧
      ∀ cause s', s.next table = (.error cause, s') → (∀ message, cause ≠ .lexer message) →
        ∀ source' args, (s'.Asks → source'.pull.1 = .ok none) →
          ∃ rest, (s'.refit source' args).next table = (.error cause, s'.refit rest args) := by
  have hb := h.balanced
  refine ⟨fun cause s' => hb.exists_failing, fun more hmore n => hb.calls_interspersed hmore n, ?_⟩
  intro cause s' hnext hcause source' args hend
  exact hb.next_again hnext hcause args hend

theorem recovery_oneSymbol :
    (∃ m rest, Interspersed IsFailure
        ((start oneSymbol [.token ⟨1, "x"⟩]).calls oneSymbol 2).1
        ((start oneSymbol [.failure "e", .token ⟨1, "x"⟩]).calls oneSymbol m).1 ∧
      ((start oneSymbol [.failure "e", .token ⟨1, "x"⟩]).calls oneSymbol m).2 =
        ((start oneSymbol [.token ⟨1, "x"⟩]).calls oneSymbol 2).2.refit rest
          ((start oneSymbol [.token ⟨1, "x"⟩]).calls oneSymbol 2).2.args) ∧
    (start oneSymbol []).next oneSymbol =
      (.error (.rejected .incorrectSymbol), start oneSymbol []) ∧
    ∃ rest, ((start oneSymbol []).refit [.pause] [none]).next oneSymbol =
      (.error (.rejected .incorrectSymbol), (start oneSymbol []).refit rest [none]) := by
  have hmore : Interspersed Signal.IsFailure [.token ⟨1, "x"⟩]
      [.failure "e", .token (⟨1, "x"⟩ : Token Nat)] := .insert ⟨"e", rfl⟩ (.keep _ .nil)
  have hnext : (start oneSymbol []).next oneSymbol =
      (.error (.rejected .incorrectSymbol), start oneSymbol []) :=
    next_of_error (by decide) rfl
  have hstart : ∀ source, Reached oneSymbol source (start oneSymbol source) [] := fun _ => .start
  obtain ⟨-, hfailures, -⟩ := Reached.recovery (hstart [.token ⟨1, "x"⟩])
  obtain ⟨-, -, hagain⟩ := Reached.recovery (hstart [])
  obtain ⟨m, rest, hreports, hlast, -⟩ := hfailures _ hmore 2
  exact ⟨⟨m, rest, hreports, hlast⟩, hnext,
    hagain _ _ hnext (by simp) [.pause] [none] fun _ => rfl⟩

end Session

end Lalr

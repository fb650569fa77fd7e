import Lalr.Machine.Basic

/-!
# Runs of the machine

A user asks a machine for one event after the other, whatever the answers are. `Machine.calls` is
such a run, and a `Call` is what is seen of one of its calls: the outcome, and the tokens shifted
on the way to it (`Machine.shifts`).

`Machine.Accepts` is a run pass by pass that ends by accepting. Its reductions are determined
(`Accepts.unique`) and are what the calls report (**`Accepts.calls_eq`**). `Machine.Ends` is a run
that ends by accepting or by an error, with the same reports (**`Ends.calls_eq`**); these determine
how it ends (`Ends.of_events`).
-/

namespace Lalr

variable {State Symbol Rule : Type}

/-- The token of a stack entry, if it is one. -/
def Entry.token? : Entry Symbol → Option (Token Symbol)
  | .token read => some read
  | .nonterminal _ => none

/-- What is seen of one call. -/
structure Call (Symbol Rule : Type) where
  shifted : List (Token Symbol)
  outcome : Except ParseError (Event Rule × List (Entry Symbol))

/-- The event of a call, without its arguments. -/
def Call.event (call : Call Symbol Rule) : Except ParseError (Event Rule) :=
  call.outcome.map Prod.fst

theorem Mode.ne_accepted {mode : Mode} (h : mode = .reading) : mode ≠ .accepted := by
  rw [h]
  decide

theorem Mode.ne_goto {mode : Mode} (h : mode = .reading) : mode ≠ .goto := by
  rw [h]
  decide

/-- The machine after a pass. -/
def Pass.machine : Pass State Symbol Rule → Machine State Symbol
  | .goOn m _ => m
  | .event _ _ m _ => m
  | .error _ m _ => m

namespace Machine

/-- The tokens that have come onto the stack. -/
def gained (before after : Machine State Symbol) : List (Token Symbol) :=
  (after.entries.take (after.entries.length - before.entries.length)).filterMap Entry.token?

/-- The tokens shifted up to the next event or error. -/
def shifts (table : Table State Symbol Rule) (m : Machine State Symbol)
    (source : Source Symbol) : List (Token Symbol) :=
  if m.mode = .accepted then []
  else
    match _h : pass table m source with
    | .goOn m' source' => gained m m' ++ shifts table m' source'
    | _ => []
termination_by m.load source
decreasing_by exact pass_goOn_load_lt _h

/-- The machine and the source before the last pass of a call. -/
def beforeEvent (table : Table State Symbol Rule) (m : Machine State Symbol)
    (source : Source Symbol) : Machine State Symbol × Source Symbol :=
  if m.mode = .accepted then (m, source)
  else
    match _h : pass table m source with
    | .goOn m' source' => beforeEvent table m' source'
    | _ => (m, source)
termination_by m.load source
decreasing_by exact pass_goOn_load_lt _h

/-- The symbol ahead in the last pass of a call. -/
def aheadOfEvent (table : Table State Symbol Rule) (m : Machine State Symbol)
    (source : Source Symbol) : Except ParseError (Option Symbol) :=
  ((m.beforeEvent table source).1.lookAhead (m.beforeEvent table source).2).1

/-- **A run**: so many calls one after the other, and what is left after them. -/
def calls (table : Table State Symbol Rule) :
    Nat → Machine State Symbol → Source Symbol →
      List (Call Symbol Rule) × Machine State Symbol × Source Symbol
  | 0, m, source => ([], m, source)
  | n + 1, m, source =>
    let (outcome, m', source') := m.nextEvent table source
    let (rest, m'', source'') := calls table n m' source'
    (⟨m.shifts table source, outcome⟩ :: rest, m'', source'')

variable {table : Table State Symbol Rule} {m m' : Machine State Symbol}
  {source source' : Source Symbol}

/-! ## Looking ahead -/

/-- Looking ahead changes the held token at most, and takes it from the source. -/
theorem lookAhead_eq {result : Except ParseError (Option Symbol)}
    (h : m.lookAhead source = (result, m', source')) :
    m' = { m with held := m'.held } ∧ ∀ t : Token Symbol,
      m'.held = some t ∨ Signal.token t ∈ source' → m.held = some t ∨ Signal.token t ∈ source := by
  unfold lookAhead at h
  split at h
  · split at h
    · obtain ⟨-, rfl, rfl⟩ := by simpa using h
      exact ⟨rfl, fun _ ht => ht⟩
    · obtain ⟨-, rfl, rfl⟩ := by simpa using h
      exact ⟨rfl, fun _ ht => ht⟩
  · split at h
    · obtain ⟨-, rfl, rfl⟩ := by simpa using h
      exact ⟨rfl, fun _ ht => ht⟩
    · cases source with
      | nil =>
        obtain ⟨-, rfl, rfl⟩ := by simpa [Source.pull] using h
        exact ⟨rfl, fun t ht => by simp at ht⟩
      | cons signal rest =>
        cases signal with
        | token read =>
          obtain ⟨-, rfl, rfl⟩ := by simpa [Source.pull] using h
          refine ⟨rfl, fun t ht => Or.inr ?_⟩
          rcases ht with ht | ht
          · obtain rfl := Option.some.inj ht
            exact List.mem_cons_self
          · exact List.mem_cons_of_mem _ ht
        | pause =>
          obtain ⟨-, rfl, rfl⟩ := by simpa [Source.pull] using h
          refine ⟨rfl, fun t ht => Or.inr ?_⟩
          rcases ht with ht | ht
          · simp at ht
          · exact List.mem_cons_of_mem _ ht
        | failure message =>
          obtain ⟨-, rfl, rfl⟩ := by simpa [Source.pull] using h
          exact ⟨rfl, fun t ht => ht.imp id (List.mem_cons_of_mem _)⟩

/-- After a reduction the symbol ahead is the left-hand side. -/
theorem lookAhead_of_goto {ahead : Option Symbol} (hmode : m.mode = .goto)
    (h : m.lookAhead source = (.ok ahead, m', source')) :
    ∃ entry rest, m.entries = entry :: rest ∧ ahead = some entry.symbol := by
  unfold lookAhead at h
  rw [if_pos hmode] at h
  split at h
  · simp at h
  · rename_i entry rest hentries
    obtain ⟨rfl, -, -⟩ := by simpa using h
    exact ⟨entry, rest, hentries, rfl⟩

/-- An entry on the stack is all it takes: neither the machine nor the source changes. -/
theorem lookAhead_of_entry (hmode : m.mode = .goto) {entry : Entry Symbol}
    {rest : List (Entry Symbol)} (hentries : m.entries = entry :: rest) :
    m.lookAhead source = (.ok (some entry.symbol), m, source) := by
  unfold lookAhead
  rw [if_pos hmode, hentries]

/-- Otherwise it is that of the held token. -/
theorem lookAhead_of_not_goto {ahead : Option Symbol} (hmode : m.mode ≠ .goto)
    (h : m.lookAhead source = (.ok ahead, m', source')) : ahead = m'.held.map Token.symbol := by
  unfold lookAhead at h
  rw [if_neg hmode] at h
  split at h
  · rename_i token hheld
    obtain ⟨rfl, rfl, -⟩ := by simpa using h
    rw [hheld]
    rfl
  · split at h
    · simp at h
    · obtain ⟨rfl, rfl, -⟩ := by simpa using h
      rfl

/-! ## One call -/

theorem nextEvent_of_accepted (h : m.mode = .accepted) :
    m.nextEvent table source = (.error .alreadyAccepted, m, source) := by
  rw [nextEvent, if_pos h]

theorem nextEvent_of_goOn (hmode : m.mode ≠ .accepted)
    (h : pass table m source = .goOn m' source') :
    m.nextEvent table source = m'.nextEvent table source' := by
  rw [nextEvent, if_neg hmode]
  split
  · rename_i heq
    obtain ⟨rfl, rfl⟩ := Pass.goOn.inj (h.symm.trans heq)
    rfl
  · rename_i heq
    exact absurd (h.symm.trans heq) (by simp)
  · rename_i heq
    exact absurd (h.symm.trans heq) (by simp)

theorem nextEvent_of_event (hmode : m.mode ≠ .accepted) {event : Event Rule}
    {args : List (Entry Symbol)} (h : pass table m source = .event event args m' source') :
    m.nextEvent table source = (.ok (event, args), m', source') := by
  rw [nextEvent, if_neg hmode]
  split
  · rename_i heq
    exact absurd (h.symm.trans heq) (by simp)
  · rename_i heq
    obtain ⟨rfl, rfl, rfl, rfl⟩ := Pass.event.inj (h.symm.trans heq)
    rfl
  · rename_i heq
    exact absurd (h.symm.trans heq) (by simp)

theorem nextEvent_of_error (hmode : m.mode ≠ .accepted) {cause : ParseError}
    (h : pass table m source = .error cause m' source') :
    m.nextEvent table source = (.error cause, m', source') := by
  rw [nextEvent, if_neg hmode]
  split
  · rename_i heq
    exact absurd (h.symm.trans heq) (by simp)
  · rename_i heq
    exact absurd (h.symm.trans heq) (by simp)
  · rename_i heq
    obtain ⟨rfl, rfl, rfl⟩ := Pass.error.inj (h.symm.trans heq)
    rfl

theorem beforeEvent_of_goOn (hmode : m.mode ≠ .accepted)
    (h : pass table m source = .goOn m' source') :
    m.beforeEvent table source = m'.beforeEvent table source' := by
  rw [beforeEvent, if_neg hmode]
  split
  · rename_i heq
    obtain ⟨rfl, rfl⟩ := Pass.goOn.inj (h.symm.trans heq)
    rfl
  · rename_i hother
    exact absurd h (hother m' source')

theorem beforeEvent_of_not_goOn (h : ∀ m' source', pass table m source ≠ .goOn m' source') :
    m.beforeEvent table source = (m, source) := by
  rw [beforeEvent]
  split
  · rfl
  · split
    · rename_i heq
      exact absurd heq (h _ _)
    · rfl

/-- After a silent pass a token is to be read. -/
theorem reading_of_goOn (h : pass table m source = .goOn m' source') : m'.mode = .reading := by
  unfold pass at h
  split at h
  · simp at h
  · split at h
    · simp at h
    · split at h
      · simp at h
      · unfold perform at h
        repeat' split at h
        all_goals first
          | (obtain ⟨rfl, -⟩ := Pass.goOn.inj h; rfl)
          | simp at h

/-- The event of a call is that of its last pass. -/
theorem pass_beforeEvent {event : Event Rule} {args : List (Entry Symbol)}
    (h : m.nextEvent table source = (.ok (event, args), m', source')) :
    pass table (m.beforeEvent table source).1 (m.beforeEvent table source).2 =
      .event event args m' source' := by
  induction hload : m.load source using Nat.strongRecOn generalizing m source with
  | ind load ih =>
    have hmode : m.mode ≠ .accepted := by
      intro hmode
      rw [nextEvent_of_accepted hmode] at h
      simp at h
    cases hp : pass table m source with
    | goOn m₁ source₁ =>
      rw [nextEvent_of_goOn hmode hp] at h
      rw [beforeEvent_of_goOn hmode hp]
      exact ih _ (hload ▸ pass_goOn_load_lt hp) h rfl
    | event event' args' m₁ source₁ =>
      rw [nextEvent_of_event hmode hp] at h
      obtain ⟨⟨rfl, rfl⟩, rfl, rfl⟩ := by simpa using h
      rw [beforeEvent_of_not_goOn (by simp [hp])]
      exact hp
    | error cause m₁ source₁ =>
      rw [nextEvent_of_error hmode hp] at h
      simp at h

/-- So is the error of a call, unless the machine has accepted. -/
theorem pass_beforeEvent_of_error {cause : ParseError} (hmode : m.mode ≠ .accepted)
    (h : m.nextEvent table source = (.error cause, m', source')) :
    pass table (m.beforeEvent table source).1 (m.beforeEvent table source).2 =
      .error cause m' source' := by
  induction hload : m.load source using Nat.strongRecOn generalizing m source with
  | ind load ih =>
    cases hp : pass table m source with
    | goOn m₁ source₁ =>
      rw [nextEvent_of_goOn hmode hp] at h
      rw [beforeEvent_of_goOn hmode hp]
      have hreading := Mode.ne_accepted (reading_of_goOn hp)
      exact ih _ (hload ▸ pass_goOn_load_lt hp) hreading h rfl
    | event event args m₁ source₁ =>
      rw [nextEvent_of_event hmode hp] at h
      simp at h
    | error cause' m₁ source₁ =>
      rw [nextEvent_of_error hmode hp] at h
      obtain ⟨rfl, rfl, rfl⟩ := by simpa using h
      rw [beforeEvent_of_not_goOn (by simp [hp])]
      exact hp

theorem perform_eq_reduce {choice : Choice State Symbol Rule} {rule : Rule}
    {args : List (Entry Symbol)}
    (h : m.perform source choice = .event (.reduce rule) args m' source') :
    ∃ lhs arity, choice = .reduce rule lhs arity := by
  unfold perform at h
  split at h
  · repeat' split at h
    all_goals simp at h
  · rename_i rule' lhs arity
    repeat' split at h
    · simp at h
    · simp at h
    · obtain ⟨hevent, -⟩ := Pass.event.inj h
      obtain rfl := Event.reduce.inj hevent
      exact ⟨lhs, arity, rfl⟩
  · split at h <;> simp at h

theorem perform_eq_accept {choice : Choice State Symbol Rule} {args : List (Entry Symbol)}
    (h : m.perform source choice = .event .accept args m' source') :
    choice = .accept ∧ m'.states = m.states := by
  unfold perform at h
  split at h
  · repeat' split at h
    all_goals simp at h
  · repeat' split at h
    all_goals simp at h
  · split at h
    · simp at h
    · obtain ⟨-, -, rfl, -⟩ := Pass.event.inj h
      exact ⟨rfl, rfl⟩

/-- The event of a pass is what the table settles on in the top state. -/
theorem choice_of_pass {event : Event Rule} {args : List (Entry Symbol)}
    (h : pass table m source = .event event args m' source') :
    ∃ (q : State) (states : List State) (ahead : Option Symbol) (choice : Choice State Symbol Rule)
      (m₁ : Machine State Symbol) (source₁ : Source Symbol),
      (m.lookAhead source).1 = .ok ahead ∧ m₁.states = q :: states ∧
      table.choose m₁.entries ahead (table.action q ahead) = .ok choice ∧
      m₁.perform source₁ choice = .event event args m' source' := by
  unfold pass at h
  split at h
  · simp at h
  · rename_i q states hstates
    split at h
    · simp at h
    · rename_i ahead m₁ source₁ hlook
      split at h
      · simp at h
      · rename_i choice hchoose
        refine ⟨q, states, ahead, choice, m₁, source₁, by rw [hlook], ?_, hchoose, h⟩
        rw [(lookAhead_eq hlook).1]
        exact hstates

/-- A reduction is reported where the table settles on it. -/
theorem choose_of_reduce {rule : Rule} {args : List (Entry Symbol)}
    (h : m.nextEvent table source = (.ok (.reduce rule, args), m', source')) :
    ∃ q entries ahead lhs arity,
      table.choose entries ahead (table.action q ahead) = .ok (.reduce rule lhs arity) := by
  obtain ⟨q, states, ahead, choice, m₂, source₂, -, -, hchoose, hperform⟩ :=
    choice_of_pass (pass_beforeEvent h)
  obtain ⟨lhs, arity, rfl⟩ := perform_eq_reduce hperform
  exact ⟨q, m₂.entries, ahead, lhs, arity, hchoose⟩

/-- The machine accepts where the table settles on it, and stays in that state. -/
theorem choose_of_accept {args : List (Entry Symbol)}
    (h : m.nextEvent table source = (.ok (.accept, args), m', source')) :
    ∃ q states entries ahead, m.aheadOfEvent table source = .ok ahead ∧ m'.states = q :: states ∧
      table.choose entries ahead (table.action q ahead) = .ok .accept := by
  obtain ⟨q, states, ahead, choice, m₂, source₂, hahead, hstates, hchoose, hperform⟩ :=
    choice_of_pass (pass_beforeEvent h)
  obtain ⟨rfl, hsame⟩ := perform_eq_accept hperform
  exact ⟨q, states, m₂.entries, ahead, hahead, hsame.trans hstates, hchoose⟩

theorem shifts_of_goOn (hmode : m.mode ≠ .accepted)
    (h : pass table m source = .goOn m' source') :
    m.shifts table source = gained m m' ++ m'.shifts table source' := by
  rw [shifts, if_neg hmode]
  split
  · rename_i heq
    obtain ⟨rfl, rfl⟩ := Pass.goOn.inj (h.symm.trans heq)
    rfl
  · rename_i hother
    exact absurd h (hother m' source')

/-- Nothing is shifted if the first pass is the last. -/
theorem shifts_of_not_goOn (h : ∀ m' source', pass table m source ≠ .goOn m' source') :
    m.shifts table source = [] := by
  rw [shifts]
  split
  · rfl
  · split
    · rename_i heq
      exact absurd heq (h _ _)
    · rfl

theorem shifts_of_accepted (h : m.mode = .accepted) : m.shifts table source = [] := by
  rw [shifts, if_pos h]

theorem token_mem_of_mem_gained {t : Token Symbol} (h : t ∈ gained m m') :
    .token t ∈ m'.entries := by
  obtain ⟨entry, hentry, ht⟩ := List.mem_filterMap.mp h
  cases entry with
  | nonterminal lhs => exact nomatch ht
  | token read =>
    obtain rfl := Option.some.inj ht
    exact List.mem_of_mem_take hentry

/-! ## Runs -/

theorem calls_succ (n : Nat) :
    calls table (n + 1) m source =
      (⟨m.shifts table source, (m.nextEvent table source).1⟩ ::
          (calls table n (m.nextEvent table source).2.1 (m.nextEvent table source).2.2).1,
        (calls table n (m.nextEvent table source).2.1 (m.nextEvent table source).2.2).2) := rfl

/-- After accepting nothing happens any more. -/
theorem calls_of_accepted (table : Table State Symbol Rule) (source : Source Symbol)
    (h : m.mode = .accepted) : ∀ n : Nat, (calls table n m source).2 = (m, source)
  | 0 => rfl
  | n + 1 => by
    rw [calls_succ, nextEvent_of_accepted h]
    exact calls_of_accepted table source h n

theorem shifted_of_accepted (table : Table State Symbol Rule) (source : Source Symbol)
    (h : m.mode = .accepted) : ∀ n : Nat, ∀ call ∈ (calls table n m source).1, call.shifted = []
  | 0, _, hcall => absurd hcall List.not_mem_nil
  | n + 1, call, hcall => by
    rw [calls_succ, nextEvent_of_accepted h] at hcall
    rcases List.mem_cons.mp hcall with rfl | hcall
    · exact shifts_of_accepted h
    · exact shifted_of_accepted table source h n call hcall

section Keeps

variable {P : Machine State Symbol → Prop}

theorem nextEvent_keeps (hpass : ∀ m source, m.mode ≠ .accepted → P m →
    P (pass table m source).machine) (h : P m) (source : Source Symbol) :
    P (m.nextEvent table source).2.1 := by
  induction hload : m.load source using Nat.strongRecOn generalizing m source with
  | ind load ih =>
    by_cases hmode : m.mode = .accepted
    · rw [nextEvent_of_accepted hmode]
      exact h
    · have hkept := hpass m source hmode h
      cases hp : pass table m source with
      | goOn m' source' =>
        rw [hp] at hkept
        rw [nextEvent_of_goOn hmode hp]
        exact ih _ (hload ▸ pass_goOn_load_lt hp) hkept source' rfl
      | event event args m' source' =>
        rw [hp] at hkept
        rw [nextEvent_of_event hmode hp]
        exact hkept
      | error cause m' source' =>
        rw [hp] at hkept
        rw [nextEvent_of_error hmode hp]
        exact hkept

/-- What every silent pass keeps holds before the last pass of a call. -/
theorem beforeEvent_keeps (hpass : ∀ m source m' source', m.mode ≠ .accepted → P m →
    pass table m source = .goOn m' source' → P m') (hmode : m.mode ≠ .accepted) (h : P m)
    (source : Source Symbol) :
    P (m.beforeEvent table source).1 ∧ (m.beforeEvent table source).1.mode ≠ .accepted := by
  induction hload : m.load source using Nat.strongRecOn generalizing m source with
  | ind load ih =>
    cases hp : pass table m source with
    | goOn m' source' =>
      have hreading := Mode.ne_accepted (reading_of_goOn hp)
      rw [beforeEvent_of_goOn hmode hp]
      exact ih _ (hload ▸ pass_goOn_load_lt hp) hreading (hpass m source m' source' hmode h hp)
        source' rfl
    | event event args m' source' =>
      rw [beforeEvent_of_not_goOn (by simp [hp])]
      exact ⟨h, hmode⟩
    | error cause m' source' =>
      rw [beforeEvent_of_not_goOn (by simp [hp])]
      exact ⟨h, hmode⟩

/-- **What every pass keeps, a run keeps.** -/
theorem calls_keeps (hpass : ∀ m source, m.mode ≠ .accepted → P m →
    P (pass table m source).machine) : ∀ (n : Nat) {m : Machine State Symbol}
    (source : Source Symbol), P m → P (calls table n m source).2.1
  | 0, _, _, h => h
  | n + 1, _, source, h => by
    rw [calls_succ]
    exact calls_keeps hpass n _ (nextEvent_keeps hpass h source)

end Keeps

/-! ## Runs that end -/

/-- The events of a run depend on the first call's outcome and what is left after it. -/
theorem events_succ (n : Nat) :
    (calls table (n + 1) m source).1.map Call.event =
      (m.nextEvent table source).1.map Prod.fst ::
        (calls table n (m.nextEvent table source).2.1
          (m.nextEvent table source).2.2).1.map Call.event := by
  rw [calls_succ, List.map_cons]
  rfl

/-- The machine ends after the reductions, pass by pass: it accepts or it fails. -/
inductive Ends (table : Table State Symbol Rule) :
    Machine State Symbol → Source Symbol → List Rule → Except ParseError (Event Rule) → Prop
  | accept {m m' : Machine State Symbol} {source source' : Source Symbol}
      {args : List (Entry Symbol)} (hmode : m.mode ≠ .accepted)
      (h : pass table m source = .event .accept args m' source') :
      Ends table m source [] (.ok .accept)
  | fail {m m' : Machine State Symbol} {source source' : Source Symbol} {cause : ParseError}
      (hmode : m.mode ≠ .accepted) (h : pass table m source = .error cause m' source') :
      Ends table m source [] (.error cause)
  | reduce {m m' : Machine State Symbol} {source source' : Source Symbol}
      {args : List (Entry Symbol)} {rule : Rule} {rest : List Rule}
      {last : Except ParseError (Event Rule)} (hmode : m.mode ≠ .accepted)
      (h : pass table m source = .event (.reduce rule) args m' source')
      (hrest : Ends table m' source' rest last) : Ends table m source (rule :: rest) last
  | silent {m m' : Machine State Symbol} {source source' : Source Symbol} {rules : List Rule}
      {last : Except ParseError (Event Rule)} (hmode : m.mode ≠ .accepted)
      (h : pass table m source = .goOn m' source')
      (hrest : Ends table m' source' rules last) : Ends table m source rules last

/-- The machine ends after some reductions. -/
def Stops (table : Table State Symbol Rule) (m : Machine State Symbol) (source : Source Symbol) :
    Prop :=
  ∃ rules last, Ends table m source rules last

/-- **A run that ends reports its reductions, and then how it ends.** -/
theorem Ends.calls_eq {rules : List Rule} {last : Except ParseError (Event Rule)}
    (h : Ends table m source rules last) :
    (calls table (rules.length + 1) m source).1.map Call.event =
      rules.map (fun rule => .ok (.reduce rule)) ++ [last] := by
  induction h with
  | accept hmode hpass =>
    rw [events_succ, nextEvent_of_event hmode hpass]
    rfl
  | fail hmode hpass =>
    rw [events_succ, nextEvent_of_error hmode hpass]
    rfl
  | reduce hmode hpass _ ih =>
    rw [events_succ, nextEvent_of_event hmode hpass, List.length_cons, ih]
    rfl
  | silent hmode hpass _ ih => rw [events_succ, nextEvent_of_goOn hmode hpass, ← events_succ, ih]

/-- **The reports of a run determine how it ends.** -/
theorem Ends.of_events {rules rules' : List Rule} {last last' : Except ParseError (Event Rule)}
    (h : Ends table m source rules last) (hlast : ∀ rule, last' ≠ .ok (.reduce rule))
    (hevents : (calls table (rules'.length + 1) m source).1.map Call.event =
      rules'.map (fun rule => .ok (.reduce rule)) ++ [last']) : rules' = rules ∧ last' = last := by
  induction h generalizing rules' with
  | accept hmode hpass =>
    rw [events_succ, nextEvent_of_event hmode hpass] at hevents
    cases rules' with
    | nil => exact ⟨rfl, (List.cons.inj hevents).1.symm⟩
    | cons rule rest => exact nomatch (List.cons.inj hevents).1
  | fail hmode hpass =>
    rw [events_succ, nextEvent_of_error hmode hpass] at hevents
    cases rules' with
    | nil => exact ⟨rfl, (List.cons.inj hevents).1.symm⟩
    | cons rule rest => exact nomatch (List.cons.inj hevents).1
  | reduce hmode hpass _ ih =>
    rw [events_succ, nextEvent_of_event hmode hpass] at hevents
    cases rules' with
    | nil => exact absurd (List.cons.inj hevents).1.symm (hlast _)
    | cons rule rest =>
      obtain ⟨hrule, hrest⟩ := List.cons.inj hevents
      obtain rfl := Event.reduce.inj (Except.ok.inj hrule)
      obtain ⟨rfl, rfl⟩ := ih hrest
      exact ⟨rfl, rfl⟩
  | silent hmode hpass _ ih =>
    rw [events_succ, nextEvent_of_goOn hmode hpass, ← events_succ] at hevents
    exact ih hevents

/-- A run ends by accepting or by an error. -/
theorem Ends.last_cases {rules : List Rule} {last : Except ParseError (Event Rule)}
    (h : Ends table m source rules last) : last = .ok .accept ∨ ∃ cause, last = .error cause := by
  induction h with
  | accept => exact Or.inl rfl
  | fail => exact Or.inr ⟨_, rfl⟩
  | reduce _ _ _ ih => exact ih
  | silent _ _ _ ih => exact ih

namespace Stops

theorem of_error {cause : ParseError} (hmode : m.mode ≠ .accepted)
    (h : pass table m source = .error cause m' source') : Stops table m source :=
  ⟨[], _, .fail hmode h⟩

theorem of_accept {args : List (Entry Symbol)} (hmode : m.mode ≠ .accepted)
    (h : pass table m source = .event .accept args m' source') : Stops table m source :=
  ⟨[], _, .accept hmode h⟩

theorem of_reduce {rule : Rule} {args : List (Entry Symbol)} (hmode : m.mode ≠ .accepted)
    (h : pass table m source = .event (.reduce rule) args m' source')
    (hrest : Stops table m' source') : Stops table m source := by
  obtain ⟨rules, last, hends⟩ := hrest
  exact ⟨rule :: rules, last, .reduce hmode h hends⟩

theorem of_goOn (hmode : m.mode ≠ .accepted) (h : pass table m source = .goOn m' source')
    (hrest : Stops table m' source') : Stops table m source := by
  obtain ⟨rules, last, hends⟩ := hrest
  exact ⟨rules, last, .silent hmode h hends⟩

/-- Whether a run ends depends on its first pass. -/
theorem of_pass_eq (hmode : m.mode ≠ .accepted)
    (hpass : pass table m source = pass table m' source') (h : Stops table m' source') :
    Stops table m source := by
  obtain ⟨rules, last, hends⟩ := h
  cases hends with
  | accept _ h => exact of_accept hmode (hpass.trans h)
  | fail _ h => exact of_error hmode (hpass.trans h)
  | reduce _ h hrest => exact of_reduce hmode (hpass.trans h) ⟨_, _, hrest⟩
  | silent _ h hrest => exact of_goOn hmode (hpass.trans h) ⟨_, _, hrest⟩

end Stops

/-! ## Runs that accept -/

/-- The machine accepts after the reductions, pass by pass. -/
inductive Accepts (table : Table State Symbol Rule) :
    Machine State Symbol → Source Symbol → List Rule → Prop
  | accept {m m' : Machine State Symbol} {source source' : Source Symbol}
      {args : List (Entry Symbol)} (hmode : m.mode ≠ .accepted)
      (h : pass table m source = .event .accept args m' source') : Accepts table m source []
  | reduce {m m' : Machine State Symbol} {source source' : Source Symbol}
      {args : List (Entry Symbol)} {rule : Rule} {rest : List Rule} (hmode : m.mode ≠ .accepted)
      (h : pass table m source = .event (.reduce rule) args m' source')
      (hrest : Accepts table m' source' rest) : Accepts table m source (rule :: rest)
  | silent {m m' : Machine State Symbol} {source source' : Source Symbol} {rules : List Rule}
      (hmode : m.mode ≠ .accepted) (h : pass table m source = .goOn m' source')
      (hrest : Accepts table m' source' rules) : Accepts table m source rules

theorem Accepts.ends {rules : List Rule} (h : Accepts table m source rules) :
    Ends table m source rules (.ok .accept) := by
  induction h with
  | accept hmode hpass => exact .accept hmode hpass
  | reduce hmode hpass _ ih => exact .reduce hmode hpass ih
  | silent hmode hpass _ ih => exact .silent hmode hpass ih

/-- **An accepting run reports its reductions, then that it accepts**, and no error. -/
theorem Accepts.calls_eq {rules : List Rule} (h : Accepts table m source rules) :
    (calls table (rules.length + 1) m source).1.map Call.event =
      rules.map (fun rule => .ok (.reduce rule)) ++ [.ok .accept] :=
  h.ends.calls_eq

/-- **The reductions of an accepting run are determined**: its reports are. -/
theorem Accepts.unique {rules rules' : List Rule} (h : Accepts table m source rules)
    (h' : Accepts table m source rules') : rules = rules' :=
  (h'.ends.of_events (by simp) h.calls_eq).1

end Machine

end Lalr

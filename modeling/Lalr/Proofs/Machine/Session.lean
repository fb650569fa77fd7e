import Lalr.Machine.Session
import Lalr.Proofs.Machine.Run
import Mathlib.Logic.Relation

/-!
# What a session does

A table may ask for anything: it may reduce while a `goto` is due, accept early, or name any arity.
Still the two stacks of a session never drift apart (`Session.Balanced`): there is a state, there
are enough items to go with the states, and no slot on the stack is empty. How many more states
than items there may be depends on what the session is about to do (`Mode.slack`).

So a reduction that leaves a state finds all its items, and what a round does can be listed
(`Session.Step`, **`Balanced.step`**): nothing is half done. Before that, a round may have to read
a token (`Session.Sees`, **`Balanced.round_cases`**).

**`Balanced.next_eq`**: a balanced session does what the machine of `Lalr.Machine.Basic` does, and
hands out the arguments of its events. So what is proved of the machine holds of sessions.
-/

namespace Lalr

/-- How many more states than items there may be. -/
def Mode.slack : Mode → Nat
  | .goto => 0
  | .reading => 1
  | .accepted => 2

theorem Mode.slack_le_one {mode : Mode} (h : mode ≠ .accepted) : mode.slack ≤ 1 := by
  cases mode with
  | reading => exact Nat.le_refl 1
  | goto => exact Nat.zero_le 1
  | accepted => exact absurd rfl h

variable {State Symbol Rule : Type}

/-- The session after a round. -/
def Round.session : Round State Symbol Rule → Session State Symbol
  | .goOn s => s
  | .event _ s => s
  | .error _ s => s

/-- What a call comes to, as what its last round comes to. -/
def Round.report : Except ParseError (Event Rule) × Session State Symbol → Round State Symbol Rule
  | (.ok e, s) => .event e s
  | (.error cause, s) => .error cause s

theorem Round.session_report (call : Except ParseError (Event Rule) × Session State Symbol) :
    (report call).session = call.2 := by
  obtain ⟨_ | _, _⟩ := call <;> rfl

theorem Round.report_eq_error {call : Except ParseError (Event Rule) × Session State Symbol}
    {cause : ParseError} {s : Session State Symbol} :
    report call = .error cause s ↔ call = (.error cause, s) := by
  obtain ⟨_ | _, _⟩ := call <;> simp [report]

namespace Session

variable {table : Table State Symbol Rule} {s s' : Session State Symbol}

/-- There is a state, the items go with the states, and each slot on the stack has its entry. -/
structure Balanced (s : Session State Symbol) : Prop where
  states  : s.states ≠ []
  heights : s.states.length ≤ s.items.length + s.mode.slack
  filled  : none ∉ s.items

theorem balanced_start (table : Table State Symbol Rule) (source : Source Symbol) :
    (start table source).Balanced :=
  ⟨by simp [start], by simp [start, Mode.slack], by simp [start]⟩

/-- After a reduction its left-hand side lies on top. -/
theorem Balanced.exists_top (hb : s.Balanced) (hmode : s.mode = .goto) :
    ∃ entry items, s.items = some entry :: items := by
  have hheights := hb.heights
  have hpos := List.length_pos_iff.mpr hb.states
  rw [hmode, Mode.slack] at hheights
  match hitems : s.items with
  | [] => simp only [hitems, List.length_nil] at hheights; omega
  | none :: items => exact absurd (by simp [hitems]) hb.filled
  | some entry :: items => exact ⟨entry, items, rfl⟩

/-! ## The symbol ahead -/

/-- A token has to be read for the symbol ahead to be known. -/
def Asks (s : Session State Symbol) : Prop := s.mode ≠ .goto ∧ s.held = none

/-- The symbol ahead, as far as it is known. -/
def ahead (s : Session State Symbol) : Option Symbol :=
  if s.mode = .goto then s.items.head?.join.map Entry.symbol else s.held.map Token.symbol

/-- From here the session comes to know the symbol ahead. -/
inductive Sees (s : Session State Symbol) : Session State Symbol → Prop
  | known (h : ¬ s.Asks) : Sees s s
  | read {token : Option (Token Symbol)} {source : Source Symbol} (h : s.Asks)
      (hpull : s.source.pull = (.ok token, source)) : Sees s { s with held := token, source }

theorem Balanced.lookAhead_of_not_asks (hb : s.Balanced) (h : ¬ s.Asks) :
    s.lookAhead = (.ok s.ahead, s) := by
  by_cases hmode : s.mode = .goto
  · obtain ⟨entry, items, hitems⟩ := hb.exists_top hmode
    simp [lookAhead, ahead, hmode, hitems]
  · obtain ⟨token, hheld⟩ := Option.ne_none_iff_exists'.mp fun hheld => h ⟨hmode, hheld⟩
    simp [lookAhead, ahead, hmode, hheld]

theorem lookAhead_of_asks (h : s.Asks) {token : Option (Token Symbol)} {source : Source Symbol}
    (hpull : s.source.pull = (.ok token, source)) :
    s.lookAhead = (.ok ({ s with held := token, source } : Session State Symbol).ahead,
      { s with held := token, source }) := by
  simp [lookAhead, ahead, h.1, h.2, hpull]

theorem lookAhead_of_failure (h : s.Asks) {message : String} {source : Source Symbol}
    (hpull : s.source.pull = (.error message, source)) :
    s.lookAhead = (.error (.lexer message), { s with source }) := by
  simp [lookAhead, h.1, h.2, hpull]

theorem Sees.balanced (h : s.Sees s') (hb : s.Balanced) : s'.Balanced := by
  cases h with
  | known => exact hb
  | read => exact ⟨hb.states, hb.heights, hb.filled⟩

theorem Sees.mode (h : s.Sees s') : s'.mode = s.mode := by
  cases h <;> rfl

/-! ## Steps -/

/-- In the top state, with the symbol ahead, the table settles on this. -/
def Faces (table : Table State Symbol Rule) (s : Session State Symbol)
    (result : Except Refusal (Choice State Symbol Rule)) : Prop :=
  ∃ q ∈ s.states.head?, table.choose s.entries s.ahead (table.action q s.ahead) = result

/-- What a round does once the symbol ahead is known. -/
def step (table : Table State Symbol Rule) (s : Session State Symbol) :
    Round State Symbol Rule :=
  match s.states with
  | [] => .error .noState s
  | current :: _ => s.act table current s.ahead

theorem round_of_states {q : State} {states : List State} (h : s.states = q :: states) :
    s.round table = match s.lookAhead with
      | (.error cause, s) => .error cause s
      | (.ok ahead, s) => s.act table q ahead := by
  rw [round]
  split <;> rename_i hs <;> rw [h] at hs <;> cases hs
  rfl

theorem step_of_states {q : State} {states : List State} (h : s.states = q :: states) :
    s.step table = s.act table q s.ahead := by
  rw [step]
  split <;> rename_i hs <;> rw [h] at hs <;> cases hs
  rfl

/-- **What a step may come to.** An error leaves all as it is. -/
inductive Step (table : Table State Symbol Rule) (s : Session State Symbol) :
    Round State Symbol Rule → Prop
  | goto {target : State} (hmode : s.mode = .goto) (h : s.Faces table (.ok (.shift target))) :
      Step table s (.goOn { s with states := target :: s.states, mode := .reading })
  | shift {target : State} {token : Token Symbol} (hmode : s.mode = .reading)
      (hheld : s.held = some token) (h : s.Faces table (.ok (.shift target))) :
      Step table s (.goOn { s with
        states := target :: s.states, items := some (.token token) :: s.items,
        mode := .reading, held := none })
  | unexpectedEnd {target : State} (hmode : s.mode = .reading) (hheld : s.held = none)
      (h : s.Faces table (.ok (.shift target))) : Step table s (.error .unexpectedEnd s)
  | reduce {rule : Rule} {lhs : Symbol} {arity : Nat}
      (h : s.Faces table (.ok (.reduce rule lhs arity))) (hlt : arity < s.states.length)
      (hle : arity ≤ s.items.length) :
      Step table s (.event (.reduce rule) { s with
        states := s.states.drop arity
        items := some (.nonterminal lhs) :: s.items.drop arity
        mode := .goto
        args := (s.items.take arity).reverse })
  | noState {rule : Rule} {lhs : Symbol} {arity : Nat}
      (h : s.Faces table (.ok (.reduce rule lhs arity))) (hle : s.states.length ≤ arity) :
      Step table s (.error .noState s)
  | accept {item : Slot Symbol} {items : List (Slot Symbol)} (h : s.Faces table (.ok .accept))
      (hitems : s.items = item :: items) :
      Step table s (.event .accept { s with items, args := [item], mode := .accepted })
  | noEntry (h : s.Faces table (.ok .accept)) (hitems : s.items = []) :
      Step table s (.error .noEntry s)
  | rejected {cause : Refusal} (h : s.Faces table (.error cause)) :
      Step table s (.error (.rejected cause) s)

theorem length_resize (n : Nat) (slots : List (Slot Symbol)) : (resize n slots).length = n := by
  simp only [resize, List.length_append, List.length_take, List.length_replicate]
  omega

/-- With as many items and slots as are asked for, the items all come into their places. -/
theorem popInto_eq : ∀ {n : Nat} {s : Session State Symbol}, n ≤ s.items.length →
    n ≤ s.args.length → popInto n s = (.ok (), { s with
      states := s.states.drop n
      items := s.items.drop n
      args := (s.items.take n).reverse ++ s.args.drop n })
  | 0, s, _, _ => rfl
  | n + 1, s, hitems, hargs => by
    match hs : s.items with
    | [] => simp [hs] at hitems
    | item :: items =>
      simp only [hs, List.length_cons, Nat.add_le_add_iff_right] at hitems
      have hset : (s.args.set n item).drop n = item :: s.args.drop (n + 1) := by
        rw [List.drop_eq_getElem_cons (by rw [List.length_set]; exact hargs),
          List.getElem_set_self, List.drop_set_of_lt (Nat.lt_succ_self n)]
      rw [popInto, hs]
      dsimp only
      rw [popInto_eq hitems (by rw [List.length_set]; exact Nat.le_of_succ_le hargs)]
      dsimp only
      rw [hset, List.drop_tail, List.drop_succ_cons, List.take_succ_cons, List.reverse_cons,
        List.append_assoc, List.singleton_append]

/-- **A reduction that leaves a state finds all its items**, whatever the buffer held before. -/
theorem Balanced.reduce_eq (hb : s.Balanced) (hmode : s.mode ≠ .accepted) (rule : Rule)
    (lhs : Symbol) {arity : Nat} (hlt : arity < s.states.length) :
    arity ≤ s.items.length ∧ s.reduce rule lhs arity = .event (.reduce rule) { s with
      states := s.states.drop arity
      items := some (.nonterminal lhs) :: s.items.drop arity
      mode := .goto
      args := (s.items.take arity).reverse } := by
  have hslack := Mode.slack_le_one hmode
  have hle : arity ≤ s.items.length := by
    have hheights := hb.heights
    omega
  have hlength := length_resize arity s.args
  have hdrop : (resize arity s.args).drop arity = [] :=
    List.drop_eq_nil_of_le (Nat.le_of_eq hlength)
  refine ⟨hle, ?_⟩
  have hpop := popInto_eq (s := { s with args := resize arity s.args }) hle
    (Nat.le_of_eq hlength.symm)
  rw [reduce, if_neg (Nat.not_le.mpr hlt), hpop]
  dsimp only
  rw [hdrop, List.append_nil]

/-- **A step is one of those listed.** -/
theorem Balanced.step (hb : s.Balanced) (table : Table State Symbol Rule)
    (hmode : s.mode ≠ .accepted) : Step table s (s.step table) := by
  obtain ⟨q, states, hstates⟩ := List.exists_cons_of_ne_nil hb.states
  have hq : q ∈ s.states.head? := by simp [hstates]
  rw [step_of_states hstates, act]
  cases hchoose : table.choose s.entries s.ahead (table.action q s.ahead) with
  | error cause => exact .rejected ⟨q, hq, hchoose⟩
  | ok choice =>
    cases choice with
    | shift target =>
      show Step table s (s.shift target)
      by_cases hgoto : s.mode = .goto
      · rw [Session.shift, if_pos hgoto]
        exact .goto hgoto ⟨q, hq, hchoose⟩
      · have hreading : s.mode = .reading := by cases hm : s.mode <;> simp_all
        rw [Session.shift, if_neg hgoto]
        cases hheld : s.held with
        | none => exact .unexpectedEnd hreading hheld ⟨q, hq, hchoose⟩
        | some token => exact .shift hreading hheld ⟨q, hq, hchoose⟩
    | reduce rule lhs arity =>
      show Step table s (s.reduce rule lhs arity)
      by_cases hle : s.states.length ≤ arity
      · rw [Session.reduce, if_pos hle]
        exact .noState ⟨q, hq, hchoose⟩ hle
      · obtain ⟨hitems, hreduce⟩ := hb.reduce_eq hmode rule lhs (Nat.not_le.mp hle)
        rw [hreduce]
        exact .reduce ⟨q, hq, hchoose⟩ (Nat.not_le.mp hle) hitems
    | accept =>
      show Step table s s.accept
      rw [Session.accept]
      split
      · rename_i hitems
        exact .noEntry ⟨q, hq, hchoose⟩ hitems
      · rename_i item items hitems
        exact .accept ⟨q, hq, hchoose⟩ hitems

/-- **A step keeps the balance.** -/
theorem Step.balanced {r : Round State Symbol Rule} (h : Step table s r) (hb : s.Balanced)
    (hmode : s.mode ≠ .accepted) : r.session.Balanced := by
  have hslack := Mode.slack_le_one hmode
  have hheights := hb.heights
  cases h with
  | goto hgoto =>
    refine ⟨by simp [Round.session], ?_, hb.filled⟩
    rw [hgoto, Mode.slack] at hheights
    exact Nat.succ_le_succ hheights
  | shift =>
    refine ⟨by simp [Round.session], ?_, ?_⟩
    · simp only [Round.session, List.length_cons, Mode.slack]
      omega
    · simpa [Round.session] using hb.filled
  | unexpectedEnd => exact hb
  | reduce _ hlt hle =>
    refine ⟨?_, ?_, ?_⟩
    · intro hnil
      exact absurd (List.drop_eq_nil_iff.mp hnil) (Nat.not_le.mpr hlt)
    · simp only [Round.session, List.length_cons, List.length_drop, Mode.slack]
      omega
    · intro hmem
      rcases List.mem_cons.mp hmem with hmem | hmem
      · exact nomatch hmem
      · exact hb.filled (List.mem_of_mem_drop hmem)
  | noState => exact hb
  | accept _ hitems =>
    refine ⟨hb.states, ?_, ?_⟩
    · simp only [hitems, List.length_cons] at hheights
      simp only [Round.session, Mode.slack]
      omega
    · intro hmem
      exact hb.filled (hitems ▸ List.mem_cons_of_mem _ hmem)
  | noEntry => exact hb
  | rejected => exact hb

/-- An error leaves all as it is. -/
theorem Step.eq_of_error {cause : ParseError} (h : Step table s (.error cause s')) : s' = s := by
  cases h <;> rfl

/-- After a silent step a token is to be read. -/
theorem Step.reading_of_goOn (h : Step table s (.goOn s')) : s'.mode = .reading := by
  cases h <;> rfl

/-! ## Rounds -/

theorem Sees.round_eq (h : s.Sees s') (hb : s.Balanced) (table : Table State Symbol Rule) :
    s.round table = s'.step table := by
  obtain ⟨q, states, hstates⟩ := List.exists_cons_of_ne_nil hb.states
  rw [round_of_states hstates]
  cases h with
  | known h => rw [hb.lookAhead_of_not_asks h, step_of_states hstates]
  | @read token source h hpull =>
    rw [lookAhead_of_asks h hpull, step_of_states (s := { s with held := token, source }) hstates]

theorem Balanced.round_of_failure (hb : s.Balanced) (table : Table State Symbol Rule)
    (h : s.Asks) {message : String} {source : Source Symbol}
    (hpull : s.source.pull = (.error message, source)) :
    s.round table = .error (.lexer message) { s with source } := by
  obtain ⟨q, states, hstates⟩ := List.exists_cons_of_ne_nil hb.states
  rw [round_of_states hstates, lookAhead_of_failure h hpull]

/-- **A round fails to read, or it takes a step with the symbol ahead known.** -/
theorem Balanced.round_cases (hb : s.Balanced) (table : Table State Symbol Rule)
    (hmode : s.mode ≠ .accepted) :
    (∃ message source, s.Asks ∧ s.source.pull = (.error message, source) ∧
      s.round table = .error (.lexer message) { s with source }) ∨
    ∃ s₁, s.Sees s₁ ∧ s₁.Balanced ∧ s₁.mode = s.mode ∧ Step table s₁ (s.round table) := by
  have hsees : ∀ {s₁}, s.Sees s₁ →
      s.Sees s₁ ∧ s₁.Balanced ∧ s₁.mode = s.mode ∧ Step table s₁ (s.round table) := by
    intro s₁ h
    refine ⟨h, h.balanced hb, h.mode, ?_⟩
    rw [h.round_eq hb table]
    exact (h.balanced hb).step table (h.mode ▸ hmode)
  by_cases h : s.Asks
  · cases hpull : s.source.pull with
    | mk result source =>
      cases result with
      | error message => exact Or.inl ⟨message, source, h, rfl, hb.round_of_failure table h hpull⟩
      | ok token => exact Or.inr ⟨_, hsees (.read h hpull)⟩
  · exact Or.inr ⟨s, hsees (.known h)⟩

/-- **A round keeps the balance.** -/
theorem Balanced.round (hb : s.Balanced) (table : Table State Symbol Rule)
    (hmode : s.mode ≠ .accepted) : (s.round table).session.Balanced := by
  rcases hb.round_cases table hmode with
    ⟨message, source, -, -, hround⟩ | ⟨s₁, -, hb₁, hmode₁, hstep⟩
  · rw [hround]
    exact ⟨hb.states, hb.heights, hb.filled⟩
  · exact hstep.balanced hb₁ (hmode₁ ▸ hmode)

/-- After a silent round a token is to be read. -/
theorem Balanced.reading_of_goOn (hb : s.Balanced) (hmode : s.mode ≠ .accepted)
    (h : s.round table = .goOn s') : s'.mode = .reading := by
  rcases hb.round_cases table hmode with
    ⟨message, source, -, -, hround⟩ | ⟨s₁, -, -, -, hstep⟩
  · exact nomatch h.symm.trans hround
  · exact (h ▸ hstep).reading_of_goOn

/-! ## Calls -/

theorem next_of_accepted (h : s.mode = .accepted) :
    s.next table = (.error .alreadyAccepted, s) := by
  rw [next, if_pos h]

theorem next_of_goOn (hmode : s.mode ≠ .accepted) (h : s.round table = .goOn s') :
    s.next table = s'.next table := by
  rw [next, if_neg hmode]
  split <;> rename_i heq <;> rw [h] at heq <;> cases heq
  rfl

theorem next_of_event (hmode : s.mode ≠ .accepted) {event : Event Rule}
    (h : s.round table = .event event s') : s.next table = (.ok event, s') := by
  rw [next, if_neg hmode]
  split <;> rename_i heq <;> rw [h] at heq <;> cases heq
  rfl

theorem next_of_error (hmode : s.mode ≠ .accepted) {cause : ParseError}
    (h : s.round table = .error cause s') : s.next table = (.error cause, s') := by
  rw [next, if_neg hmode]
  split <;> rename_i heq <;> rw [h] at heq <;> cases heq
  rfl

/-- Silent rounds lead from one session to the other. -/
def Silent (table : Table State Symbol Rule) : Session State Symbol → Session State Symbol → Prop :=
  Relation.ReflTransGen fun s s' => s.round table = .goOn s'

/-- **A call is some silent rounds and a last one**, which comes to what the call reports. -/
theorem Balanced.exists_last (hb : s.Balanced) (table : Table State Symbol Rule)
    (hmode : s.mode ≠ .accepted) :
    ∃ s₀, Silent table s s₀ ∧ s₀.Balanced ∧ s₀.mode ≠ .accepted ∧
      s₀.round table = .report (s.next table) := by
  induction hload : s.load using Nat.strongRecOn generalizing s with
  | ind load ih =>
    cases hround : s.round table with
    | goOn s₁ =>
      have hb₁ := hround ▸ hb.round table hmode
      have hmode₁ := Mode.ne_accepted (hb.reading_of_goOn hmode hround)
      obtain ⟨s₀, hsilent, hlast⟩ := ih _ (hload ▸ round_goOn_load_lt hround) hb₁ hmode₁ rfl
      rw [next_of_goOn hmode hround]
      exact ⟨s₀, .head hround hsilent, hlast⟩
    | event event s' =>
      exact ⟨s, .refl, hb, hmode, by rw [next_of_event hmode hround, hround]; rfl⟩
    | error cause s' =>
      exact ⟨s, .refl, hb, hmode, by rw [next_of_error hmode hround, hround]; rfl⟩

/-- **A call fails to read, or it ends with a step.** -/
theorem Balanced.next_cases (hb : s.Balanced) (table : Table State Symbol Rule)
    (hmode : s.mode ≠ .accepted) :
    ∃ s₀, Silent table s s₀ ∧
      ((∃ message source, s₀.Asks ∧ s₀.source.pull = (.error message, source) ∧
          s.next table = (.error (.lexer message), { s₀ with source })) ∨
        ∃ s₁, s₀.Sees s₁ ∧ s₁.Balanced ∧ s₁.mode ≠ .accepted ∧
          s₁.step table = .report (s.next table)) := by
  obtain ⟨s₀, hsilent, hb₀, hmode₀, hlast⟩ := hb.exists_last table hmode
  refine ⟨s₀, hsilent, ?_⟩
  rcases hb₀.round_cases table hmode₀ with
    ⟨message, source, hasks, hpull, hround⟩ | ⟨s₁, hsees, hb₁, hmode₁, -⟩
  · exact Or.inl ⟨message, source, hasks, hpull, Round.report_eq_error.mp (hlast.symm.trans hround)⟩
  · exact Or.inr ⟨s₁, hsees, hb₁, hmode₁ ▸ hmode₀, (hsees.round_eq hb₀ table).symm.trans hlast⟩

/-- **A call keeps the balance.** -/
theorem Balanced.next (hb : s.Balanced) (table : Table State Symbol Rule) :
    (s.next table).2.Balanced := by
  by_cases hmode : s.mode = .accepted
  · rw [next_of_accepted hmode]
    exact hb
  · obtain ⟨s₀, -, hb₀, hmode₀, hlast⟩ := hb.exists_last table hmode
    have hb' := hb₀.round table hmode₀
    rwa [hlast, Round.session_report] at hb'

/-! ## Sessions and machines -/

/-- The machine that a session carries out. -/
def machine (s : Session State Symbol) : Machine State Symbol :=
  { states := s.states, entries := s.entries, mode := s.mode, held := s.held }

/-- The session that carries out a machine, with a source and a buffer. -/
def ofMachine (m : Machine State Symbol) (source : Source Symbol) (args : List (Slot Symbol)) :
    Session State Symbol :=
  { states := m.states, items := m.entries.map some, mode := m.mode, held := m.held, source, args }

/-- A pass of the machine, as a round of the session that carries it out. -/
def roundOf (args : List (Slot Symbol)) : Pass State Symbol Rule → Round State Symbol Rule
  | .goOn m source => .goOn (ofMachine m source args)
  | .event event args m source => .event event (ofMachine m source (args.map some))
  | .error cause m source => .error cause (ofMachine m source args)

/-- What a call of the machine comes to, as a call of the session that carries it out. -/
def callOf (args : List (Slot Symbol)) :
    Except ParseError (Event Rule × List (Entry Symbol)) × Machine State Symbol × Source Symbol →
      Except ParseError (Event Rule) × Session State Symbol
  | (.ok (event, args), m, source) => (.ok event, ofMachine m source (args.map some))
  | (.error cause, m, source) => (.error cause, ofMachine m source args)

variable {m : Machine State Symbol} {source : Source Symbol} {args : List (Slot Symbol)}

theorem entries_ofMachine : (ofMachine m source args).entries = m.entries := by
  simp [entries, ofMachine]

theorem Balanced.ofMachine_machine (hb : s.Balanced) :
    ofMachine s.machine s.source s.args = s := by
  have hitems : ∀ items : List (Slot Symbol), none ∉ items →
      (items.filterMap id).map some = items := by
    intro items hfilled
    induction items with
    | nil => rfl
    | cons item items ih =>
      rw [List.mem_cons, not_or] at hfilled
      obtain ⟨entry, rfl⟩ := Option.ne_none_iff_exists'.mp (Ne.symm hfilled.1)
      rw [List.filterMap_cons]
      dsimp only [id]
      rw [List.map_cons]
      exact congrArg _ (ih hfilled.2)
  show { s with items := (s.items.filterMap id).map some } = s
  rw [hitems s.items hb.filled]

theorem lookAhead_ofMachine : (ofMachine m source args).lookAhead =
    ((m.lookAhead source).1,
      ofMachine (m.lookAhead source).2.1 (m.lookAhead source).2.2 args) := by
  unfold lookAhead Machine.lookAhead
  by_cases hmode : m.mode = .goto
  · have hmode' : (ofMachine m source args).mode = .goto := hmode
    rw [if_pos hmode, if_pos hmode']
    cases hentries : m.entries with
    | nil => simp [ofMachine, hentries]
    | cons entry entries => simp [ofMachine, hentries]
  · have hmode' : (ofMachine m source args).mode ≠ .goto := hmode
    rw [if_neg hmode, if_neg hmode']
    cases hheld : m.held with
    | some token => simp [ofMachine, hheld]
    | none =>
      rcases source with _ | ⟨_ | _ | _, rest⟩ <;> simp [ofMachine, hheld, Source.pull]

theorem perform_ofMachine (hb : (ofMachine m source args).Balanced) (hmode : m.mode ≠ .accepted)
    (choice : Choice State Symbol Rule) :
    (ofMachine m source args).perform choice = roundOf args (m.perform source choice) := by
  cases choice with
  | shift target =>
    show (ofMachine m source args).shift target = _
    rw [Session.shift, Machine.perform]
    by_cases hgoto : m.mode = .goto
    · have hgoto' : (ofMachine m source args).mode = .goto := hgoto
      rw [if_pos hgoto, if_pos hgoto']
      rfl
    · have hgoto' : (ofMachine m source args).mode ≠ .goto := hgoto
      rw [if_neg hgoto, if_neg hgoto']
      cases hheld : m.held with
      | none => simp [ofMachine, hheld, roundOf]
      | some token => simp [ofMachine, hheld, roundOf]
  | reduce rule lhs arity =>
    show (ofMachine m source args).reduce rule lhs arity = _
    rw [Machine.perform]
    by_cases hle : m.states.length ≤ arity
    · have hle' : (ofMachine m source args).states.length ≤ arity := hle
      rw [Session.reduce, if_pos hle, if_pos hle']
      rfl
    · obtain ⟨hitems, hreduce⟩ := hb.reduce_eq hmode rule lhs (Nat.not_le.mp hle)
      rw [ofMachine, List.length_map] at hitems
      rw [hreduce, if_neg hle, if_neg (Nat.not_lt.mpr hitems)]
      simp [roundOf, ofMachine, List.map_drop, List.map_take, List.map_reverse]
  | accept =>
    show (ofMachine m source args).accept = _
    rw [Session.accept, Machine.perform]
    cases hentries : m.entries with
    | nil => simp [ofMachine, hentries, roundOf]
    | cons entry entries => simp [ofMachine, hentries, roundOf]

/-- **A round does what a pass of the machine does.** -/
theorem round_ofMachine (table : Table State Symbol Rule)
    (hb : (ofMachine m source args).Balanced) (hmode : m.mode ≠ .accepted) :
    (ofMachine m source args).round table = roundOf args (m.pass table source) := by
  obtain ⟨q, states, hstates⟩ := List.exists_cons_of_ne_nil hb.states
  have hstates' : m.states = q :: states := hstates
  rw [round_of_states hstates, lookAhead_ofMachine, Machine.pass, hstates']
  dsimp only
  cases hlook : m.lookAhead source with
  | mk result rest =>
    obtain ⟨m₁, source₁⟩ := rest
    have hm₁ := (Machine.lookAhead_eq hlook).1
    cases result with
    | error cause => rfl
    | ok ahead =>
      have hb₁ : (ofMachine m₁ source₁ args).Balanced := by
        rw [hm₁]
        exact ⟨hb.states, hb.heights, hb.filled⟩
      have hmode₁ : m₁.mode ≠ .accepted := by
        rw [hm₁]
        exact hmode
      show (ofMachine m₁ source₁ args).act table q ahead = _
      rw [act, entries_ofMachine]
      dsimp only
      cases table.choose m₁.entries ahead (table.action q ahead) with
      | error cause => rfl
      | ok choice => exact perform_ofMachine hb₁ hmode₁ choice

/-- **A balanced session does what its machine does**, and the arguments of an event are what the
buffer holds after it. -/
theorem Balanced.next_eq (hb : s.Balanced) (table : Table State Symbol Rule) :
    s.next table = callOf s.args (s.machine.nextEvent table s.source) := by
  have hofMachine : ∀ (m : Machine State Symbol) (source : Source Symbol),
      (ofMachine m source s.args).Balanced →
      (ofMachine m source s.args).next table = callOf s.args (m.nextEvent table source) := by
    intro m source hb
    induction hload : m.load source using Nat.strongRecOn generalizing m source with
    | ind load ih =>
      by_cases hmode : m.mode = .accepted
      · rw [Machine.nextEvent_of_accepted hmode]
        exact next_of_accepted hmode
      · have hround := round_ofMachine table hb hmode
        have hb' := hb.round table hmode
        cases hpass : m.pass table source with
        | goOn m' source' =>
          rw [hpass] at hround
          rw [hround] at hb'
          rw [Machine.nextEvent_of_goOn hmode hpass, next_of_goOn hmode hround]
          exact ih _ (hload ▸ Machine.pass_goOn_load_lt hpass) m' source' hb' rfl
        | event event args m' source' =>
          rw [hpass] at hround
          rw [Machine.nextEvent_of_event hmode hpass]
          exact next_of_event hmode hround
        | error cause m' source' =>
          rw [hpass] at hround
          rw [Machine.nextEvent_of_error hmode hpass]
          exact next_of_error hmode hround
  have hself := hb.ofMachine_machine
  have hnext := hofMachine s.machine s.source (hself.symm ▸ hb)
  rwa [hself] at hnext

end Session

end Lalr

import Lalr.Proofs.Parsing.Halting
import Lalr.Proofs.Parsing.Soundness

/-!
# Termination of parsing

A machine over a decided table always comes to an end: after finitely many reductions it accepts or
fails (**`parsing_terminates`**). Tokens may have any symbol, also that of a nonterminal, and the
source may fail or pause.

A silent pass lowers the load of the machine, so only reductions can go on without an end. While
they do, the symbol ahead does not change (`Machine.Settled`), and the stacks are reduced in the
sense of `Cfg.Reduces`. Such a chain is finite by `Decided.halts`.
-/

namespace Lalr

namespace Machine

variable {State Symbol Rule : Type} {table : Table State Symbol Rule} {m m' : Machine State Symbol}
  {source source' : Source Symbol} {ahead : Option Symbol}

/-- The symbol ahead will not change before a shift: it is held, or the source is used up. -/
def Settled (m : Machine State Symbol) (source : Source Symbol) (ahead : Option Symbol) : Prop :=
  (∃ t, m.held = some t ∧ ahead = some t.symbol) ∨ (m.held = none ∧ source = [] ∧ ahead = none)

theorem Settled.lookAhead_eq (h : m.Settled source ahead) (hmode : m.mode ≠ .goto) :
    m.lookAhead source = (.ok ahead, m, source) := by
  unfold lookAhead
  rw [if_neg hmode]
  rcases h with ⟨t, hheld, rfl⟩ | ⟨hheld, rfl, rfl⟩
  · rw [hheld]
  · rw [hheld]
    cases m
    simp_all [Source.pull]

/-- Looking ahead settles the symbol, or has taken a pause from the source. -/
theorem settled_of_lookAhead (hmode : m.mode ≠ .goto)
    (h : m.lookAhead source = (.ok ahead, m', source')) :
    m'.Settled source' ahead ∨ m'.load source' + 2 ≤ m.load source := by
  unfold lookAhead at h
  rw [if_neg hmode] at h
  cases hheld : m.held with
  | some t =>
    rw [hheld] at h
    obtain ⟨rfl, rfl, rfl⟩ := by simpa using h
    exact Or.inl (Or.inl ⟨t, hheld, rfl⟩)
  | none =>
    rw [hheld] at h
    match source with
    | [] =>
      obtain ⟨rfl, rfl, rfl⟩ := by simpa [Source.pull] using h
      exact Or.inl (Or.inr ⟨rfl, rfl, rfl⟩)
    | .token t :: rest =>
      obtain ⟨rfl, rfl, rfl⟩ := by simpa [Source.pull] using h
      exact Or.inl (Or.inl ⟨t, rfl, rfl⟩)
    | .pause :: rest =>
      obtain ⟨rfl, rfl, rfl⟩ := by simpa [Source.pull] using h
      refine Or.inr ?_
      simp only [load, hheld, List.length_cons]
      omega
    | .failure message :: rest => simp [Source.pull] at h

/-- Looking ahead twice is looking ahead once. -/
theorem Settled.pass_eq (hsettled : m'.Settled source' ahead) (hmode : m.mode ≠ .goto)
    (hne : m.states ≠ []) (h : m.lookAhead source = (.ok ahead, m', source')) :
    pass table m source = pass table m' source' := by
  have heq := (lookAhead_ok h).1
  have hmode' : m'.mode ≠ .goto := by
    rw [heq]
    exact hmode
  have hstates : m'.states = m.states := by rw [heq]
  unfold pass
  rw [hstates, h, hsettled.lookAhead_eq hmode']
  cases hm : m.states with
  | nil => exact absurd hm hne
  | cons q states => rfl

end Machine

namespace Compiled

/-- The states of the machine lie on a path that its entries spell, and right after a reduction the
left-hand side is to be gone over. -/
structure Located (c : Compiled) (m : Machine StateId TermId) : Prop where
  path : c.cfg.Path m.states (m.spelled.map Entry.symbol)
  head : m.mode = .goto → ∃ x rest, m.entries = .nonterminal x :: rest ∧ x ∈ c.cfg.nonterminals

/-- What a pass of a reading machine may come to when it looks ahead at `k` and holds `held` from
then on. -/
inductive Reads (c : Compiled) (m : Machine StateId TermId) (k : TermId)
    (held : Option (Token TermId)) (source : Source TermId) :
    Pass StateId TermId ProductionId → Prop
  | fail {cause : ParseError} {m' : Machine StateId TermId} {source' : Source TermId}
      (h : c.Located m') (hmode : m'.mode = .reading) :
      Reads c m k held source (.error cause m' source')
  | accept {args : List (Entry TermId)} {m' : Machine StateId TermId} {source' : Source TermId}
      (hmode : m'.mode = .accepted) : Reads c m k held source (.event .accept args m' source')
  | shift {m' : Machine StateId TermId} {source' : Source TermId} (h : c.Located m')
      (hmode : m'.mode = .reading) : Reads c m k held source (.goOn m' source')
  | reduce {i : ProductionId} {p : Production} {q q' : StateId} {rest : List StateId}
      {args entries : List (Entry TermId)} {m' : Machine StateId TermId}
      (hp : c.cfg.productions[i]? = some p) (hi : c.Decided → i ≠ ProductionId.root)
      (hq : m.states.head? = some q) (hk : c.cfg.Lookahead q ⟨i, p.rhs.length⟩ k)
      (hrest : m.states.drop p.rhs.length = q' :: rest)
      (hm' : m' = { states := q' :: rest, entries := .nonterminal p.lhs :: entries,
                    mode := .goto, held := held })
      (h : c.Located m') : Reads c m k held source (.event (.reduce i) args m' source)

variable {c : Compiled} {m m' : Machine StateId TermId} {source source' : Source TermId}

theorem reading_of_ne (haccepted : m.mode ≠ .accepted) (hgoto : m.mode ≠ .goto) :
    m.mode = .reading := by
  cases hm : m.mode with
  | reading => rfl
  | goto => exact absurd hm hgoto
  | accepted => exact absurd hm haccepted

/-- Where nothing is in dispute, the augmented root is accepted rather than reduced. -/
theorem Decided.ne_root_of_choose (hd : c.Decided) {i : ProductionId} {p : Production}
    {q : StateId} {ahead : Option TermId} {entries : List (Entry TermId)}
    (hp : c.cfg.productions[i]? = some p)
    (hk : c.cfg.Lookahead q ⟨i, p.rhs.length⟩ (ahead.getD TermId.eof))
    (hchoose : c.table.choose entries ahead (c.table.action q ahead) =
      .ok (.reduce i p.lhs p.rhs.length)) : i ≠ ProductionId.root := by
  rintro rfl
  have haug := hd.built.augmented
  obtain rfl := Option.some.inj (haug.root_production.symm.trans hp)
  have heof := haug.eq_eof_of_lookahead_root hk rfl
  have haction := hd.action_of_reducible ahead hp hk
  rw [if_pos ⟨heof, rfl⟩] at haction
  rw [haction] at hchoose
  simp [Table.choose] at hchoose

namespace Located

theorem start (c : Compiled) : c.Located (Machine.start c.table) :=
  ⟨.initial, fun h => nomatch h⟩

theorem lookAhead (h : c.Located m) {result : Except ParseError (Option TermId)}
    (hlook : m.lookAhead source = (result, m', source')) : c.Located m' := by
  rw [(Machine.lookAhead_eq hlook).1]
  exact ⟨h.path, h.head⟩

/-- Going on behind a left-hand side. -/
theorem goOn_goto (h : c.Located m) (hmode : m.mode = .goto) {q target : StateId}
    {states : List StateId} (hstates : m.states = q :: states) {x : TermId}
    {rest : List (Entry TermId)} (hentries : m.entries = .nonterminal x :: rest)
    (hgoto : c.cfg.goto? q x = some target) :
    c.Located { m with states := target :: m.states, mode := .reading } := by
  have hpath := h.path
  rw [hstates, Machine.spelled, if_pos hmode, hentries] at hpath
  refine ⟨?_, Mode.noConfusion⟩
  show c.cfg.Path (target :: m.states) (m.entries.map Entry.symbol)
  rw [hstates, hentries]
  exact .step hpath hgoto

/-- Right after a reduction the machine goes over the left-hand side, or fails. -/
theorem pass_goto (h : c.Located m) (hb : c.Built) (hmode : m.mode = .goto)
    (source : Source TermId) :
    (∃ cause, Machine.pass c.table m source = .error cause m source) ∨
      ∃ q states x rest target, m.states = q :: states ∧ m.entries = .nonterminal x :: rest ∧
        c.cfg.goto? q x = some target ∧ Machine.pass c.table m source =
          .goOn { m with states := target :: m.states, mode := .reading } source := by
  obtain ⟨x, rest, hentries, hx⟩ := h.head hmode
  obtain ⟨q, states, hstates⟩ := h.path.exists_cons
  have hlook : m.lookAhead source = (.ok (some x), m, source) :=
    Machine.lookAhead_of_entry hmode hentries
  unfold Machine.pass
  simp only [hstates, hlook]
  cases hchoose : c.table.choose m.entries (some x) (c.table.action q (some x)) with
  | error cause => exact Or.inl ⟨_, rfl⟩
  | ok choice =>
    obtain ⟨target, rfl, htarget⟩ := Sound.shift_of_goto hb hx (hb.allows_of_choose hchoose)
    refine Or.inr ⟨q, states, x, rest, target, rfl, hentries, htarget, ?_⟩
    simp only [Machine.perform, if_pos hmode, hstates]

theorem pass_of_lookAhead_error (h : c.Located m) {cause : ParseError}
    (hlook : m.lookAhead source = (.error cause, m', source')) :
    Machine.pass c.table m source = .error cause m' source' := by
  obtain ⟨q, states, hstates⟩ := h.path.exists_cons
  unfold Machine.pass
  simp only [hstates, hlook]

/-- A reading machine is on the path that its whole stack spells. -/
theorem path_of_reading (h : c.Located m) (hmode : m.mode = .reading) :
    c.cfg.Path m.states (m.entries.map Entry.symbol) := by
  have hpath := h.path
  rwa [Machine.spelled, if_neg (Mode.ne_goto hmode)] at hpath

/-- A shift moves along the path, over the held token. -/
theorem reads_shift (h : c.Located m') (hmode : m'.mode = .reading) {q target : StateId}
    {states : List StateId} (hstates : m'.states = q :: states)
    (htarget : ∀ t, m'.held = some t → c.cfg.goto? q t.symbol = some target) {k : TermId}
    {held : Option (Token TermId)} :
    c.Reads m k held source' (m'.perform source' (.shift target)) := by
  have hpath := h.path_of_reading hmode
  rw [hstates] at hpath
  simp only [Machine.perform, if_neg (Mode.ne_goto hmode)]
  cases hheld : m'.held with
  | none => exact .fail h hmode
  | some t =>
    refine .shift ⟨?_, Mode.noConfusion⟩ rfl
    show c.cfg.Path (target :: m'.states) _
    rw [hstates]
    exact .step hpath (htarget t hheld)

/-- A reduction goes back over the right-hand side of its production. -/
theorem reads_reduce (h : c.Located m') (hb : c.Built) (hmode : m'.mode = .reading)
    (hsame : m'.states = m.states) {i : ProductionId} {p : Production} {q : StateId} {k : TermId}
    (hp : c.cfg.productions[i]? = some p) (hi : c.Decided → i ≠ ProductionId.root)
    (hq : m'.states.head? = some q) (hk : c.cfg.Lookahead q ⟨i, p.rhs.length⟩ k) :
    c.Reads m k m'.held source' (m'.perform source' (.reduce i p.lhs p.rhs.length)) := by
  have haug := hb.augmented
  have hpath := h.path_of_reading hmode
  obtain ⟨states, hstates⟩ := List.head?_eq_some_iff.mp hq
  rw [hstates] at hpath
  obtain ⟨hle, -, q', rest, hdrop, hpath', -⟩ := hpath.of_item haug hp (hk.mem_itemsOf haug)
  have hlen := hpath.length_eq
  rw [List.length_map] at hle hlen
  have hlt : ¬ m'.states.length ≤ p.rhs.length := by
    rw [hstates]
    omega
  rw [← hstates] at hdrop
  simp only [Machine.perform, if_neg hlt, if_neg (Nat.not_lt.mpr hle)]
  rw [hdrop]
  refine .reduce hp hi (hsame ▸ hq) hk (hsame ▸ hdrop) rfl ⟨?_, ?_⟩
  · show c.cfg.Path (q' :: rest) ((m'.entries.drop p.rhs.length).map Entry.symbol)
    rw [List.map_drop]
    exact hpath'
  · exact fun _ => ⟨p.lhs, _, rfl, haug.lhs_mem p (List.mem_of_getElem? hp)⟩

/-- **A reading pass**: a shift moves along the path, a reduction goes back over the right-hand
side of its production. -/
theorem pass_reading (h : c.Located m) (hb : c.Built) (hmode : m.mode = .reading)
    {ahead : Option TermId} (hlook : m.lookAhead source = (.ok ahead, m', source')) :
    c.Reads m (ahead.getD TermId.eof) m'.held source' (Machine.pass c.table m source) := by
  have heq := (Machine.lookAhead_eq hlook).1
  have hsame : m'.states = m.states := by rw [heq]
  have hmode' : m'.mode = .reading := by
    rw [heq]
    exact hmode
  have h' := h.lookAhead hlook
  obtain ⟨q, states, hstates⟩ := h.path.exists_cons
  have hstates' := hsame.trans hstates
  unfold Machine.pass
  simp only [hstates, hlook]
  cases hchoose : c.table.choose m'.entries ahead (c.table.action q ahead) with
  | error cause => exact .fail h' hmode'
  | ok choice =>
    cases hb.allows_of_choose hchoose with
    | shift htarget =>
      refine h'.reads_shift hmode' hstates' fun t ht => ?_
      rwa [Machine.lookAhead_of_not_goto (Mode.ne_goto hmode) hlook, ht] at htarget
    | accept _ _ =>
      simp only [Machine.perform]
      cases m'.entries with
      | nil => exact .fail h' hmode'
      | cons entry rest => exact .accept rfl
    | reduce hp hk =>
      refine h'.reads_reduce hb hmode' hsame hp ?_ (by rw [hstates']; rfl) hk
      exact fun hd => hd.ne_root_of_choose hp hk hchoose

/-- **A pass keeps the machine on a path** until it accepts. -/
theorem pass_of_built (hb : c.Built) (m : Machine StateId TermId) (source : Source TermId)
    (hmode : m.mode ≠ .accepted) (h : m.mode ≠ .accepted → c.Located m) :
    (Machine.pass c.table m source).machine.mode ≠ .accepted →
      c.Located (Machine.pass c.table m source).machine := by
  replace h := h hmode
  by_cases hgoto : m.mode = .goto
  · rcases h.pass_goto hb hgoto source with
      ⟨_, hpass⟩ | ⟨q, states, x, rest, target, hs, he, htarget, hpass⟩
    · rw [hpass]
      exact fun _ => h
    · rw [hpass]
      exact fun _ => h.goOn_goto hgoto hs he htarget
  · rcases hlook : m.lookAhead source with ⟨cause | ahead, m', source'⟩
    · rw [h.pass_of_lookAhead_error hlook]
      exact fun _ => h.lookAhead hlook
    · have hpass := h.pass_reading hb (reading_of_ne hmode hgoto) hlook
      generalize Machine.pass c.table m source = result at hpass
      cases hpass with
      | fail h' _ => exact fun _ => h'
      | accept hmode' => exact fun hne => absurd hmode' hne
      | shift h' _ => exact fun _ => h'
      | reduce _ _ _ _ _ _ h' => exact fun _ => h'

theorem pass (hd : c.Decided) (m : Machine StateId TermId) (source : Source TermId)
    (hmode : m.mode ≠ .accepted) (h : m.mode ≠ .accepted → c.Located m) :
    (Machine.pass c.table m source).machine.mode ≠ .accepted →
      c.Located (Machine.pass c.table m source).machine :=
  pass_of_built hd.built m source hmode h

end Located

/-! ## Whole runs -/

namespace Decided

/-- A reading machine stops if it does after a shift and after a reduction. -/
theorem stops_of_pass (hd : c.Decided) (h : c.Located m) (hmode : m.mode = .reading)
    {ahead : Option TermId} (hlook : m.lookAhead source = (.ok ahead, m', source'))
    (hshift : ∀ {m₁ source₁}, m₁.load source₁ < m.load source → c.Located m₁ →
      m₁.mode = .reading → Machine.Stops c.table m₁ source₁)
    (hreduce : ∀ {i args m₁},
      c.Reads m (ahead.getD TermId.eof) m'.held source' (.event (.reduce i) args m₁ source') →
        Machine.Stops c.table m₁ source') : Machine.Stops c.table m source := by
  have hread := Mode.ne_accepted hmode
  have hpass := h.pass_reading hd.built hmode hlook
  cases hp : Machine.pass c.table m source with
  | error cause m₁ source₁ => exact .of_error hread hp
  | goOn m₁ source₁ =>
    rw [hp] at hpass
    cases hpass with
    | shift h₁ hmode₁ =>
      exact .of_goOn hread hp (hshift (Machine.pass_goOn_load_lt hp) h₁ hmode₁)
  | event event args m₁ source₁ =>
    rw [hp] at hpass
    cases event with
    | accept => exact .of_accept hread hp
    | reduce i =>
      have hreads := hpass
      cases hpass
      exact .of_reduce hread hp (hreduce hreads)

/-- A machine stops while the symbol ahead is settled, if it does wherever the load is lower. The
induction is on the stack of states, which halts. -/
theorem stops_of_settled (hd : c.Decided) {ahead : Option TermId} {load : Nat}
    (ih : ∀ {m source}, m.load source < load → c.Located m → m.mode ≠ .accepted →
      Machine.Stops c.table m source)
    {states : List StateId} (hhalts : c.cfg.Halts (ahead.getD TermId.eof) states) :
    ∀ {m : Machine StateId TermId} {source : Source TermId}, m.states = states → c.Located m →
      m.mode = .reading → m.Settled source ahead → m.load source ≤ load →
      Machine.Stops c.table m source := by
  induction hhalts with
  | intro states _ ihstates =>
    intro m source hm h hmode hsettled hload
    have hlook := hsettled.lookAhead_eq (Mode.ne_goto hmode)
    refine hd.stops_of_pass h hmode hlook ?_ ?_
    · intro m₁ source₁ hlt h₁ hmode₁
      exact ih (Nat.lt_of_lt_of_le hlt hload) h₁ (Mode.ne_accepted hmode₁)
    · intro i args m₁ hreads
      cases hreads with
      | reduce hp hi hq hk hrest hm₁ h₁ =>
        have hgoto : m₁.mode = .goto := by rw [hm₁]
        have hheld : m₁.held = m.held := by rw [hm₁]
        have hwait : m₁.mode ≠ .accepted := by
          rw [hgoto]
          decide
        -- The machine goes over the left-hand side, and the stack has been reduced.
        rcases h₁.pass_goto hd.built hgoto source with
          ⟨_, hpass⟩ | ⟨q₁, states₁, x, rest₁, target, hs, he, htarget, hpass⟩
        · exact .of_error hwait hpass
        · have h₂ := h₁.goOn_goto hgoto hs he htarget
          rw [hm₁] at hs he
          obtain ⟨rfl, rfl⟩ := List.cons.inj hs
          obtain ⟨rfl, rfl⟩ := by simpa using he
          have hstep : c.cfg.Reduces (ahead.getD TermId.eof) states (target :: m₁.states) := by
            rw [hm₁, ← hm]
            exact .reduce hp (hi hd) hq hk hrest htarget
          refine .of_goOn hwait hpass (ihstates _ hstep rfl h₂ rfl ?_ ?_)
          · simpa only [Machine.Settled, hheld] using hsettled
          · simpa [Machine.load, hheld, hmode] using hload

/-- **Every machine stops**, by induction on the load. -/
theorem stops (hd : c.Decided) (h : c.Located m) (hmode : m.mode ≠ .accepted)
    (source : Source TermId) : Machine.Stops c.table m source := by
  induction hload : m.load source using Nat.strongRecOn generalizing m source with
  | ind load ih =>
    have hlower : ∀ {m source}, m.load source < load → c.Located m → m.mode ≠ .accepted →
        Machine.Stops c.table m source :=
      fun hlt h hmode => ih _ hlt h hmode _ rfl
    by_cases hgoto : m.mode = .goto
    · rcases h.pass_goto hd.built hgoto source with
        ⟨_, hpass⟩ | ⟨q, states, x, rest, target, hs, he, htarget, hpass⟩
      · exact .of_error hmode hpass
      · exact .of_goOn hmode hpass (hlower (hload ▸ Machine.pass_goOn_load_lt hpass)
          (h.goOn_goto hgoto hs he htarget) Mode.noConfusion)
    · have hreading := reading_of_ne hmode hgoto
      rcases hlook : m.lookAhead source with ⟨cause | ahead, m', source'⟩
      · exact .of_error hmode (h.pass_of_lookAhead_error hlook)
      · obtain ⟨heq, hle⟩ := Machine.lookAhead_ok hlook
        have hmode' : m'.mode = .reading := by
          rw [heq]
          exact hreading
        have h' := h.lookAhead hlook
        rcases Machine.settled_of_lookAhead hgoto hlook with hsettled | hpause
        · obtain ⟨q, states, hstates⟩ := h.path.exists_cons
          have hne : m.states ≠ [] := by simp [hstates]
          refine .of_pass_eq hmode (hsettled.pass_eq hgoto hne hlook) ?_
          exact hd.stops_of_settled hlower (hd.halts _ h'.path) rfl h' hmode' hsettled (hload ▸ hle)
        · refine hd.stops_of_pass h hreading hlook ?_ ?_
          · intro m₁ source₁ hlt h₁ hmode₁
            exact hlower (hload ▸ hlt) h₁ (Mode.ne_accepted hmode₁)
          · intro i args m₁ hreads
            cases hreads with
            | reduce _ _ _ _ _ hm₁ h₁ =>
              refine hlower ?_ h₁ (by rw [hm₁]; exact Mode.noConfusion)
              rw [hm₁]
              simp only [Machine.load, hmode', reduceCtorEq, if_false, if_true, Nat.add_zero]
                at hpause hload ⊢
              omega

end Decided

/-- **Termination of parsing**, for every plain definition that compiles without conflicts, every
source and every point of a run: after finitely many reductions the machine accepts or fails. At
the beginning of the run this says that the input comes to an end, at any later point that no
endless sequence of reductions begins there. -/
theorem parsing_terminates [Text.Xid] {ignoreCase : Bool} {commands : List Command}
    (h : (Definition.ofCommands ignoreCase commands).compile = .ok c)
    (hplain : (Definition.ofCommands ignoreCase commands).isPlain = true)
    (hlog : c.log.ofLevel .conflict = []) {n : Nat} {done : List (Call TermId ProductionId)}
    {rest : Source TermId}
    (hrun : Machine.calls c.table n (Machine.start c.table) source = (done, m, rest)) :
    ∃ (reductions : List ProductionId) (last : Except ParseError (Event ProductionId)),
      (Machine.calls c.table (reductions.length + 1) m rest).1.map Call.event =
        reductions.map (fun i => .ok (.reduce i)) ++ [last] ∧
      (last = .ok .accept ∨ ∃ cause, last = .error cause) := by
  have hd := decided_of_compile h hplain hlog
  have hlocated := Machine.calls_keeps (Located.pass hd) n source fun _ => Located.start c
  rw [hrun] at hlocated
  by_cases hmode : m.mode = .accepted
  · refine ⟨[], .error .alreadyAccepted, ?_, Or.inr ⟨_, rfl⟩⟩
    rw [Machine.events_succ, Machine.nextEvent_of_accepted hmode]
    rfl
  · obtain ⟨reductions, last, hends⟩ := hd.stops (hlocated hmode) hmode rest
    exact ⟨reductions, last, hends.calls_eq, hends.last_cases⟩

/-- A nonterminal read as a token between brackets, and a bracket too many. -/
def strayTokens : Source TermId :=
  [.token ⟨3, "("⟩, .token ⟨5, "S"⟩, .token ⟨4, ")"⟩, .token ⟨4, ")"⟩]

/-- The run over the stray tokens after its first reduction. -/
def strayRun : List (Call TermId ProductionId) × Machine StateId TermId × Source TermId :=
  Machine.calls bracketsCompiled.table 1 (Machine.start bracketsCompiled.table) strayTokens

theorem parsing_terminates_brackets :
    (Definition.ofCommands false brackets).compile = .ok bracketsCompiled ∧
      ∃ (reductions : List ProductionId) (last : Except ParseError (Event ProductionId)),
        (Machine.calls bracketsCompiled.table (reductions.length + 1) strayRun.2.1
          strayRun.2.2).1.map Call.event = reductions.map (fun i => .ok (.reduce i)) ++ [last] ∧
        (last = .ok .accept ∨ ∃ cause, last = .error cause) := by
  have hcompile : (Definition.ofCommands false brackets).compile = .ok bracketsCompiled :=
    Definition.compile_eq_ok (by decide) (by decide)
  have hplain : (Definition.ofCommands false brackets).isPlain = true := by decide
  have hlog : bracketsCompiled.log.ofLevel .conflict = [] := by decide
  have hrun : Machine.calls bracketsCompiled.table 1 (Machine.start bracketsCompiled.table)
      strayTokens = (strayRun.1, strayRun.2.1, strayRun.2.2) := rfl
  exact ⟨hcompile, parsing_terminates hcompile hplain hlog hrun⟩

end Compiled

end Lalr

import Lalr.Proofs.Automaton.Path
import Lalr.Proofs.Compiled.Choice
import Lalr.Proofs.Parsing.Assembly

/-!
# Soundness of parsing

Whatever tokens a parser reads, and however conflicts and operators are settled, what it reports is
a derivation. The invariant (`Sound`) ties the machine to the automaton and to the trees:

* the states on the stack lie on a path of the automaton that the entries spell;
* the entries stand for trees, and the tokens of these are the tokens shifted so far.

A pass keeps it (`Sound.pass`): a shift moves along the path, a reduction goes back over the
right-hand side of its production, and errors leave both stacks alone. So do the calls of a run
(`Sound.calls`). **`parsing_sound`** is what follows for a user.
-/

namespace Lalr

open ParseTree

/-- The entries with a state above them. A left-hand side has none yet. -/
def Machine.spelled {State Symbol : Type} (m : Machine State Symbol) : List (Entry Symbol) :=
  if m.mode = .goto then m.entries.tail else m.entries

namespace Compiled

/-- The machine has read terminals only, its states lie on a path that its entries spell, and the
entries stand for the trees. -/
structure Sound (c : Compiled) (m : Machine StateId TermId) (source : Source TermId)
    (ts : List ParseTree) : Prop where
  path   : c.cfg.Path m.states (m.spelled.map Entry.symbol)
  head   : m.mode = .goto → ∃ x rest, m.entries = .nonterminal x :: rest ∧ x ∈ c.cfg.nonterminals
  grown  : c.cfg.Grown m.entries ts
  tokens : ∀ t : Token TermId,
    .token t ∈ m.entries ∨ m.held = some t ∨ .token t ∈ source → c.isTerminal t.symbol = true

/-- What accepting delivers: the root alone, for one tree, at the end of input. -/
structure Accepted (c : Compiled) (args : List (Entry TermId)) (m : Machine StateId TermId)
    (ts : List ParseTree) : Prop where
  args    : args = [.nonterminal c.root]
  entries : m.entries = []
  mode    : m.mode = .accepted
  states  : ∃ q, m.states = [q, StateId.initial] ∧ c.cfg.goto? StateId.initial c.root = some q
  tree    : ∃ tree, ts = [tree] ∧ nodes ts = [tree] ∧ c.cfg.Forest [c.root] [tree]

/-- What a pass of a machine with the trees `ts` may come to. -/
def Keeps (c : Compiled) (m : Machine StateId TermId) (ts : List ParseTree) :
    Pass StateId TermId ProductionId → Prop
  | .goOn m' source' => m'.mode ≠ .accepted ∧ ∃ ts', c.Sound m' source' ts' ∧
      nodes ts' = nodes ts ∧ yields ts'.reverse = yields ts.reverse ++ Machine.gained m m'
  | .event (.reduce i) args m' source' => m'.mode ≠ .accepted ∧
      (∃ p, c.cfg.productions[i]? = some p ∧ args.map Entry.symbol = p.rhs) ∧
      ∃ ts', c.Sound m' source' ts' ∧ nodes ts' = ParseTree.reduce i args (nodes ts) ∧
        yields ts'.reverse = yields ts.reverse
  | .event .accept args m' _ => c.Accepted args m' ts
  | .error _ m' source' => m'.mode ≠ .accepted ∧ c.Sound m' source' ts

variable {c : Compiled} {m m' : Machine StateId TermId} {source source' : Source TermId}
  {ts : List ParseTree}

namespace Sound

theorem start (hsource : ∀ t : Token TermId, .token t ∈ source → c.isTerminal t.symbol = true) :
    c.Sound (Machine.start c.table) source [] := by
  refine ⟨.initial, fun h => (nomatch h), .nil, ?_⟩
  intro t ht
  rcases ht with ht | ht | ht
  · exact absurd ht List.not_mem_nil
  · exact nomatch ht
  · exact hsource t ht

/-- Looking ahead changes nothing that matters. -/
theorem lookAhead (h : c.Sound m source ts) {result : Except ParseError (Option TermId)}
    (hlook : m.lookAhead source = (result, m', source')) : c.Sound m' source' ts := by
  obtain ⟨heq, htokens⟩ := Machine.lookAhead_eq hlook
  rw [heq]
  refine ⟨h.path, h.head, h.grown, fun t ht => h.tokens t ?_⟩
  exact ht.imp id (htokens t)

/-- Going on behind a left-hand side. -/
theorem goOn_goto (h : c.Sound m source ts) (hmode : m.mode = .goto) {q target : StateId}
    {states : List StateId} (hstates : m.states = q :: states) {entry : Entry TermId}
    {rest : List (Entry TermId)} (hentries : m.entries = entry :: rest)
    (hgoto : c.cfg.goto? q entry.symbol = some target) :
    c.Keeps m ts (.goOn { m with states := target :: m.states, mode := .reading } source) := by
  have hpath := h.path
  rw [hstates, Machine.spelled, if_pos hmode, hentries] at hpath
  refine ⟨by simp, ts, ⟨?_, fun hm => (nomatch hm), h.grown, h.tokens⟩, rfl, ?_⟩
  · show c.cfg.Path (target :: m.states) (m.entries.map Entry.symbol)
    rw [hstates, hentries]
    exact .step hpath hgoto
  · simp [Machine.gained]

/-- Shifting a token. -/
theorem goOn_token (h : c.Sound m source ts) (hmode : m.mode ≠ .goto) {q target : StateId}
    {states : List StateId} (hstates : m.states = q :: states) {t : Token TermId}
    (hheld : m.held = some t) (hgoto : c.cfg.goto? q t.symbol = some target) :
    c.Keeps m ts (.goOn
      { states := target :: m.states, entries := .token t :: m.entries, mode := .reading,
        held := none } source) := by
  have hpath := h.path
  rw [hstates, Machine.spelled, if_neg hmode] at hpath
  refine ⟨by simp, .leaf t :: ts,
    ⟨?_, fun hm => (nomatch hm), .token t h.grown, fun t' ht' => h.tokens t' ?_⟩, rfl, ?_⟩
  · show c.cfg.Path (target :: m.states) ((Entry.token t :: m.entries).map Entry.symbol)
    rw [hstates]
    exact .step hpath hgoto
  · rcases ht' with ht' | ht' | ht'
    · rcases List.mem_cons.mp ht' with ht' | ht'
      · obtain rfl := Entry.token.inj ht'
        exact Or.inr (Or.inl hheld)
      · exact Or.inl ht'
    · exact nomatch ht'
    · exact Or.inr (Or.inr ht')
  · rw [List.reverse_cons, yields_append]
    simp [Machine.gained, Entry.token?, yields, yield]

/-- Reducing a production whose completed item is in the state. -/
theorem event_reduce (h : c.Sound m source ts) (hb : c.Built) (hmode : m.mode ≠ .goto)
    {q : StateId} {states : List StateId} (hstates : m.states = q :: states) {i : ProductionId}
    {p : Production} (hp : c.cfg.productions[i]? = some p)
    (hi : (⟨i, p.rhs.length⟩ : Item) ∈ c.cfg.itemsOf q) :
    p.rhs.length < m.states.length ∧ p.rhs.length ≤ m.entries.length ∧
      c.Keeps m ts (.event (.reduce i) (m.entries.take p.rhs.length).reverse
        { m with states := m.states.drop p.rhs.length,
                 entries := .nonterminal p.lhs :: m.entries.drop p.rhs.length,
                 mode := .goto } source) := by
  have hpath := h.path
  rw [hstates, Machine.spelled, if_neg hmode] at hpath
  obtain ⟨hle, htake, q', states', hdrop, hpath', -⟩ := hpath.of_item hb.augmented hp hi
  have hlen := hpath.length_eq
  rw [List.length_map] at hle
  rw [← hstates] at hdrop hlen
  rw [List.take_length, ← List.map_take, ← List.map_reverse] at htake
  rw [List.length_map] at hlen
  obtain ⟨us, vs, rfl, hus, hvs⟩ := Cfg.Grown.split
    (show c.cfg.Grown (m.entries.take p.rhs.length ++ m.entries.drop p.rhs.length) ts by
      rw [List.take_append_drop]
      exact h.grown)
  have hchildren : c.cfg.Forest p.rhs us.reverse := htake ▸ hus.reverse.forest
  refine ⟨by omega, hle, by simp, ⟨p, hp, htake⟩, .node i us.reverse :: vs,
    ⟨?_, fun _ => ⟨p.lhs, _, rfl, ?_⟩, .node hp hchildren hvs, fun t ht => h.tokens t ?_⟩, ?_, ?_⟩
  · show c.cfg.Path (m.states.drop p.rhs.length) ((m.entries.drop p.rhs.length).map Entry.symbol)
    rw [hdrop, List.map_drop]
    exact hpath'
  · exact hb.augmented.lhs_mem p (List.mem_of_getElem? hp)
  · refine ht.imp ?_ id
    intro ht
    rcases List.mem_cons.mp ht with ht | ht
    · exact nomatch ht
    · exact List.mem_of_mem_drop ht
  · rw [hus.reduce, nodes_node]
  · rw [List.reverse_cons, yields_append, List.reverse_append, yields_append]
    simp [yields, yield]

/-- Accepting behind the root. -/
theorem event_accept (h : c.Sound m source ts) (hb : c.Built) (hmode : m.mode ≠ .goto)
    {q : StateId} {states : List StateId} (hstates : m.states = q :: states)
    (hi : (⟨ProductionId.root, 1⟩ : Item) ∈ c.cfg.itemsOf q) :
    ∃ entry, m.entries = [entry] ∧
      c.Keeps m ts (.event .accept [entry] { m with entries := [], mode := .accepted } source) := by
  have hpath := h.path
  rw [hstates, Machine.spelled, if_neg hmode] at hpath
  obtain ⟨rfl, hxs, hgoto⟩ := hpath.of_root_complete hb.augmented hi
  obtain ⟨entry, hentries, hsymbol⟩ := List.map_eq_singleton_iff.mp hxs
  have hgrown := h.grown
  rw [hentries] at hgrown
  refine ⟨entry, hentries, ?_⟩
  cases hgrown with
  | token read hrest =>
    -- A token with the symbol of the root would be no terminal.
    have hterm := h.tokens read (Or.inl (by rw [hentries]; exact List.mem_singleton_self _))
    have hroot := hb.nonterminals c.root hb.augmented.root_mem
    rw [← hsymbol] at hroot
    exact absurd (hterm.symm.trans hroot) (by decide)
  | node hp hchildren hrest =>
    cases hrest
    have hsymbol : _ = c.root := hsymbol
    refine ⟨by rw [← hsymbol]; rfl, rfl, rfl, ⟨q, hstates, hgoto⟩, _, rfl, rfl, ?_⟩
    rw [← hsymbol]
    exact .node hp hchildren .nil

/-- A nonterminal ahead is gone over: only terminals are looked ahead at for a reduction. -/
theorem shift_of_goto (hb : c.Built) {q : StateId} {x : TermId} (hx : x ∈ c.cfg.nonterminals)
    {choice : Choice StateId TermId ProductionId} (h : c.cfg.Allows q x choice) :
    ∃ target, choice = .shift target ∧ c.cfg.goto? q x = some target := by
  cases h with
  | shift hgoto => exact ⟨_, rfl, hgoto⟩
  | reduce hp hk => exact absurd hx (hb.augmented.not_both x (hk.terminal hb.augmented))
  | accept _ hk => exact absurd hx (hb.augmented.not_both x (hk.terminal hb.augmented))

/-- **A step that the automaton allows keeps the invariant.** -/
theorem perform (h : c.Sound m source ts) (hb : c.Built) (hmode : m.mode ≠ .accepted) {q : StateId}
    {states : List StateId} (hstates : m.states = q :: states) {ahead : Option TermId}
    (hgoto : m.mode = .goto → ∃ entry rest, m.entries = entry :: rest ∧ ahead = some entry.symbol)
    (hread : m.mode ≠ .goto → ahead = m.held.map Token.symbol)
    {choice : Choice StateId TermId ProductionId}
    (hallows : c.cfg.Allows q (ahead.getD TermId.eof) choice) :
    c.Keeps m ts (m.perform source choice) := by
  by_cases hm : m.mode = .goto
  · obtain ⟨entry, rest, hentries, rfl⟩ := hgoto hm
    obtain ⟨x, rest', hentries', hx⟩ := h.head hm
    obtain ⟨rfl, rfl⟩ := List.cons.inj (hentries.symm.trans hentries')
    obtain ⟨target, rfl, htarget⟩ := shift_of_goto hb hx hallows
    rw [Machine.perform, if_pos hm]
    exact h.goOn_goto hm hstates hentries htarget
  · obtain rfl := hread hm
    cases hallows with
    | shift htarget =>
      rw [Machine.perform, if_neg hm]
      cases hheld : m.held with
      | none => exact ⟨hmode, h⟩
      | some t =>
        rw [hheld] at htarget
        exact h.goOn_token hm hstates hheld htarget
    | reduce hp hk =>
      obtain ⟨hlt, hle, hkeeps⟩ := h.event_reduce hb hm hstates hp (hk.mem_itemsOf hb.augmented)
      rw [Machine.perform, if_neg (Nat.not_le.mpr hlt), if_neg (Nat.not_lt.mpr hle)]
      exact hkeeps
    | accept hk hl =>
      obtain ⟨entry, hentries, hkeeps⟩ :=
        h.event_accept hb hm hstates (hl.mem_itemsOf hb.augmented)
      rw [Machine.perform, hentries]
      exact hkeeps

/-- **One pass keeps the invariant.** -/
theorem pass (h : c.Sound m source ts) (hb : c.Built) (hmode : m.mode ≠ .accepted) :
    c.Keeps m ts (Machine.pass c.table m source) := by
  unfold Machine.pass
  split
  · exact ⟨hmode, h⟩
  · rename_i q states hstates
    split
    · rename_i cause m' source' hlook
      have hm' : m'.mode = m.mode := by rw [(Machine.lookAhead_eq hlook).1]
      exact ⟨hm' ▸ hmode, h.lookAhead hlook⟩
    · rename_i ahead m' source' hlook
      have heq := (Machine.lookAhead_eq hlook).1
      have hm' : m'.mode = m.mode := by rw [heq]
      have hentries : m'.entries = m.entries := by rw [heq]
      have hsound := h.lookAhead hlook
      -- What is gained is counted from the entries, which looking ahead leaves alone.
      have hgained : c.Keeps m ts = c.Keeps m' ts := by
        funext pass
        cases pass <;> simp only [Keeps, Machine.gained, hentries]
      split
      · exact ⟨hm' ▸ hmode, hsound⟩
      · rename_i choice hchoose
        rw [hgained]
        refine hsound.perform hb (hm' ▸ hmode) (by rw [heq]; exact hstates) ?_ ?_
          (hb.allows_of_choose hchoose)
        · intro hm
          rw [hentries]
          exact Machine.lookAhead_of_goto (hm' ▸ hm) hlook
        · intro hm
          exact Machine.lookAhead_of_not_goto (hm' ▸ hm) hlook

end Sound

/-! ## Calls -/

/-- What a call may report when the trees are `ts` before its last pass. -/
def Reports (c : Compiled) (ts : List ParseTree) :
    Except ParseError (Event ProductionId × List (Entry TermId)) × Machine StateId TermId ×
      Source TermId → Prop
  | (.ok (.reduce i, args), m', source') => m'.mode ≠ .accepted ∧
      (∃ p, c.cfg.productions[i]? = some p ∧ args.map Entry.symbol = p.rhs) ∧
      ∃ ts', c.Sound m' source' ts' ∧ nodes ts' = ParseTree.reduce i args (nodes ts) ∧
        yields ts'.reverse = yields ts.reverse
  | (.ok (.accept, args), m', _) => c.Accepted args m' ts
  | (.error _, m', source') => m'.mode ≠ .accepted ∧ c.Sound m' source' ts

/-- The passes of one call keep the subtrees, and their tokens grow by those shifted. -/
theorem Sound.nextEvent (hb : c.Built) (h : c.Sound m source ts) (hmode : m.mode ≠ .accepted) :
    ∃ ts', nodes ts' = nodes ts ∧
      yields ts'.reverse = yields ts.reverse ++ m.shifts c.table source ∧
      c.Reports ts' (m.nextEvent c.table source) := by
  induction hload : m.load source using Nat.strongRecOn generalizing m source ts with
  | ind load ih =>
    have hpass := h.pass hb hmode
    cases hp : Machine.pass c.table m source with
    | goOn m' source' =>
      rw [hp] at hpass
      obtain ⟨hmode', ts', hsound, hnodes, hyields⟩ := hpass
      have hlt := Machine.pass_goOn_load_lt hp
      obtain ⟨ts'', hnodes', hyields', hreports⟩ :=
        ih _ (hload ▸ hlt) hsound hmode' rfl
      refine ⟨ts'', hnodes'.trans hnodes, ?_, ?_⟩
      · rw [hyields', hyields, Machine.shifts_of_goOn hmode hp, List.append_assoc]
      · rw [Machine.nextEvent_of_goOn hmode hp]
        exact hreports
    | event event args m' source' =>
      rw [hp] at hpass
      have hshifts : m.shifts c.table source = [] :=
        Machine.shifts_of_not_goOn fun _ _ heq => nomatch hp.symm.trans heq
      refine ⟨ts, rfl, by rw [hshifts, List.append_nil], ?_⟩
      rw [Machine.nextEvent_of_event hmode hp]
      cases event with
      | reduce i => exact hpass
      | accept => exact hpass
    | error cause m' source' =>
      rw [hp] at hpass
      have hshifts : m.shifts c.table source = [] :=
        Machine.shifts_of_not_goOn fun _ _ heq => nomatch hp.symm.trans heq
      refine ⟨ts, rfl, by rw [hshifts, List.append_nil], ?_⟩
      rw [Machine.nextEvent_of_error hmode hp]
      exact hpass

/-- **One call keeps the invariant** unless it accepts: it changes the subtrees as its event says,
and their tokens grow by those it shifts. -/
theorem Sound.call (hb : c.Built) (h : c.Sound m source ts) (hmode : m.mode ≠ .accepted) :
    (m.nextEvent c.table source).2.1.mode = .accepted ∨
      ∃ ts', c.Sound (m.nextEvent c.table source).2.1 (m.nextEvent c.table source).2.2 ts' ∧
        nodes ts' =
          afterCall (nodes ts) ⟨m.shifts c.table source, (m.nextEvent c.table source).1⟩ ∧
        yields ts'.reverse = yields ts.reverse ++ m.shifts c.table source := by
  obtain ⟨ts₁, hnodes, hyields, hreports⟩ := h.nextEvent hb hmode
  rw [← hnodes, ← hyields]
  generalize m.nextEvent c.table source = next at hreports ⊢
  obtain ⟨outcome, m₁, source₁⟩ := next
  rcases outcome with cause | ⟨event, args⟩
  · exact Or.inr ⟨ts₁, hreports.2, rfl, rfl⟩
  · cases event with
    | reduce i =>
      obtain ⟨-, -, ts₂, hsound, hnodes₂, hyields₂⟩ := hreports
      exact Or.inr ⟨ts₂, hsound, hnodes₂, hyields₂⟩
    | accept => exact Or.inl hreports.mode

/-- All tokens shifted in a run. -/
def shiftedIn (calls : List (Call TermId ProductionId)) : List (Token TermId) :=
  calls.flatMap Call.shifted

/-- **A run keeps the invariant** until it accepts: the subtrees are those assembled from its
events, and their tokens are those it has shifted. -/
theorem Sound.calls (hb : c.Built) : ∀ (n : Nat) {m : Machine StateId TermId}
    {source : Source TermId} {ts : List ParseTree}, c.Sound m source ts →
    (Machine.calls c.table n m source).2.1.mode = .accepted ∨
      ∃ ts', c.Sound (Machine.calls c.table n m source).2.1
          (Machine.calls c.table n m source).2.2 ts' ∧
        nodes ts' = (Machine.calls c.table n m source).1.foldl afterCall (nodes ts) ∧
        yields ts'.reverse = yields ts.reverse ++ shiftedIn (Machine.calls c.table n m source).1
  | 0, m, source, ts, h => Or.inr ⟨ts, h, rfl, by simp [shiftedIn, Machine.calls]⟩
  | n + 1, m, source, ts, h => by
    by_cases hmode : m.mode = .accepted
    · rw [Machine.calls_of_accepted c.table source hmode]
      exact Or.inl hmode
    · rw [Machine.calls_succ]
      rcases h.call hb hmode with haccepted | ⟨ts₁, hsound, hnodes, hyields⟩
      · rw [Machine.calls_of_accepted c.table _ haccepted]
        exact Or.inl haccepted
      · refine (Sound.calls hb n hsound).imp id ?_
        rintro ⟨ts', hsound', hnodes', hyields'⟩
        refine ⟨ts', hsound', ?_, ?_⟩
        · rw [hnodes', hnodes, List.foldl_cons]
        · rw [hyields', hyields, List.append_assoc]
          rfl

/-- The machine accepts with the end of input ahead. -/
theorem Built.ahead_of_accept (hb : c.Built) {m' : Machine StateId TermId}
    {source' : Source TermId} {args : List (Entry TermId)}
    (h : m.nextEvent c.table source = (.ok (.accept, args), m', source')) :
    m.aheadOfEvent c.table source = .ok none ∨
      m.aheadOfEvent c.table source = .ok (some TermId.eof) := by
  obtain ⟨q, states, entries, ahead, hahead, -, hchoose⟩ := Machine.choose_of_accept h
  rw [hahead]
  cases hb.allows_of_choose hchoose with
  | accept hk _ =>
    cases ahead with
    | none => exact Or.inl rfl
    | some x =>
      have hx : x = TermId.eof := hk
      exact Or.inr (by rw [hx])

/-- **Soundness of parsing**, for every definition that compiles, every source of terminals and
every call of every run. A reduction delivers the right-hand side of its production. Accepting
delivers the root alone and leaves nothing on the stack; it looks at the end of input, as nothing
or as a token; and the subtrees assembled from the reductions are one derivation tree of the root,
which yields the tokens shifted. -/
theorem parsing_sound [Text.Xid] {ignoreCase : Bool} {commands : List Command}
    (h : (Definition.ofCommands ignoreCase commands).compile = .ok c) {source : Source TermId}
    (hsource : ∀ t : Token TermId, .token t ∈ source → c.isTerminal t.symbol = true) {n : Nat}
    {done : List (Call TermId ProductionId)} {m : Machine StateId TermId} {rest : Source TermId}
    (hrun : Machine.calls c.table n (Machine.start c.table) source = (done, m, rest)) :
    (∀ i args m' rest', m.nextEvent c.table rest = (.ok (.reduce i, args), m', rest') →
      ∃ p, c.cfg.productions[i]? = some p ∧ args.map Entry.symbol = p.rhs) ∧
    (∀ args m' rest', m.nextEvent c.table rest = (.ok (.accept, args), m', rest') →
      args = [.nonterminal c.root] ∧ m'.entries = [] ∧
      (m.aheadOfEvent c.table rest = .ok none ∨
        m.aheadOfEvent c.table rest = .ok (some TermId.eof)) ∧
      ∃ tree, assemble done = [tree] ∧ c.cfg.Forest [c.root] [tree] ∧
        tree.yield = shiftedIn done ++ m.shifts c.table rest) := by
  have hb := Definition.built_of_compile h
  have hcalls := (Sound.start hsource).calls hb n
  rw [hrun] at hcalls
  have hnot : ∀ {event args m' rest'},
      m.nextEvent c.table rest = (.ok (event, args), m', rest') → m.mode ≠ .accepted := by
    intro event args m' rest' hnext hmode
    rw [Machine.nextEvent_of_accepted hmode] at hnext
    simp at hnext
  constructor
  · intro i args m' rest' hnext
    obtain ⟨ts, hsound, -, -⟩ := hcalls.resolve_left (hnot hnext)
    obtain ⟨ts', -, -, hreports⟩ := hsound.nextEvent hb (hnot hnext)
    rw [hnext] at hreports
    exact hreports.2.1
  · intro args m' rest' hnext
    obtain ⟨ts, hsound, hnodes, hyields⟩ := hcalls.resolve_left (hnot hnext)
    obtain ⟨ts', hnodes', hyields', hreports⟩ := hsound.nextEvent hb (hnot hnext)
    rw [hnext] at hreports
    obtain ⟨tree, rfl, htree, hforest⟩ := hreports.tree
    refine ⟨hreports.args, hreports.entries, hb.ahead_of_accept hnext, tree, ?_, hforest, ?_⟩
    · rw [assemble, ← htree, hnodes', hnodes]
      rfl
    · have hyield : yields [tree].reverse = tree.yield := by simp [yields]
      rw [← hyield, hyields', hyields]
      rfl

/-- Sums of `x`. They are ambiguous, and the conflict is decided for the shift. -/
def sums : List Command :=
  [.literal "x", .literal "+", .nonterminal "S",
    .rule 5 ⟨[[.term 5, .term 4, .term 5], [.term 3]]⟩, .root 5]

/-- The sums, compiled. -/
def sumsCompiled : Compiled :=
  let d := Definition.ofCommands false sums
  d.compileCollection 5 (d.collect 5)

/-- A sum of three `x`, with a failure on the way and the end of input as a token. -/
def sumsSource : Source TermId :=
  [.token ⟨3, "x"⟩, .token ⟨4, "+"⟩, .token ⟨3, "x"⟩, .token ⟨4, "+"⟩, .failure "noise",
    .token ⟨3, "x"⟩, .token ⟨0, ""⟩]

/-- The run over the sum: the seventh call accepts. -/
def sumsRun : List (Call TermId ProductionId) × Machine StateId TermId × Source TermId :=
  Machine.calls sumsCompiled.table 6 (Machine.start sumsCompiled.table) sumsSource

set_option maxRecDepth 10000 in
theorem parsing_sound_sums :
    (Definition.ofCommands false sums).compile = .ok sumsCompiled ∧
      ∃ tree, assemble sumsRun.1 = [tree] ∧ sumsCompiled.cfg.Forest [5] [tree] ∧
        tree.yield = [⟨3, "x"⟩, ⟨4, "+"⟩, ⟨3, "x"⟩, ⟨4, "+"⟩, ⟨3, "x"⟩] := by
  have hcompile : (Definition.ofCommands false sums).compile = .ok sumsCompiled :=
    Definition.compile_eq_ok (by decide) (by decide)
  have hsource : ∀ t : Token TermId, .token t ∈ sumsSource →
      sumsCompiled.isTerminal t.symbol = true := by
    intro t ht
    have hsymbol : t.symbol ∈ [3, 4, 0] := by
      simp only [sumsSource, List.mem_cons, Signal.token.injEq, reduceCtorEq, false_or,
        List.not_mem_nil, or_false] at ht
      rcases ht with rfl | rfl | rfl | rfl | rfl | rfl <;> decide
    have hterminals : ∀ x ∈ [3, 4, 0], sumsCompiled.isTerminal x = true := by decide
    exact hterminals _ hsymbol
  have hrun : Machine.calls sumsCompiled.table 6 (Machine.start sumsCompiled.table) sumsSource =
      (sumsRun.1, sumsRun.2.1, sumsRun.2.2) := rfl
  have hnext : sumsRun.2.1.nextEvent sumsCompiled.table sumsRun.2.2 =
      (.ok (.accept, [.nonterminal 5]),
        { states := [2, 0], entries := [], mode := .accepted, held := some ⟨0, ""⟩ }, []) := by
    decide +kernel
  have hshifted : shiftedIn sumsRun.1 ++ sumsRun.2.1.shifts sumsCompiled.table sumsRun.2.2 =
      [⟨3, "x"⟩, ⟨4, "+"⟩, ⟨3, "x"⟩, ⟨4, "+"⟩, ⟨3, "x"⟩] := by
    decide +kernel
  obtain ⟨-, -, -, tree, htree, hforest, hyield⟩ :=
    (parsing_sound hcompile hsource hrun).2 _ _ _ hnext
  exact ⟨hcompile, tree, htree, hforest, hyield.trans hshifted⟩

end Compiled

end Lalr

import Lalr.Proofs.Cfg.Tree
import Lalr.Proofs.Compiled.Choice
import Lalr.Proofs.Machine.Run

/-!
# Completeness of parsing

Where nothing has to be settled (`Compiled.Decided`), the machine retraces every derivation tree.
The lemma that carries the proof (**`Decided.retraces`**) is about any part of a right-hand side:
the dot of an item stands before the symbols `xs` (`Cfg.Before`), and the input starts with what
trees for `xs` yield. Then the machine reports the productions of the trees in postorder and comes
to stand behind `xs`, with the rest of the input ahead (`Retraces`).

It needs to know that what comes after the trees may follow the item (`Expected`): this is what the
lookaheads are for. The induction is on the trees; a node needs it inside for the children
(`Retraces.over`) and behind for the siblings.
-/

namespace Lalr

open ParseTree

namespace Machine

variable {State Symbol Rule : Type} {table : Table State Symbol Rule} {m : Machine State Symbol}
  {source : Source Symbol} {input : List (Token Symbol)}

/-- The machine is reading, and has the tokens before it. -/
structure Ready (m : Machine State Symbol) (source : Source Symbol) (input : List (Token Symbol)) :
    Prop where
  mode  : m.mode = .reading
  input : ∃ later, source = later.map .token ∧ m.held.toList ++ later = input

/-- A machine that is ready sees the first token, and holds it from then on. -/
theorem Ready.lookAhead_eq (h : m.Ready source input) :
    m.lookAhead source = (.ok (input.head?.map Token.symbol),
      { m with held := input.head? }, input.tail.map .token) := by
  obtain ⟨later, rfl, rfl⟩ := h.input
  have hmode := Mode.ne_goto h.mode
  unfold lookAhead
  rw [if_neg hmode]
  cases hheld : m.held with
  | some t =>
    have hm : { m with held := some t } = m := by
      cases m
      simp_all
    simp [hm]
  | none =>
    cases later with
    | nil => rfl
    | cons t later => rfl

/-- After looking ahead it is still ready. -/
theorem ready_of_head (hmode : m.mode = .reading) (hheld : m.held = input.head?) :
    m.Ready (input.tail.map .token) input := by
  refine ⟨hmode, input.tail, rfl, ?_⟩
  rw [hheld]
  cases input <;> rfl

/-- What a pass does once the machine is ready. -/
theorem Ready.pass_eq (h : m.Ready source input) {q : State} {states : List State}
    (hstates : m.states = q :: states) {choice : Choice State Symbol Rule}
    (hchoose : table.choose m.entries (input.head?.map Token.symbol)
      (table.action q (input.head?.map Token.symbol)) = .ok choice) :
    Machine.pass table m source =
      { m with held := input.head? }.perform (input.tail.map .token) choice := by
  unfold Machine.pass
  simp only [hstates, h.lookAhead_eq, hchoose]

/-- A refusal is an error. -/
theorem Ready.pass_error (h : m.Ready source input) {q : State} {states : List State}
    (hstates : m.states = q :: states) {cause : Refusal}
    (hchoose : table.choose m.entries (input.head?.map Token.symbol)
      (table.action q (input.head?.map Token.symbol)) = .error cause) :
    Machine.pass table m source =
      .error (.rejected cause) { m with held := input.head? } (input.tail.map .token) := by
  unfold Machine.pass
  simp only [hstates, h.lookAhead_eq, hchoose]

theorem Ready.pass_shift {t : Token Symbol} {later : List (Token Symbol)}
    (h : m.Ready source (t :: later)) {q target : State} {states : List State}
    (hstates : m.states = q :: states)
    (hchoose : table.choose m.entries (some t.symbol) (table.action q (some t.symbol)) =
      .ok (.shift target)) :
    Machine.pass table m source =
      .goOn { states := target :: m.states, entries := .token t :: m.entries, mode := .reading,
              held := none } (later.map .token) := by
  have hmode := Mode.ne_goto h.mode
  rw [h.pass_eq hstates hchoose]
  simp [Machine.perform, hmode]

theorem Ready.pass_reduce (h : m.Ready source input) {q : State} {states : List State}
    (hstates : m.states = q :: states) {rule : Rule} {lhs : Symbol} {arity : Nat}
    (hchoose : table.choose m.entries (input.head?.map Token.symbol)
      (table.action q (input.head?.map Token.symbol)) = .ok (.reduce rule lhs arity))
    {front : List State} {q' : State} {states' : List State}
    (hfront : m.states = front ++ q' :: states') (hlen : front.length = arity)
    {es entries : List (Entry Symbol)} (hentries : m.entries = es ++ entries)
    (hes : es.length = arity) :
    Machine.pass table m source =
      .event (.reduce rule) es.reverse
        { states := q' :: states', entries := .nonterminal lhs :: entries, mode := .goto,
          held := input.head? } (input.tail.map .token) := by
  rw [h.pass_eq hstates hchoose]
  have hstate : ¬ m.states.length ≤ arity := by
    rw [hfront, List.length_append, List.length_cons]
    omega
  have hentry : ¬ m.entries.length < arity := by
    rw [hentries, List.length_append]
    omega
  rw [Machine.perform]
  simp only [hstate, hentry, if_false]
  rw [hfront, hentries, ← hlen, List.drop_left, hlen, ← hes, List.take_left, List.drop_left]

theorem Ready.pass_accept (h : m.Ready source []) {q : State} {states : List State}
    (hstates : m.states = q :: states) (haction : table.action q none = .accept)
    {entry : Entry Symbol} {entries : List (Entry Symbol)}
    (hentries : m.entries = entry :: entries) :
    ∃ m', Machine.pass table m source = .event .accept [entry] m' [] := by
  have hchoose : table.choose m.entries none (table.action q none) = .ok .accept := by
    rw [haction]
    rfl
  rw [h.pass_eq hstates hchoose]
  simp [Machine.perform, hentries]

/-- Right after a reduction the machine goes over the left-hand side. -/
theorem pass_of_goto (hmode : m.mode = .goto) {q target : State} {states : List State}
    (hstates : m.states = q :: states) {x : Symbol} {entries : List (Entry Symbol)}
    (hentries : m.entries = .nonterminal x :: entries)
    (haction : table.action q (some x) = .shift target) :
    Machine.pass table m source =
      .goOn { m with states := target :: m.states, mode := .reading } source := by
  have hlook : m.lookAhead source = (.ok (some x), m, source) := lookAhead_of_entry hmode hentries
  unfold Machine.pass
  simp only [hstates, hlook, haction, Table.choose, Machine.perform, if_pos hmode]

end Machine

namespace Cfg

/-- The item is in the state, and its dot stands before `xs` and then `rest`. -/
structure Before (g : Cfg) (q : StateId) (item : Item) (xs rest : List TermId) : Prop where
  mem     : item ∈ g.itemsOf q
  symbols : ∃ p, g.productions[item.production]? = some p ∧
    p.rhs.drop item.position = xs ++ rest

namespace Before

variable {g : Cfg} {root x : TermId} {q q' : StateId} {item : Item} {xs rest : List TermId}

theorem next (h : g.Before q item (x :: xs) rest) : g.next item = some x := by
  obtain ⟨p, hp, hdrop⟩ := h.symbols
  refine next_eq_some_iff.mpr ⟨p, hp, ?_⟩
  rw [← List.head?_drop, hdrop]
  rfl

theorem drop_advance (h : g.Before q item (x :: xs) rest) :
    ∃ p, g.productions[item.production]? = some p ∧
      p.rhs.drop (item.position + 1) = xs ++ rest := by
  obtain ⟨p, hp, hdrop⟩ := h.symbols
  refine ⟨p, hp, ?_⟩
  rw [← List.tail_drop, hdrop]
  rfl

theorem tail (h : g.Before q item (x :: xs) rest) : g.tail item = xs ++ rest := by
  obtain ⟨p, hp, hdrop⟩ := h.drop_advance
  rw [tail_eq hp, hdrop]

/-- Where the state moves over the first symbol, the dot stands before the others. -/
theorem advance (h : g.Before q item (x :: xs) rest) (hg : g.Augmented root)
    (hq : g.goto? q x = some q') : g.Before q' item.advance xs rest :=
  ⟨hg.advance_mem_of_goto hq h.mem h.next, h.drop_advance⟩

/-- Before a left-hand side, the dot also stands before the whole right-hand side. -/
theorem start {i : ProductionId} {p : Production} (h : g.Before q item (p.lhs :: xs) rest)
    (hg : g.Augmented root) (hp : g.productions[i]? = some p) :
    g.Before q (Item.start i) p.rhs [] :=
  ⟨hg.itemsOf_step h.mem hp h.next, p, hp, (List.append_nil _).symm⟩

/-- Behind the symbol after the dot stands the tail. -/
theorem of_next (hi : item ∈ g.itemsOf q) (hx : g.next item = some x) :
    g.Before q item (x :: g.tail item) [] := by
  obtain ⟨p, hp, -⟩ := next_eq_some_iff.mp hx
  exact ⟨hi, p, hp, by rw [drop_of_next hp hx, List.append_nil]⟩

end Before

end Cfg

namespace Compiled

variable {c : Compiled} {m : Machine StateId TermId} {source : Source TermId}
  {input : List (Token TermId)} {q : StateId} {states : List StateId}

/-- The symbol of the first token, or the end of input. -/
def firstOf (input : List (Token TermId)) : TermId := (input.head?.map Token.symbol).getD TermId.eof

/-- The symbol may come behind the item once its dot has passed everything but `rest`. -/
def Expected (c : Compiled) (q : StateId) (item : Item) (rest : List TermId) (k : TermId) : Prop :=
  (k ∈ c.cfg.terminals ∧ ∃ w, c.cfg.Derives rest (k :: w)) ∨
    (c.cfg.Derives rest [] ∧ c.cfg.Lookahead q item k)

/-- Moving on does not change what may come behind the rest. -/
theorem Expected.move {item : Item} {rest : List TermId} {k x : TermId} {q' : StateId}
    (h : c.Expected q item rest k) (hi : item ∈ c.cfg.itemsOf q) (hx : c.cfg.next item = some x)
    (hq : c.cfg.goto? q x = some q') : c.Expected q' item.advance rest k :=
  h.imp id fun ⟨hrest, hk⟩ => ⟨hrest, .move hk hi hx hq⟩

namespace Decided

/-! ## Passes -/

/-- Where the automaton moves over the next token, the machine shifts it. -/
theorem pass_shift (hd : c.Decided) {t : Token TermId} {later : List (Token TermId)}
    (h : m.Ready source (t :: later)) (hstates : m.states = q :: states) {target : StateId}
    (htarget : c.cfg.goto? q t.symbol = some target) :
    Machine.pass c.table m source =
      .goOn { states := target :: m.states, entries := .token t :: m.entries, mode := .reading,
              held := none } (later.map .token) := by
  have haction : c.table.action q (some t.symbol) = .shift target := hd.action_of_goto htarget
  refine h.pass_shift hstates ?_
  rw [haction]
  rfl

/-- Where a production other than the augmented root's is complete and the next token is a
lookahead, the machine reduces it. -/
theorem pass_reduce (hd : c.Decided) (h : m.Ready source input) (hstates : m.states = q :: states)
    {i : ProductionId} {p : Production} (hp : c.cfg.productions[i]? = some p)
    (hi : i ≠ ProductionId.root) (hk : c.cfg.Lookahead q ⟨i, p.rhs.length⟩ (firstOf input))
    {front : List StateId} {q' : StateId} {states' : List StateId}
    (hfront : m.states = front ++ q' :: states') (hlen : front.length = p.rhs.length)
    {es entries : List (Entry TermId)} (hentries : m.entries = es ++ entries)
    (hes : es.length = p.rhs.length) :
    Machine.pass c.table m source =
      .event (.reduce i) es.reverse
        { states := q' :: states', entries := .nonterminal p.lhs :: entries, mode := .goto,
          held := input.head? } (input.tail.map .token) := by
  have haction := hd.action_of_reducible (input.head?.map Token.symbol) hp hk
  rw [if_neg fun hroot => hi hroot.2] at haction
  refine h.pass_reduce hstates ?_ hfront hlen hentries hes
  rw [haction]
  rfl

/-- Where the automaton moves over the left-hand side, the machine does so after a reduction. -/
theorem pass_goto (hd : c.Decided) (hmode : m.mode = .goto) (hstates : m.states = q :: states)
    {x : TermId} {entries : List (Entry TermId)} (hentries : m.entries = .nonterminal x :: entries)
    {target : StateId} (htarget : c.cfg.goto? q x = some target) :
    Machine.pass c.table m source =
      .goOn { m with states := target :: m.states, mode := .reading } source :=
  Machine.pass_of_goto hmode hstates hentries (hd.action_of_goto htarget)

/-- Behind the root, at the end of input, the machine accepts. -/
theorem pass_accept (hd : c.Decided) (h : m.Ready source []) (hstates : m.states = q :: states)
    (hk : c.cfg.Lookahead q ⟨ProductionId.root, 1⟩ TermId.eof) {entry : Entry TermId}
    {entries : List (Entry TermId)} (hentries : m.entries = entry :: entries) :
    ∃ m', Machine.pass c.table m source = .event .accept [entry] m' [] := by
  have haction := hd.action_of_reducible none hd.built.augmented.root_production hk
  rw [if_pos ⟨rfl, rfl⟩] at haction
  exact h.pass_accept hstates haction hentries

/-! ## Retracing trees -/

/-- What comes behind a nonterminal and may follow the item is a lookahead of its start items:
it begins what the siblings yield or, if they yield nothing, is expected already. -/
theorem lookahead_start {item : Item} {i : ProductionId} {p : Production} {xs rest : List TermId}
    (h : c.cfg.Before q item (p.lhs :: xs) rest) (hp : c.cfg.productions[i]? = some p)
    {ts : List ParseTree} (hts : c.cfg.Forest xs ts) {u : List (Token TermId)}
    (hterminals : ∀ t ∈ yields ts ++ u, t.symbol ∈ c.cfg.terminals)
    (hexpected : c.Expected q item rest (firstOf u)) :
    c.cfg.Lookahead q (Item.start i) (firstOf (yields ts ++ u)) := by
  have hderives := hts.derives
  have htail := h.tail
  cases hyields : yields ts with
  | cons t later =>
    rw [hyields] at hderives hterminals
    have hw : c.cfg.Derives (c.cfg.tail item) (t.symbol :: (later.map Token.symbol ++ rest)) := by
      rw [htail]
      exact hderives.append_right rest
    exact .follow h.mem hp h.next (hterminals t List.mem_cons_self) hw
  | nil =>
    rw [hyields] at hderives
    rcases hexpected with ⟨hk, w, hw⟩ | ⟨hrest, hk⟩
    · have hw' : c.cfg.Derives (c.cfg.tail item) (firstOf u :: w) := by
        rw [htail]
        exact hderives.append hw
      exact .follow h.mem hp h.next hk hw'
    · refine .inherit hk h.mem hp h.next ?_
      rw [htail]
      exact hderives.append hrest

/-- Where the machine stands once it has retraced trees for `xs` behind the dot of an item: above
the stacks it had, before the rest of the input, with the item moved on. -/
structure Parsed (c : Compiled) (m : Machine StateId TermId) (q : StateId) (item : Item)
    (xs : List TermId) (u : List (Token TermId)) (m' : Machine StateId TermId)
    (source' : Source TermId) : Prop where
  ready   : m'.Ready source' u
  states  : ∃ front, m'.states = front ++ m.states ∧ front.length = xs.length
  entries : ∃ es, m'.entries = es ++ m.entries ∧ es.length = xs.length
  item    : ∃ q' states', m'.states = q' :: states' ∧
    (⟨item.production, item.position + xs.length⟩ : Item) ∈ c.cfg.itemsOf q' ∧
    ∀ k, c.cfg.Lookahead q item k →
      c.cfg.Lookahead q' ⟨item.production, item.position + xs.length⟩ k

theorem Parsed.cons {m₁ m' : Machine StateId TermId} {source' : Source TermId} {q₁ : StateId}
    {item : Item} {x : TermId} {xs rest : List TermId} {u : List (Token TermId)}
    (hbefore : c.cfg.Before q item (x :: xs) rest) (hq : c.cfg.goto? q x = some q₁)
    (hstates : m₁.states = q₁ :: m.states) {e : Entry TermId}
    (hentries : m₁.entries = e :: m.entries)
    (h : Parsed c m₁ q₁ item.advance xs u m' source') :
    Parsed c m q item (x :: xs) u m' source' := by
  obtain ⟨front, hfront, hlen⟩ := h.states
  obtain ⟨es, hes, hlen'⟩ := h.entries
  obtain ⟨q', states', hq', hitem, hla⟩ := h.item
  have hpos : item.advance.position + xs.length = item.position + (x :: xs).length := by
    simp only [Item.advance, List.length_cons]
    omega
  rw [hpos] at hitem hla
  refine ⟨h.ready, ⟨front ++ [q₁], ?_, by simp [hlen]⟩, ⟨es ++ [e], ?_, by simp [hlen']⟩, q',
    states', hq', hitem, fun k hk => hla k (.move hk hbefore.mem hbefore.next hq)⟩
  · rw [hfront, hstates, List.append_assoc, List.singleton_append]
  · rw [hes, hentries, List.append_assoc, List.singleton_append]

/-- The machine retraces the trees wherever a dot stands before their symbols and what comes after
them may follow. -/
def Retraces (c : Compiled) (xs : List TermId) (ts : List ParseTree) : Prop :=
  ∀ {m : Machine StateId TermId} {source : Source TermId} {q : StateId} {states : List StateId}
    {item : Item} {rest : List TermId} {u : List (Token TermId)},
    m.states = q :: states → c.cfg.Before q item xs rest → m.Ready source (yields ts ++ u) →
    (∀ t ∈ yields ts ++ u, t.symbol ∈ c.cfg.terminals) → c.Expected q item rest (firstOf u) →
    ∃ m' source', Parsed c m q item xs u m' source' ∧
      ∀ rules, Machine.Accepts c.table m' source' rules →
        Machine.Accepts c.table m source (postorders ts ++ rules)

theorem retraces_nil : Retraces c [] [] := by
  intro m source q states item rest u hstates hbefore hready _ _
  exact ⟨m, source, ⟨hready, ⟨[], rfl, rfl⟩, ⟨[], rfl, rfl⟩, q, states, hstates, hbefore.mem,
    fun k hk => hk⟩, fun rules hrules => hrules⟩

/-- A token is shifted. -/
theorem Retraces.leaf (hd : c.Decided) {xs : List TermId} {ts : List ParseTree}
    (h : Retraces c xs ts) (t : Token TermId) :
    Retraces c (t.symbol :: xs) (.leaf t :: ts) := by
  intro m source q states item rest u hstates hbefore hready hterminals hexpected
  have haug := hd.built.augmented
  obtain ⟨q₁, hq₁⟩ := haug.exists_goto hbefore.mem hbefore.next
  have hpass := hd.pass_shift hready hstates hq₁
  have hmode := Mode.ne_accepted hready.mode
  let m₁ : Machine StateId TermId :=
    { states := q₁ :: m.states, entries := .token t :: m.entries, mode := .reading, held := none }
  obtain ⟨m', source', hparsed, haccepts⟩ := h (m := m₁) rfl (hbefore.advance haug hq₁)
    ⟨rfl, yields ts ++ u, rfl, rfl⟩ (fun t' ht' => hterminals t' (List.mem_cons_of_mem _ ht'))
    (hexpected.move hbefore.mem hbefore.next hq₁)
  refine ⟨m', source', hparsed.cons hbefore hq₁ rfl rfl, ?_⟩
  intro rules hrules
  exact .silent hmode hpass (haccepts rules hrules)

/-- **The machine goes over a nonterminal**: it retraces the children, reduces, and moves on. -/
theorem Retraces.over (hd : c.Decided) {children : List ParseTree} {i : ProductionId}
    {p : Production} (hp : c.cfg.productions[i]? = some p) (h : Retraces c p.rhs children)
    {item : Item} {xs rest : List TermId} {u : List (Token TermId)}
    (hstates : m.states = q :: states) (hbefore : c.cfg.Before q item (p.lhs :: xs) rest)
    (hready : m.Ready source (yields children ++ u))
    (hterminals : ∀ t ∈ yields children ++ u, t.symbol ∈ c.cfg.terminals)
    (hstart : c.cfg.Lookahead q (Item.start i) (firstOf u)) :
    ∃ q', c.cfg.goto? q p.lhs = some q' ∧
      ∀ rules, Machine.Accepts c.table
          { states := q' :: m.states, entries := .nonterminal p.lhs :: m.entries,
            mode := .reading, held := u.head? } (u.tail.map .token) rules →
        Machine.Accepts c.table m source (postorders children ++ i :: rules) := by
  have haug := hd.built.augmented
  obtain ⟨m₁, source₁, hparsed, haccepts⟩ := h hstates (hbefore.start haug hp) hready hterminals
    (Or.inr ⟨.refl [], hstart⟩)
  obtain ⟨front, hfront, hlen⟩ := hparsed.states
  obtain ⟨es, hes, hlen'⟩ := hparsed.entries
  obtain ⟨q₁, states₁, hstates₁, -, hlookahead⟩ := hparsed.item
  have hk := hlookahead _ hstart
  rw [show (Item.start i).position + p.rhs.length = p.rhs.length from Nat.zero_add _] at hk
  have hreduce := hd.pass_reduce hparsed.ready hstates₁ hp
    (haug.ne_root_of_next hp hbefore.next) hk (hfront.trans (by rw [hstates])) hlen hes hlen'
  have hreading := Mode.ne_accepted hparsed.ready.mode
  obtain ⟨q₂, hq₂⟩ := haug.exists_goto hbefore.mem hbefore.next
  let m₂ : Machine StateId TermId :=
    { states := q :: states, entries := .nonterminal p.lhs :: m.entries, mode := .goto,
      held := u.head? }
  have hgoto : Machine.pass c.table m₂ (u.tail.map .token) = _ := hd.pass_goto rfl rfl rfl hq₂
  have hmode₂ : m₂.mode ≠ .accepted := Mode.noConfusion
  refine ⟨q₂, hq₂, fun rules hrules => ?_⟩
  rw [hstates] at hrules
  exact haccepts _ (.reduce hreading hreduce (.silent hmode₂ hgoto hrules))

/-- First the children and the reduction, then the siblings behind the nonterminal. -/
theorem Retraces.node (hd : c.Decided) {xs : List TermId} {ts children : List ParseTree}
    {i : ProductionId} {p : Production} (hp : c.cfg.productions[i]? = some p)
    (hchildren : Retraces c p.rhs children) (hts : c.cfg.Forest xs ts) (h : Retraces c xs ts) :
    Retraces c (p.lhs :: xs) (.node i children :: ts) := by
  intro m source q states item rest u hstates hbefore hready hterminals hexpected
  rw [yields_node, List.append_assoc] at hready hterminals
  have hlate : ∀ t ∈ yields ts ++ u, t.symbol ∈ c.cfg.terminals := fun t ht =>
    hterminals t (List.mem_append_right _ ht)
  have hstart := lookahead_start hbefore hp hts hlate hexpected
  obtain ⟨q', hq', hover⟩ := hchildren.over hd hp hstates hbefore hready hterminals hstart
  let m' : Machine StateId TermId :=
    { states := q' :: m.states, entries := .nonterminal p.lhs :: m.entries, mode := .reading,
      held := (yields ts ++ u).head? }
  obtain ⟨m'', source'', hparsed, haccepts⟩ := h (m := m') rfl
    (hbefore.advance hd.built.augmented hq') (Machine.ready_of_head rfl rfl) hlate
    (hexpected.move hbefore.mem hbefore.next hq')
  refine ⟨m'', source'', hparsed.cons hbefore hq' rfl rfl, ?_⟩
  intro rules hrules
  rw [postorders_node, List.append_assoc]
  exact hover _ (haccepts rules hrules)

/-- **The machine retraces trees.** -/
theorem retraces (hd : c.Decided) {xs : List TermId} {ts : List ParseTree}
    (hts : c.cfg.Forest xs ts) : Retraces c xs ts := by
  induction hts with
  | nil => exact retraces_nil
  | leaf t _ ih => exact ih.leaf hd t
  | node hp _ hrest ihchildren ih => exact ihchildren.node hd hp hrest ih

/-- **The machine accepts what the root derives**, by the productions of a tree in postorder. -/
theorem accepts (hd : c.Decided) {ts : List ParseTree} (hts : c.cfg.Forest [c.root] ts)
    (hterminals : ∀ t ∈ yields ts, t.symbol ∈ c.cfg.terminals) :
    Machine.Accepts c.table (Machine.start c.table) ((yields ts).map .token) (postorders ts) := by
  have haug := hd.built.augmented
  have hinitial : c.cfg.Lookahead StateId.initial ⟨ProductionId.root, 0⟩ TermId.eof := .initial
  have hready : (Machine.start c.table).Ready ((yields ts).map .token) (yields ts ++ []) :=
    ⟨rfl, yields ts, rfl, by simp [Machine.start]⟩
  have hbefore : c.cfg.Before StateId.initial ⟨ProductionId.root, 0⟩ [c.root] [] :=
    ⟨hinitial.mem_itemsOf haug, _, haug.root_production, rfl⟩
  obtain ⟨m', source', hparsed, haccepts⟩ := hd.retraces hts rfl hbefore hready
    (by simpa using hterminals) (Or.inr ⟨.refl [], hinitial⟩)
  obtain ⟨q', states', hstates, -, hlookahead⟩ := hparsed.item
  obtain ⟨es, hentries, hlen⟩ := hparsed.entries
  obtain ⟨e, rfl⟩ := List.length_eq_one_iff.mp hlen
  obtain ⟨m'', hpass⟩ := hd.pass_accept hparsed.ready hstates (hlookahead _ hinitial) hentries
  have hmode := Mode.ne_accepted hparsed.ready.mode
  have hrun := haccepts [] (.accept hmode hpass)
  rwa [List.append_nil] at hrun

end Decided

/-- **Completeness of parsing**, for every plain definition that compiles without conflicts and
every word of its terminals that the root derives. The run over the word reports the reductions of
a rightmost derivation, last step first, and accepts, without an error on the way; and the word has
no other rightmost derivation. -/
theorem parsing_complete [Text.Xid] {ignoreCase : Bool} {commands : List Command}
    (h : (Definition.ofCommands ignoreCase commands).compile = .ok c)
    (hplain : (Definition.ofCommands ignoreCase commands).isPlain = true)
    (hlog : c.log.ofLevel .conflict = []) {word : List (Token TermId)}
    (hword : ∀ t ∈ word, t.symbol ∈ c.cfg.terminals)
    (hderives : c.cfg.Derives [c.root] (word.map Token.symbol)) :
    ∃ reductions : List ProductionId,
      (Machine.calls c.table (reductions.length + 1) (Machine.start c.table)
        (word.map .token)).1.map Call.event =
          reductions.map (fun i => .ok (.reduce i)) ++ [.ok .accept] ∧
      c.cfg.Rightmost [c.root] reductions.reverse (word.map Token.symbol) ∧
      ∀ steps, c.cfg.Rightmost [c.root] steps (word.map Token.symbol) →
        steps = reductions.reverse := by
  have hd := decided_of_compile h hplain hlog
  obtain ⟨ts, hts, rfl⟩ := Cfg.exists_forest hderives
  have haccepts := hd.accepts hts hword
  refine ⟨postorders ts, haccepts.calls_eq, hts.rightmost ?_, ?_⟩
  · intro x hx
    obtain ⟨t, ht, rfl⟩ := List.mem_map.mp hx
    exact hword t ht
  · intro steps hsteps
    obtain ⟨us, hus, hyields, hpost⟩ := hd.built.augmented.exists_forest_of_rightmost hsteps rfl
    have haccepts' := hd.accepts hus (by rw [hyields]; exact hword)
    rw [hyields] at haccepts'
    rw [haccepts.unique haccepts', hpost, List.reverse_reverse]

/-- Balanced brackets. -/
def brackets : List Command :=
  [.literal "(", .literal ")", .nonterminal "S",
    .rule 5 ⟨[[.term 1], [.term 3, .term 5, .term 4, .term 5]]⟩, .root 5]

/-- The brackets, compiled. -/
def bracketsCompiled : Compiled :=
  let d := Definition.ofCommands false brackets
  d.compileCollection 5 (d.collect 5)

/-- A pair of brackets. -/
def bracketPair : List (Token TermId) := [⟨3, "("⟩, ⟨4, ")"⟩]

theorem derives_bracketPair : bracketsCompiled.cfg.Derives [5] (bracketPair.map Token.symbol) := by
  have hempty : bracketsCompiled.cfg.productions[1]? = some ⟨5, [], []⟩ := by decide
  have hpair : bracketsCompiled.cfg.productions[2]? = some ⟨5, [3, 5, 4, 5], []⟩ := by
    decide
  have hchildren : bracketsCompiled.cfg.Forest [3, 5, 4, 5]
      [.leaf ⟨3, "("⟩, .node 1 [], .leaf ⟨4, ")"⟩, .node 1 []] :=
    .leaf ⟨3, "("⟩ (.node hempty .nil (.leaf ⟨4, ")"⟩ (.node hempty .nil .nil)))
  exact Cfg.Forest.derives (.node hpair hchildren .nil)

theorem parsing_complete_brackets :
    (Definition.ofCommands false brackets).compile = .ok bracketsCompiled ∧
      bracketsCompiled.cfg.Derives [5] (bracketPair.map Token.symbol) ∧
      ∃ reductions : List ProductionId,
        (Machine.calls bracketsCompiled.table (reductions.length + 1)
          (Machine.start bracketsCompiled.table) (bracketPair.map .token)).1.map Call.event =
            reductions.map (fun i => .ok (.reduce i)) ++ [.ok .accept] ∧
        bracketsCompiled.cfg.Rightmost [5] reductions.reverse (bracketPair.map Token.symbol) ∧
        ∀ steps, bracketsCompiled.cfg.Rightmost [5] steps (bracketPair.map Token.symbol) →
          steps = reductions.reverse := by
  have hcompile : (Definition.ofCommands false brackets).compile = .ok bracketsCompiled :=
    Definition.compile_eq_ok (by decide) (by decide)
  have hplain : (Definition.ofCommands false brackets).isPlain = true := by decide
  have hlog : bracketsCompiled.log.ofLevel .conflict = [] := by decide
  have hword : ∀ t ∈ bracketPair, t.symbol ∈ bracketsCompiled.cfg.terminals := by decide
  exact ⟨hcompile, derives_bracketPair,
    parsing_complete hcompile hplain hlog hword derives_bracketPair⟩

end Compiled

end Lalr

import Lalr.Proofs.Automaton.Validity
import Lalr.Proofs.Parsing.Soundness

/-!
# Correct prefixes

A parser that has shifted a token will never have to take it back. If every nonterminal derives
some word, then the tokens shifted so far always begin a word of the root
(**`shifted_begin_word`**): an error is found before the first wrong token is shifted, however
conflicts were decided and whatever was reduced on a lookahead that is too wide.

Lookaheads play no part in the argument. It only needs that

* an item that is viable for some symbols can be completed: the root derives these symbols, then
  what is left of the item's production, then terminals (`Viable.exists_derives`);
* a path of the automaton has a viable item at its end, so the symbols on the stack can be
  completed to a word (`Path.exists_derives`);
* the entries derive the tokens shifted (`Sound`).
-/

namespace Lalr

namespace Cfg

/-- The word consists of terminals. -/
def IsWord (g : Cfg) (w : List TermId) : Prop := ∀ x ∈ w, x ∈ g.terminals

/-- Every nonterminal derives a word. -/
def Productive (g : Cfg) : Prop := ∀ x ∈ g.nonterminals, ∃ w, g.IsWord w ∧ g.Derives [x] w

variable {g : Cfg} {root : TermId} {xs : List TermId} {item : Item}

theorem IsWord.append {u v : List TermId} (hu : g.IsWord u) (hv : g.IsWord v) :
    g.IsWord (u ++ v) := by
  intro x hx
  exact (List.mem_append.mp hx).elim (hu x) (hv x)

/-- Symbols of the grammar derive a word together. -/
theorem Productive.exists_word (hg : g.Productive) :
    ∀ {u : List TermId}, (∀ x ∈ u, x ∈ g.terminals ∨ x ∈ g.nonterminals) →
      ∃ w, g.IsWord w ∧ g.Derives u w
  | [], _ => ⟨[], fun _ hx => absurd hx List.not_mem_nil, .refl []⟩
  | x :: u, hu => by
    obtain ⟨w, hw, hderives⟩ := hg.exists_word fun y hy => hu y (List.mem_cons_of_mem x hy)
    have hx : ∃ v, g.IsWord v ∧ g.Derives [x] v := by
      rcases hu x List.mem_cons_self with hx | hx
      · exact ⟨[x], fun y hy => List.mem_singleton.mp hy ▸ hx, .refl [x]⟩
      · exact hg x hx
    obtain ⟨v, hv, hderives'⟩ := hx
    exact ⟨v ++ w, hv.append hw, hderives'.append hderives⟩

/-- **A viable item can be completed.** -/
theorem Viable.exists_derives (hg : g.Augmented root) (hprod : g.Productive)
    (h : g.Viable xs item) :
    ∃ p v, g.productions[item.production]? = some p ∧ g.IsWord v ∧
      g.Derives [root] (xs ++ p.rhs.drop item.position ++ v) := by
  induction h with
  | start => exact ⟨_, [], hg.root_production, fun _ hx => absurd hx List.not_mem_nil, .refl [root]⟩
  | @close xs item i p _ hp hx ih =>
    -- The left-hand side is replaced, and what follows it derives a word.
    obtain ⟨p₀, v, hp₀, hv, hderives⟩ := ih
    obtain ⟨w, hw, htail⟩ : ∃ w, g.IsWord w ∧ g.Derives (g.tail item) w :=
      hprod.exists_word fun _ hy => hg.mem_of_mem_tail hy
    refine ⟨p, w ++ v, hp, hw.append hv, hderives.trans ?_⟩
    have hlhs : g.Derives [p.lhs] p.rhs := .of_rhs (List.mem_of_getElem? hp) (.refl p.rhs)
    have hall := (((hlhs.append htail).append_left xs).append_right v)
    rw [drop_of_next hp₀ hx]
    simpa [Item.start] using hall
  | @advance xs item x _ hx ih =>
    obtain ⟨p, v, hp, hv, hderives⟩ := ih
    have hdrop := drop_of_next hp hx
    refine ⟨p, v, hp, hv, ?_⟩
    rw [hdrop] at hderives
    simpa [Item.advance, tail_eq hp] using hderives

/-- At the end of a path there is an item. -/
theorem Path.exists_viable (hg : g.Augmented root) {states : List StateId}
    (h : g.Path states xs) : ∃ item, g.Viable xs.reverse item := by
  cases h with
  | initial => exact ⟨_, .start⟩
  | step hpath hgoto =>
    obtain ⟨⟨item, hitem, hx⟩, -⟩ := hg.goto_iff.mp hgoto
    have hviable := (hg.viable_iff (hpath.stateAfter_reverse rfl)).mpr hitem
    rw [List.reverse_cons]
    exact ⟨item.advance, hviable.advance hx⟩

/-- **What a path spells can be completed to a word.** -/
theorem Path.exists_derives (hg : g.Augmented root) (hprod : g.Productive)
    {states : List StateId} (h : g.Path states xs) :
    ∃ v, g.IsWord v ∧ g.Derives [root] (xs.reverse ++ v) := by
  obtain ⟨item, hviable⟩ := h.exists_viable hg
  obtain ⟨p, v, hp, hv, hderives⟩ := hviable.exists_derives hg hprod
  obtain ⟨w, hw, hrest⟩ := hprod.exists_word fun x hx =>
    hg.rhs_mem p (List.mem_of_getElem? hp) x (List.mem_of_mem_drop hx)
  refine ⟨w ++ v, hw.append hv, hderives.trans ?_⟩
  rw [← List.append_assoc]
  exact (hrest.append_left xs.reverse).append_right v

/-- Every symbol that a path spells is one of the grammar. -/
theorem Path.symbol_mem (hg : g.Augmented root) {states : List StateId} (h : g.Path states xs) :
    ∀ x ∈ xs, x ∈ g.terminals ∨ x ∈ g.nonterminals := by
  induction h with
  | initial => exact fun _ hx => absurd hx List.not_mem_nil
  | step _ hgoto ih =>
    obtain ⟨⟨item, -, hx⟩, -⟩ := hg.goto_iff.mp hgoto
    obtain ⟨p, hp, hget⟩ := next_eq_some_iff.mp hx
    have hmem := hg.rhs_mem p (List.mem_of_getElem? hp) _ (List.mem_of_getElem? hget)
    exact List.forall_mem_cons.mpr ⟨hmem, ih⟩

end Cfg

namespace Compiled

open ParseTree

/-- The tokens begin a word of the root. -/
def Begins (c : Compiled) (tokens : List (Token TermId)) : Prop :=
  ∃ w, c.cfg.IsWord w ∧ c.cfg.Derives [c.root] w ∧ tokens.map Token.symbol <+: w

variable {c : Compiled} {m m' : Machine StateId TermId} {source source' : Source TermId}
  {ts : List ParseTree} {tokens : List (Token TermId)}

theorem Begins.symbol_mem (h : c.Begins tokens) :
    ∀ t ∈ tokens, t.symbol ∈ c.cfg.terminals := by
  intro t ht
  obtain ⟨w, hw, -, hbegin⟩ := h
  exact hw _ (hbegin.subset (List.mem_map_of_mem ht))

theorem Begins.of_front {front : List (Token TermId)} (h : c.Begins tokens)
    (hfront : front <+: tokens) : c.Begins front := by
  obtain ⟨w, hw, hderives, hbegin⟩ := h
  exact ⟨w, hw, hderives, (hfront.map Token.symbol).trans hbegin⟩

/-- Tokens on the stack are terminals of the grammar. -/
theorem Sound.terminal_of_entry (h : c.Sound m source ts) (hb : c.Built)
    (hmode : m.mode ≠ .goto) {t : Token TermId} (ht : .token t ∈ m.entries) :
    t.symbol ∈ c.cfg.terminals := by
  have hpath := h.path
  rw [Machine.spelled, if_neg hmode] at hpath
  refine (hpath.symbol_mem hb.augmented _ (List.mem_map_of_mem ht)).resolve_right ?_
  intro hmem
  have hterm := h.tokens t (Or.inl ht)
  exact absurd (hterm.symm.trans (hb.nonterminals t.symbol hmem)) (by decide)

/-- **The tokens of the subtrees begin a word** if they are terminals. -/
theorem Sound.begins (h : c.Sound m source ts) (hb : c.Built) (hprod : c.cfg.Productive)
    (hmode : m.mode ≠ .goto) (hterms : ∀ t ∈ yields ts.reverse, t.symbol ∈ c.cfg.terminals) :
    c.Begins (yields ts.reverse) := by
  have hpath := h.path
  rw [Machine.spelled, if_neg hmode] at hpath
  obtain ⟨v, hv, hderives⟩ := hpath.exists_derives hb.augmented hprod
  have hstack := h.grown.reverse.forest.derives
  rw [List.map_reverse] at hstack
  refine ⟨(yields ts.reverse).map Token.symbol ++ v, ?_, ?_, List.prefix_append _ _⟩
  · refine Cfg.IsWord.append ?_ hv
    intro x hx
    obtain ⟨t, ht, rfl⟩ := List.mem_map.mp hx
    exact hterms t ht
  · exact hderives.trans (hstack.append_right v)

/-- The tokens a call shifts, up to any point of it, begin a word behind those before. -/
theorem Sound.begins_shifts (hb : c.Built) (hprod : c.cfg.Productive) (h : c.Sound m source ts)
    (hmode : m.mode ≠ .accepted) (hbegins : c.Begins (yields ts.reverse)) :
    c.Begins (yields ts.reverse ++ m.shifts c.table source) := by
  induction hload : m.load source using Nat.strongRecOn generalizing m source ts with
  | ind load ih =>
    have hpass := h.pass hb hmode
    cases hp : Machine.pass c.table m source with
    | goOn m' source' =>
      rw [hp] at hpass
      obtain ⟨hmode', ts', hsound, -, hyields⟩ := hpass
      have hgoto := Mode.ne_goto (Machine.reading_of_goOn hp)
      have hterms : ∀ t ∈ yields ts'.reverse, t.symbol ∈ c.cfg.terminals := by
        intro t ht
        rw [hyields] at ht
        rcases List.mem_append.mp ht with ht | ht
        · exact hbegins.symbol_mem t ht
        · exact hsound.terminal_of_entry hb hgoto (Machine.token_mem_of_mem_gained ht)
      have hnext := ih _ (hload ▸ Machine.pass_goOn_load_lt hp) hsound hmode'
        (hsound.begins hb hprod hgoto hterms) rfl
      rw [Machine.shifts_of_goOn hmode hp, ← List.append_assoc, ← hyields]
      exact hnext
    | event event args m' source' =>
      have hshifts : m.shifts c.table source = [] :=
        Machine.shifts_of_not_goOn fun _ _ heq => nomatch hp.symm.trans heq
      rw [hshifts, List.append_nil]
      exact hbegins
    | error cause m' source' =>
      have hshifts : m.shifts c.table source = [] :=
        Machine.shifts_of_not_goOn fun _ _ heq => nomatch hp.symm.trans heq
      rw [hshifts, List.append_nil]
      exact hbegins

/-- **What a run has shifted begins a word.** -/
theorem Sound.begins_calls (hb : c.Built) (hprod : c.cfg.Productive) :
    ∀ (n : Nat) {m : Machine StateId TermId} {source : Source TermId} {ts : List ParseTree},
      c.Sound m source ts → m.mode ≠ .accepted → c.Begins (yields ts.reverse) →
      c.Begins (yields ts.reverse ++ shiftedIn (Machine.calls c.table n m source).1 ++
        (Machine.calls c.table n m source).2.1.shifts c.table
          (Machine.calls c.table n m source).2.2)
  | 0, m, source, ts, h, hmode, hbegins => by
    have hnil : shiftedIn (Machine.calls c.table 0 m source).1 = [] := rfl
    rw [hnil, List.append_nil]
    exact h.begins_shifts hb hprod hmode hbegins
  | n + 1, m, source, ts, h, hmode, hbegins => by
    have hshifts := h.begins_shifts hb hprod hmode hbegins
    rw [Machine.calls_succ]
    by_cases haccepted : (m.nextEvent c.table source).2.1.mode = .accepted
    · -- Nothing is shifted any more.
      have hnil : shiftedIn (Machine.calls c.table n (m.nextEvent c.table source).2.1
          (m.nextEvent c.table source).2.2).1 = [] := by
        rw [shiftedIn, List.flatMap_eq_nil_iff]
        exact Machine.shifted_of_accepted c.table _ haccepted n
      rw [Machine.calls_of_accepted c.table _ haccepted, Machine.shifts_of_accepted haccepted,
        List.append_nil, shiftedIn, List.flatMap_cons]
      rw [shiftedIn] at hnil
      rw [hnil, List.append_nil]
      exact hshifts
    · obtain ⟨ts', hsound, -, hyields⟩ := (h.call hb hmode).resolve_left haccepted
      have hrest := hsound.begins_calls hb hprod n haccepted (hyields ▸ hshifts)
      rw [hyields] at hrest
      simpa only [shiftedIn, List.flatMap_cons, List.append_assoc] using hrest

/-- **Correct prefixes**, for every definition that compiles and whose nonterminals all derive a
word, every source of terminals and every moment of every run, be it between two calls or within
one: the tokens shifted so far begin a word of the root. -/
theorem shifted_begin_word [Text.Xid] {ignoreCase : Bool} {commands : List Command}
    (h : (Definition.ofCommands ignoreCase commands).compile = .ok c)
    (hprod : ∀ x ∈ c.cfg.nonterminals,
      ∃ w, (∀ y ∈ w, y ∈ c.cfg.terminals) ∧ c.cfg.Derives [x] w) {source : Source TermId}
    (hsource : ∀ t : Token TermId, .token t ∈ source → c.isTerminal t.symbol = true) {n : Nat}
    {done : List (Call TermId ProductionId)} {m : Machine StateId TermId} {rest : Source TermId}
    (hrun : Machine.calls c.table n (Machine.start c.table) source = (done, m, rest))
    {shifted : List (Token TermId)} (hshifted : shifted <+: m.shifts c.table rest) :
    ∃ w, (∀ y ∈ w, y ∈ c.cfg.terminals) ∧ c.cfg.Derives [c.root] w ∧
      (shiftedIn done ++ shifted).map Token.symbol <+: w := by
  have hb := Definition.built_of_compile h
  obtain ⟨w, hw, hderives⟩ := hprod c.root hb.augmented.root_mem
  have hnone : c.Begins (yields ([] : List ParseTree).reverse) :=
    ⟨w, hw, hderives, List.nil_prefix⟩
  have hall := (Sound.start hsource).begins_calls hb hprod n (fun hmode => nomatch hmode) hnone
  rw [hrun] at hall
  exact hall.of_front ((List.prefix_append_right_inj (shiftedIn done)).mpr hshifted)

/-- A sum with one `+` too many. -/
def sumsTypo : Source TermId :=
  [.token ⟨3, "x"⟩, .token ⟨4, "+"⟩, .token ⟨4, "+"⟩, .token ⟨3, "x"⟩]

/-- Both nonterminals of the sums derive `x`. -/
theorem sums_productive : ∀ x ∈ sumsCompiled.cfg.nonterminals,
    ∃ w, (∀ y ∈ w, y ∈ sumsCompiled.cfg.terminals) ∧ sumsCompiled.cfg.Derives [x] w := by
  have hsum : sumsCompiled.cfg.Derives [5] [3] :=
    .of_rhs (p := ⟨5, [3], []⟩) (by decide) (.refl [3])
  have hroot : sumsCompiled.cfg.Derives [TermId.root] [3] :=
    .of_rhs (p := ⟨TermId.root, [5], []⟩) (by decide) hsum
  have hnonterminals : sumsCompiled.cfg.nonterminals = [TermId.root, 5] := by decide
  have hword : ∀ y ∈ [3], y ∈ sumsCompiled.cfg.terminals := by decide
  intro x hx
  rw [hnonterminals] at hx
  rcases List.mem_pair.mp hx with rfl | rfl
  · exact ⟨[3], hword, hroot⟩
  · exact ⟨[3], hword, hsum⟩

set_option maxRecDepth 10000 in
theorem shifted_begin_word_sums :
    (Definition.ofCommands false sums).compile = .ok sumsCompiled ∧
      ∃ w, (∀ y ∈ w, y ∈ sumsCompiled.cfg.terminals) ∧ sumsCompiled.cfg.Derives [5] w ∧
        [3, 4] <+: w := by
  have hcompile : (Definition.ofCommands false sums).compile = .ok sumsCompiled :=
    Definition.compile_eq_ok (by decide) (by decide)
  have hsource : ∀ t : Token TermId, .token t ∈ sumsTypo →
      sumsCompiled.isTerminal t.symbol = true := by
    intro t ht
    have hsymbol : t.symbol ∈ [3, 4] := by
      simp only [sumsTypo, List.mem_cons, Signal.token.injEq, List.not_mem_nil, or_false] at ht
      rcases ht with rfl | rfl | rfl | rfl <;> decide
    have hterminals : ∀ x ∈ [3, 4], sumsCompiled.isTerminal x = true := by decide
    exact hterminals _ hsymbol
  -- The first call reduces `x`; the second shifts one `+` and fails at the other.
  have hdone : shiftedIn (Machine.calls sumsCompiled.table 1 (Machine.start sumsCompiled.table)
      sumsTypo).1 = [⟨3, "x"⟩] := by
    decide +kernel
  have hshifted : [⟨4, "+"⟩] <+: (Machine.calls sumsCompiled.table 1
      (Machine.start sumsCompiled.table) sumsTypo).2.1.shifts sumsCompiled.table
      (Machine.calls sumsCompiled.table 1 (Machine.start sumsCompiled.table) sumsTypo).2.2 := by
    decide +kernel
  have hbegin := shifted_begin_word hcompile sums_productive hsource rfl hshifted
  rw [hdone] at hbegin
  exact ⟨hcompile, hbegin⟩

end Compiled

end Lalr

import Mathlib.Data.List.Infix
import Lalr.Proofs.Compiled.Keys
import Lalr.Proofs.Compiled.Lookup

/-!
# The longest literal is tried first

Several literals may match at the same place, one text being the beginning of another. A scanner
takes the first candidate that matches, so the order of the candidates decides. A literal has the
length of its text for a priority, unless the author sets another, and the candidates of higher
priority come first; so of the literals the longest is taken.

* Where case matters, a literal matches its key (`LiteralMatches.exists_key`), so literals with
  different ids match different texts (`LiteralMatches.eq_of_text`). All of these are beginnings of
  the same rest of the input, and the longer of two begins with the other.
* Behind a literal there are only candidates of no higher priority, as far as they are literals
  (`Collected.order_literals`). Terminals of other kinds may stand anywhere between them.

**`longest_first`**: the first literal that matches is the longest of all that do, and there is one
if any does. It is this literal that a scanner reads, if it reads a literal
(`Collected.firstLiteral_of_matchFirst`).
-/

namespace Lalr

open Text

namespace Matcher

/-- Where case matters, texts are the same only if they are equal. -/
theorem sameText_false_iff {as bs : List Char} : SameText false as bs ↔ as = bs := by
  have hsame : (fun a b : Char => sameUpToCase false a b = true) = Eq := by
    funext a b
    simp [sameUpToCase]
  rw [SameText, hsame, List.forall₂_eq_eq_eq]

end Matcher

namespace Compiled

variable {c : Compiled} {ts : List Term} {id id' : TermId} {t : Term} {input : String}
  {position : Nat} {lexeme lexeme' : Lexeme} {ch : Char} {rest : List Char}

/-! ## Literals that match -/

/-- The literal with this id is part of the grammar and matches at the position. -/
def LiteralMatches [Xid] (c : Compiled) (input : String) (position : Nat) (id : TermId)
    (lexeme : Lexeme) : Prop :=
  id ∈ c.cfg.terminals ∧ ∃ t m, c.terms[id]? = some t ∧ t.isLiteral = true ∧ t.matcher = some m ∧
    m.matchAt input position = some lexeme

/-- What the literal with this id matches at the position. -/
def matchLiteralAt [Xid] (c : Compiled) (input : String) (position : Nat) (id : TermId) :
    Option (TermId × Lexeme) :=
  (c.terms[id]?.filter Term.isLiteral).bind fun t =>
    t.matcher.bind fun m => (m.matchAt input position).map fun lexeme => (id, lexeme)

/-- The first literal among the candidates that matches at the position. -/
def firstLiteral [Xid] (c : Compiled) (input : String) (position : Nat) (ch : Char) :
    Option (TermId × Lexeme) :=
  (c.scanner.candidates ch).findSome? (c.matchLiteralAt input position)

theorem matchLiteralAt_eq_some_iff [Xid] :
    c.matchLiteralAt input position id = some (id', lexeme) ↔
      id = id' ∧ ∃ t m, c.terms[id]? = some t ∧ t.isLiteral = true ∧ t.matcher = some m ∧
        m.matchAt input position = some lexeme := by
  simp only [matchLiteralAt, Option.bind_eq_some_iff, Option.filter_eq_some_iff,
    Option.map_eq_some_iff, Prod.mk.injEq]
  constructor
  · rintro ⟨t, ⟨ht, hliteral⟩, m, hm, _, hmatch, rfl, rfl⟩
    exact ⟨rfl, t, m, ht, hliteral, hm, hmatch⟩
  · rintro ⟨rfl, t, m, ht, hliteral, hm, hmatch⟩
    exact ⟨t, ⟨ht, hliteral⟩, m, hm, lexeme, hmatch, rfl, rfl⟩

section CaseMatters

variable [Xid] (hc : c.Collected ts) (hcase : c.ignoreCase = false)
include hc hcase

/-- Where case matters, a literal matches its key. -/
theorem LiteralMatches.exists_key (h : c.LiteralMatches input position id lexeme) :
    ∃ t chars, c.terms[id]? = some t ∧ t.isLiteral = true ∧ t.key ≠ "" ∧
      t.matcher = some (.literal t.key false) ∧ charsFrom input position = some chars ∧
      t.key.toList <+: chars ∧
      lexeme = { text := t.key, value := none, category := .content } := by
  obtain ⟨-, t, m, ht, hliteral, hm, hmatch⟩ := h
  obtain ⟨text, hne, hkey, hmatcher⟩ := hc.literal ht hliteral
  rw [hcase, foldCase_false] at hkey
  subst hkey
  rw [hcase] at hmatcher
  obtain rfl := Option.some.inj (hm.symm.trans hmatcher)
  obtain ⟨chars, hchars, hmatch⟩ := Option.bind_eq_some_iff.mp hmatch
  obtain ⟨front, back, rfl, hsame, -, rfl⟩ := Matcher.matchLiteral_eq_some_iff.mp hmatch
  obtain rfl := Matcher.sameText_false_iff.mp hsame
  refine ⟨t, _, ht, hliteral, hne, hm, hchars, List.prefix_append _ _, ?_⟩
  rw [String.ofList_toList]

/-- A text belongs to one literal. -/
theorem LiteralMatches.eq_of_text {d : Definition} (hindexed : c.Indexed d)
    (h : c.LiteralMatches input position id lexeme)
    (h' : c.LiteralMatches input position id' lexeme') (htext : lexeme.text = lexeme'.text) :
    id = id' ∧ lexeme = lexeme' := by
  obtain ⟨t, chars, ht, hliteral, -, -, -, -, rfl⟩ := h.exists_key hc hcase
  obtain ⟨t', chars', ht', hliteral', -, -, -, -, rfl⟩ := h'.exists_key hc hcase
  obtain htext : t.key = t'.key := htext
  exact ⟨hindexed.eq_of_key ht ht' (hliteral.trans hliteral'.symm) htext, by rw [htext]⟩

/-- A literal that matches is a candidate. -/
theorem LiteralMatches.mem_candidates (h : c.LiteralMatches input position id lexeme)
    (hchars : charsFrom input position = some (ch :: rest)) : id ∈ c.scanner.candidates ch := by
  obtain ⟨t, chars, ht, -, hne, hmatcher, hchars', hbegins, -⟩ := h.exists_key hc hcase
  obtain rfl := Option.some.inj (hchars.symm.trans hchars')
  cases hkey : t.key.toList with
  | nil => exact absurd (String.toList_eq_nil_iff.mp hkey) hne
  | cons first more =>
    rw [← hcase] at hmatcher
    rw [hc.mem_candidates_iff h.1 ht hmatcher hkey]
    rw [hkey, List.cons_prefix_cons] at hbegins
    rw [Scanner.variants, hcase, if_neg Bool.false_ne_true, hbegins.1]
    exact List.mem_singleton_self ch

end CaseMatters

/-! ## The order of candidates -/

/-- The scanner knows a literal by its priority, and by the character that it starts with. -/
theorem Collected.scannable_literal [Xid] (hc : c.Collected ts) {s : Scannable}
    (hs : s ∈ scannables (ts.map (Term.normalize c.ignoreCase)) c.cfg.terminals)
    (ht : c.terms[s.id]? = some t) (hliteral : t.isLiteral = true) :
    s.matcher.starts ≠ none ∧ s.priority = t.priority := by
  obtain ⟨u, hu, rfl⟩ := hc.exists_term ht
  obtain ⟨-, v, hv, hmatcher, hpriority⟩ := mem_scannables.mp hs
  rw [List.getElem?_map, hu] at hv
  obtain rfl := Option.some.inj hv
  refine ⟨?_, hpriority.symm⟩
  have hu' : u.isLiteral = true := (Term.isLiteral_normalize c.ignoreCase u).symm.trans hliteral
  obtain ⟨hne, hspelled⟩ := hc.spelled u (List.mem_of_getElem? hu) hu'
  rw [Term.matcher_normalize, hspelled] at hmatcher
  rw [← Option.some.inj hmatcher, Matcher.starts]
  cases hkey : u.key.toList with
  | nil => exact absurd (String.toList_eq_nil_iff.mp hkey) hne
  | cons first more => exact Option.some_ne_none _

/-- **Behind a literal** there are, of the literals, only such of no higher priority. -/
theorem Collected.order_literals [Xid] (hc : c.Collected ts) (ch : Char) :
    ∃ order : List Scannable, c.scanner.candidates ch = order.map Scannable.id ∧
      (∀ s ∈ order, s.id ∈ c.cfg.terminals) ∧
      order.Pairwise fun s s' => ∀ t t', c.terms[s.id]? = some t → t.isLiteral = true →
        c.terms[s'.id]? = some t' → t'.isLiteral = true → t'.priority ≤ t.priority := by
  obtain ⟨order, hmem, hcandidates, hpairwise⟩ := Scanner.exists_order c.ignoreCase
    (scannables (ts.map (Term.normalize c.ignoreCase)) c.cfg.terminals) ch
  refine ⟨order, by rw [hc.scanner, hcandidates], fun s hs => (mem_scannables.mp (hmem s hs)).1, ?_⟩
  refine hpairwise.imp_of_mem fun hs hs' horder t t' ht hliteral ht' hliteral' => ?_
  obtain ⟨-, hpriority⟩ := hc.scannable_literal (hmem _ hs) ht hliteral
  obtain ⟨hstarts', hpriority'⟩ := hc.scannable_literal (hmem _ hs') ht' hliteral'
  rw [← hpriority, ← hpriority']
  exact horder.resolve_left hstarts'

/-- What a scanner reads as a literal is the first literal that matches: nothing that it tries
before matches, be it a literal or not. -/
theorem Collected.firstLiteral_of_matchFirst [Xid] (hc : c.Collected ts)
    (hcase : c.ignoreCase = false)
    (hread : Scanner.matchFirst c.matcherOf input position (c.scanner.candidates ch) =
      some (id, lexeme)) (ht : c.terms[id]? = some t) (hliteral : t.isLiteral = true) :
    c.firstLiteral input position ch = some (id, lexeme) := by
  obtain ⟨before, x, after, hsplit, hx, hbefore⟩ := List.findSome?_eq_some_iff.mp hread
  refine List.findSome?_eq_some_iff.mpr ⟨before, x, after, hsplit, ?_, fun y hy => ?_⟩
  · obtain ⟨m, hm, hx⟩ := Option.bind_eq_some_iff.mp hx
    obtain ⟨found, hmatch, hx⟩ := Option.bind_eq_some_iff.mp hx
    obtain ⟨-, hpair⟩ := Option.ite_none_left_eq_some.mp hx
    obtain ⟨rfl, rfl⟩ := Prod.mk.inj (Option.some.inj hpair)
    obtain ⟨u, hu, hm⟩ := Option.bind_eq_some_iff.mp hm
    obtain rfl := Option.some.inj (ht.symm.trans hu)
    exact matchLiteralAt_eq_some_iff.mpr ⟨rfl, t, m, ht, hliteral, hm, hmatch⟩
  · rw [Option.eq_none_iff_forall_ne_some]
    intro pair hpair
    obtain ⟨rfl, hfinds⟩ := matchLiteralAt_eq_some_iff.mp hpair
    have hcandidate : pair.1 ∈ c.scanner.candidates ch := by
      rw [hsplit]
      exact List.mem_append_left _ hy
    obtain ⟨order, hcandidates, hterminals, -⟩ := hc.order_literals ch
    obtain ⟨s, hs, hid⟩ := List.mem_map.mp (hcandidates ▸ hcandidate)
    have hmatches : c.LiteralMatches input position pair.1 pair.2 :=
      ⟨hid ▸ hterminals s hs, hfinds⟩
    obtain ⟨u, -, -, -, hne, -, -, -, hlexeme⟩ := hmatches.exists_key hc hcase
    obtain ⟨v, m, hv, -, hm, hmatch⟩ := hfinds
    have hnone := hbefore pair.1 hy
    simp [matcherOf, hv, hm, hmatch, hlexeme, hne] at hnone

/-- The literals of the grammar have the priorities of their texts, and these are not too long to
have their lengths for priorities. -/
def KeepsPriorities (c : Compiled) : Prop :=
  ∀ id ∈ c.cfg.terminals, ∀ t, c.terms[id]? = some t → t.isLiteral = true →
    t.key.length ≤ Term.maxPriority ∧ t.priority = (Term.ofText id t.key).priority

theorem priority_ofText (id : TermId) {text : String} (h : text.length ≤ Term.maxPriority) :
    (Term.ofText id text).priority = (text.length : Int) :=
  congrArg Nat.cast (Nat.min_eq_left h)

theorem KeepsPriorities.priority_eq (h : c.KeepsPriorities) (hid : id ∈ c.cfg.terminals)
    (ht : c.terms[id]? = some t) (hliteral : t.isLiteral = true) :
    t.priority = (t.key.length : Int) := by
  obtain ⟨hlength, hpriority⟩ := h id hid t ht hliteral
  exact hpriority.trans (priority_ofText id hlength)

/-- `text'` is a beginning of `text`, and not all of it: it has fewer characters and bytes. -/
structure Longer (text text' : String) : Prop where
  starts : text'.toList <+: text.toList
  length : text'.length < text.length
  bytes  : byteLength text'.toList < byteLength text.toList

theorem longer_of_begins {text text' : String} (hbegins : text'.toList <+: text.toList)
    (hne : text' ≠ text) : Longer text text' := by
  obtain ⟨more, hmore⟩ := hbegins
  cases more with
  | nil => exact absurd (String.toList_inj.mp (by rwa [List.append_nil] at hmore)) hne
  | cons ch more =>
    have hpos := ch.utf8Size_pos
    refine ⟨⟨_, hmore⟩, ?_, ?_⟩
    · rw [← String.length_toList, ← String.length_toList, ← hmore, List.length_append,
        List.length_cons]
      omega
    · rw [← hmore, byteLength_append, byteLength_cons]
      omega

/-- Of two literals that match, the one of higher priority has the longer text. -/
theorem LiteralMatches.longer_of_priority [Xid] {d : Definition} (hc : c.Collected ts)
    (hcase : c.ignoreCase = false) (hindexed : c.Indexed d) (hkeeps : c.KeepsPriorities)
    (h : c.LiteralMatches input position id lexeme)
    (h' : c.LiteralMatches input position id' lexeme')
    (hpriority : ∀ t t', c.terms[id]? = some t → t.isLiteral = true →
      c.terms[id']? = some t' → t'.isLiteral = true → t'.priority ≤ t.priority) :
    (id' = id ∧ lexeme' = lexeme) ∨ Longer lexeme.text lexeme'.text := by
  by_cases htext : lexeme'.text = lexeme.text
  · exact Or.inl (h'.eq_of_text hc hcase hindexed h htext)
  refine Or.inr (longer_of_begins ?_ htext)
  obtain ⟨t, chars, ht, hliteral, -, -, hchars, hbegins, rfl⟩ := h.exists_key hc hcase
  obtain ⟨t', chars', ht', hliteral', -, -, hchars', hbegins', rfl⟩ := h'.exists_key hc hcase
  obtain rfl := Option.some.inj (hchars.symm.trans hchars')
  refine List.prefix_of_prefix_length_le hbegins' hbegins ?_
  have hle := hpriority t t' ht hliteral ht' hliteral'
  rw [hkeeps.priority_eq h.1 ht hliteral, hkeeps.priority_eq h'.1 ht' hliteral'] at hle
  rw [String.length_toList, String.length_toList]
  exact Int.ofNat_le.mp hle

/-- **The first literal that matches is the longest.** In a grammar that minds case and whose
literals keep the priorities of their texts, take any input and any place before its end. Of the
candidates for the character there, the first literal that matches is longer than every other
literal of the grammar that does, and there is one if any literal matches at all. -/
theorem longest_first [Xid] {commands : List Command}
    (h : (Definition.ofCommands false commands).compile = .ok c) (hkeeps : c.KeepsPriorities)
    (hchars : charsFrom input position = some (ch :: rest)) :
    (∀ id lexeme, c.firstLiteral input position ch = some (id, lexeme) →
      c.LiteralMatches input position id lexeme ∧
        ∀ id' lexeme', c.LiteralMatches input position id' lexeme' →
          (id' = id ∧ lexeme' = lexeme) ∨ Longer lexeme.text lexeme'.text) ∧
    ((∃ id lexeme, c.LiteralMatches input position id lexeme) →
      ∃ id lexeme, c.firstLiteral input position ch = some (id, lexeme)) := by
  obtain ⟨ts, hc⟩ := exists_collected h
  have hcase := ignoreCase_of_compile h
  have hmem := fun {id : TermId} {lexeme : Lexeme}
    (hmatches : c.LiteralMatches input position id lexeme) =>
      hmatches.mem_candidates hc hcase hchars
  constructor
  · intro id lexeme hfirst
    obtain ⟨order, hcandidates, hterminals, hpairwise⟩ := hc.order_literals ch
    rw [firstLiteral, hcandidates, List.findSome?_map] at hfirst
    obtain ⟨before, s, after, rfl, hs, hbefore⟩ := List.findSome?_eq_some_iff.mp hfirst
    obtain ⟨rfl, hfinds⟩ := matchLiteralAt_eq_some_iff.mp hs
    have hmatches : c.LiteralMatches input position s.id lexeme :=
      ⟨hterminals s (by simp), hfinds⟩
    refine ⟨hmatches, fun id' lexeme' hmatches' => ?_⟩
    have hcandidate := hmem hmatches'
    rw [hcandidates] at hcandidate
    obtain ⟨s', hs', rfl⟩ := List.mem_map.mp hcandidate
    have hfinds' := matchLiteralAt_eq_some_iff.mpr ⟨rfl, hmatches'.2⟩
    -- Nothing before matches, and nothing behind has a higher priority.
    rcases List.mem_append.mp hs' with hs' | hs'
    · exact absurd ((hbefore s' hs').symm.trans hfinds') (Option.some_ne_none _).symm
    rcases List.mem_cons.mp hs' with rfl | hs'
    · exact Or.inl ⟨rfl, (Prod.mk.inj (Option.some.inj (hfinds'.symm.trans hs))).2⟩
    · refine hmatches.longer_of_priority hc hcase (indexed_of_compile h) hkeeps hmatches' ?_
      exact List.rel_of_pairwise_cons (List.pairwise_append.mp hpairwise).2.1 hs'
  · rintro ⟨id, lexeme, hmatches⟩
    have hsome : (c.firstLiteral input position ch).isSome = true :=
      List.findSome?_isSome_iff.mpr ⟨id, hmem hmatches,
        Option.isSome_iff_exists.mpr ⟨_, matchLiteralAt_eq_some_iff.mpr ⟨rfl, hmatches.2⟩⟩⟩
    obtain ⟨pair, hfirst⟩ := Option.isSome_iff_exists.mp hsome
    exact ⟨pair.1, pair.2, hfirst⟩

/-- Three signs, each the beginning of the next, a word, and a terminal for words that is tried
before all of them. -/
def orderSigns : List Command :=
  [.literal "<", .literal "<=", .literal "<=>", .literal "in",
    .terminal "name" (.identifier [] false), .priority 7 9, .nonterminal "S",
    .rule 8 ⟨[[.term 3], [.term 4], [.term 5], [.term 6], [.term 7]]⟩, .root 8]

/-- The grammar of these, compiled. -/
def orderSignsCompiled : Compiled :=
  let d := Definition.ofCommands false orderSigns
  d.compileCollection 8 (d.collect 8)

theorem compile_orderSigns :
    (Definition.ofCommands false orderSigns).compile = .ok orderSignsCompiled :=
  Definition.compile_eq_ok (by decide) (by decide)

theorem keepsPriorities_orderSigns : orderSignsCompiled.KeepsPriorities := by
  have hcheck : orderSignsCompiled.terms.all (fun t => !t.isLiteral ||
      (decide (t.key.length ≤ Term.maxPriority) && t.priority == (t.key.length : Int))) = true := by
    decide
  intro id _ t ht hliteral
  have ht := List.all_eq_true.mp hcheck t (List.mem_of_getElem? ht)
  simp only [hliteral, Bool.not_true, Bool.false_or, Bool.and_eq_true, decide_eq_true_eq,
    beq_iff_eq] at ht
  exact ⟨ht.1, ht.2.trans (priority_ofText id ht.1).symm⟩

theorem longest_first_orderSigns :
    (Definition.ofCommands false orderSigns).compile = .ok orderSignsCompiled ∧
      orderSignsCompiled.KeepsPriorities ∧ charsFrom "a<=x" 1 = some ['<', '=', 'x'] ∧
      orderSignsCompiled.firstLiteral "a<=x" 1 '<' =
        some (4, { text := "<=", value := none, category := .content }) ∧
      ∀ id lexeme, orderSignsCompiled.LiteralMatches "a<=x" 1 id lexeme →
        id = 4 ∨ Longer "<=" lexeme.text := by
  have hchars : charsFrom "a<=x" 1 = some ['<', '=', 'x'] := by decide
  have hfirst : orderSignsCompiled.firstLiteral "a<=x" 1 '<' =
      some (4, { text := "<=", value := none, category := .content }) := by decide
  obtain ⟨-, hlonger⟩ :=
    (longest_first compile_orderSigns keepsPriorities_orderSigns hchars).1 _ _ hfirst
  exact ⟨compile_orderSigns, keepsPriorities_orderSigns, hchars, hfirst,
    fun id lexeme hmatches => (hlonger id lexeme hmatches).imp_left And.left⟩

end Compiled

end Lalr

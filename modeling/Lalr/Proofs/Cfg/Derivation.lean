import Lalr.Cfg.Basic
import Mathlib.Logic.Relation

/-!
# Derivations

The meaning of a context-free grammar: a sentential form **produces** another by replacing one
left-hand side by a right-hand side, and **derives** what it produces in any number of steps.
Nothing distinguishes terminals here; they are the symbols no production replaces.

`Cfg.Augmented` is what the analysis relies on beyond the bare data: the first production is that
of the augmented root, which occurs nowhere else, and every symbol is a terminal or a nonterminal
of the grammar and not both.
-/

namespace Lalr

namespace Cfg

/-- One production is applied somewhere. -/
inductive Produces (g : Cfg) : List TermId → List TermId → Prop
  | replace {p : Production} (hp : p ∈ g.productions) (left right : List TermId) :
      Produces g (left ++ p.lhs :: right) (left ++ p.rhs ++ right)

/-- Any number of productions is applied. -/
def Derives (g : Cfg) : List TermId → List TermId → Prop := Relation.ReflTransGen g.Produces

/-- The grammar of an augmented root above `root`. -/
structure Augmented (g : Cfg) (root : TermId) : Prop where
  root_production : g.productions[ProductionId.root]? = some ⟨TermId.root, [root], []⟩
  root_unique     : ∀ i p, g.productions[i]? = some p → p.lhs = TermId.root → i = ProductionId.root
  root_not_mem    : ∀ p ∈ g.productions, TermId.root ∉ p.rhs
  root_mem        : root ∈ g.nonterminals
  lhs_mem         : ∀ p ∈ g.productions, p.lhs ∈ g.nonterminals
  rhs_mem         : ∀ p ∈ g.productions, ∀ x ∈ p.rhs, x ∈ g.terminals ∨ x ∈ g.nonterminals
  eof_mem         : TermId.eof ∈ g.terminals
  not_both        : ∀ x ∈ g.terminals, x ∉ g.nonterminals
  lt_termCount    : ∀ x, x ∈ g.terminals ∨ x ∈ g.nonterminals → x < g.termCount

variable {g : Cfg}

/-! ## Contexts -/

theorem Produces.append_left {u v : List TermId} (h : g.Produces u v) (l : List TermId) :
    g.Produces (l ++ u) (l ++ v) := by
  obtain ⟨hp, left, right⟩ := h
  have := Produces.replace hp (l ++ left) right
  simpa only [List.append_assoc] using this

theorem Produces.append_right {u v : List TermId} (h : g.Produces u v) (r : List TermId) :
    g.Produces (u ++ r) (v ++ r) := by
  obtain ⟨hp, left, right⟩ := h
  have := Produces.replace hp left (right ++ r)
  simpa only [List.append_assoc, List.cons_append] using this

namespace Derives

theorem refl (u : List TermId) : g.Derives u u := Relation.ReflTransGen.refl

theorem trans {u v w : List TermId} (h₁ : g.Derives u v) (h₂ : g.Derives v w) : g.Derives u w :=
  Relation.ReflTransGen.trans h₁ h₂

theorem append_left {u v : List TermId} (h : g.Derives u v) (l : List TermId) :
    g.Derives (l ++ u) (l ++ v) := by
  induction h with
  | refl => exact refl _
  | tail _ hstep ih => exact ih.tail (hstep.append_left l)

theorem append_right {u v : List TermId} (h : g.Derives u v) (r : List TermId) :
    g.Derives (u ++ r) (v ++ r) := by
  induction h with
  | refl => exact refl _
  | tail _ hstep ih => exact ih.tail (hstep.append_right r)

theorem append {u u' v v' : List TermId} (hu : g.Derives u u') (hv : g.Derives v v') :
    g.Derives (u ++ v) (u' ++ v') :=
  (hu.append_right v).trans (hv.append_left u')

/-- A left-hand side derives what its right-hand side derives. -/
theorem of_rhs {p : Production} (hp : p ∈ g.productions) {w : List TermId}
    (h : g.Derives p.rhs w) : g.Derives [p.lhs] w := by
  have hstep : g.Produces [p.lhs] p.rhs := by
    simpa using Produces.replace hp [] []
  exact Relation.ReflTransGen.head hstep h

/-- Symbols that each derive nothing derive nothing together. -/
theorem nil_of_forall : ∀ {xs : List TermId}, (∀ x ∈ xs, g.Derives [x] []) → g.Derives xs []
  | [], _ => refl []
  | x :: xs, h => by
    have hx := h x List.mem_cons_self
    have hxs := nil_of_forall fun y hy => h y (List.mem_cons_of_mem x hy)
    exact hx.append hxs

/-- A symbol stays in front if each of its productions begins with it. -/
theorem head_eq {x : TermId} (hx : ∀ p ∈ g.productions, p.lhs = x → p.rhs.head? = some x)
    {u w : List TermId} (h : g.Derives (x :: u) w) : ∃ w', w = x :: w' := by
  generalize hv : x :: u = v at h
  induction h with
  | refl => exact ⟨u, hv.symm⟩
  | tail _ hstep ih =>
    obtain ⟨v', rfl⟩ := ih
    generalize hb : x :: v' = b at hstep
    obtain ⟨hp, left, right⟩ := hstep
    rename_i p
    cases left with
    | nil =>
      obtain ⟨hxp, -⟩ := List.cons.inj hb
      obtain ⟨v, hv⟩ := List.head?_eq_some_iff.mp (hx p hp hxp.symm)
      exact ⟨v ++ right, by rw [hv]; rfl⟩
    | cons y left =>
      obtain ⟨rfl, -⟩ := List.cons.inj hb
      exact ⟨left ++ p.rhs ++ right, rfl⟩

end Derives

/-! ## Symbols -/

/-- The grammar has the symbol. -/
def HasSymbol (g : Cfg) (x : TermId) : Prop := x ∈ g.terminals ∨ x ∈ g.nonterminals

namespace Augmented

variable {root : TermId}

theorem lhs_ne_terminal (h : g.Augmented root) {t : TermId} (ht : t ∈ g.terminals)
    {p : Production} (hp : p ∈ g.productions) : p.lhs ≠ t := by
  rintro rfl
  exact h.not_both p.lhs ht (h.lhs_mem p hp)

/-- A terminal in front stays there. -/
theorem derives_terminal_cons (h : g.Augmented root) {t : TermId} (ht : t ∈ g.terminals)
    {u w : List TermId} (hd : g.Derives (t :: u) w) : ∃ w', w = t :: w' :=
  hd.head_eq fun _ hp heq => absurd heq (h.lhs_ne_terminal ht hp)

/-- Symbols of the grammar derive symbols of the grammar. -/
theorem hasSymbol_of_derives (h : g.Augmented root) {u v : List TermId} (hd : g.Derives u v)
    (hu : ∀ x ∈ u, g.HasSymbol x) : ∀ x ∈ v, g.HasSymbol x := by
  induction hd with
  | refl => exact hu
  | tail _ hstep ih =>
    obtain ⟨hp, left, right⟩ := hstep
    intro x hx
    rcases List.mem_append.mp hx with hx | hx
    · rcases List.mem_append.mp hx with hx | hx
      · exact ih x (List.mem_append_left _ hx)
      · exact h.rhs_mem _ hp x hx
    · exact ih x (List.mem_append_right _ (List.mem_cons_of_mem _ hx))

theorem root_mem_productions (h : g.Augmented root) :
    (⟨TermId.root, [root], []⟩ : Production) ∈ g.productions :=
  List.mem_of_getElem? h.root_production

end Augmented

end Cfg

end Lalr

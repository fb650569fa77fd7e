import Lalr.Automaton.Basic
import Lalr.Automaton.Lookahead
import Lalr.Automaton.Record
import Lalr.Automaton.Report
import Lalr.Build.Basic
import Lalr.Build.Collection
import Lalr.Build.Facts
import Lalr.Build.Lookahead
import Lalr.Build.Record
import Lalr.Build.Run
import Lalr.Build.States
import Lalr.Cfg.Basic
import Lalr.Cfg.Display
import Lalr.Cfg.Facts
import Lalr.Compiled.Basic
import Lalr.Compiled.Display
import Lalr.Definition.Basic
import Lalr.Definition.Collection
import Lalr.Definition.Command
import Lalr.Definition.Edit
import Lalr.Definition.Productions
import Lalr.Definition.Repetition
import Lalr.Discovery
import Lalr.Entries
import Lalr.Expr
import Lalr.Ids
import Lalr.Log
import Lalr.Machine.Basic
import Lalr.Machine.Session
import Lalr.Machine.Table
import Lalr.Machine.Trace
import Lalr.Precedence
import Lalr.Proofs.Automaton.Lookahead
import Lalr.Proofs.Automaton.Path
import Lalr.Proofs.Automaton.Record
import Lalr.Proofs.Automaton.Report
import Lalr.Proofs.Automaton.Root
import Lalr.Proofs.Automaton.States
import Lalr.Proofs.Automaton.Validity
import Lalr.Proofs.Build.Basic
import Lalr.Proofs.Build.Collection
import Lalr.Proofs.Build.Facts
import Lalr.Proofs.Build.Lookahead
import Lalr.Proofs.Build.Record
import Lalr.Proofs.Build.Run
import Lalr.Proofs.Build.States
import Lalr.Proofs.Cfg.Derivation
import Lalr.Proofs.Cfg.Facts
import Lalr.Proofs.Cfg.Nullable
import Lalr.Proofs.Cfg.Passes
import Lalr.Proofs.Cfg.Scan
import Lalr.Proofs.Cfg.Tails
import Lalr.Proofs.Cfg.Tree
import Lalr.Proofs.Compiled.Built
import Lalr.Proofs.Compiled.Choice
import Lalr.Proofs.Compiled.Conflicts
import Lalr.Proofs.Compiled.Desugaring
import Lalr.Proofs.Compiled.Failure
import Lalr.Proofs.Compiled.Firsts
import Lalr.Proofs.Compiled.Keys
import Lalr.Proofs.Compiled.Keywords
import Lalr.Proofs.Compiled.Longest
import Lalr.Proofs.Compiled.Lookaheads
import Lalr.Proofs.Compiled.Lookup
import Lalr.Proofs.Compiled.Metadata
import Lalr.Proofs.Compiled.Nullable
import Lalr.Proofs.Compiled.Records
import Lalr.Proofs.Compiled.Repetitions
import Lalr.Proofs.Compiled.States
import Lalr.Proofs.Compiled.Tails
import Lalr.Proofs.Compiled.Warnings
import Lalr.Proofs.Definition.Changes
import Lalr.Proofs.Definition.Collection
import Lalr.Proofs.Definition.Combinators
import Lalr.Proofs.Definition.Consistency
import Lalr.Proofs.Definition.Exactness
import Lalr.Proofs.Definition.Keys
import Lalr.Proofs.Definition.Literals
import Lalr.Proofs.Definition.Meaning
import Lalr.Proofs.Definition.Metadata
import Lalr.Proofs.Definition.Names
import Lalr.Proofs.Definition.Refusal
import Lalr.Proofs.Definition.Repetitions
import Lalr.Proofs.Definition.Sharing
import Lalr.Proofs.Definition.Sites
import Lalr.Proofs.Definition.Spelling
import Lalr.Proofs.Definition.Tracing
import Lalr.Proofs.Definition.WellFormed
import Lalr.Proofs.Discovery
import Lalr.Proofs.Machine.Discipline
import Lalr.Proofs.Machine.Recovery
import Lalr.Proofs.Machine.Run
import Lalr.Proofs.Machine.Session
import Lalr.Proofs.Machine.Trace
import Lalr.Proofs.Parsing.Accepting
import Lalr.Proofs.Parsing.Assembly
import Lalr.Proofs.Parsing.Completeness
import Lalr.Proofs.Parsing.Grouping
import Lalr.Proofs.Parsing.Halting
import Lalr.Proofs.Parsing.Operators
import Lalr.Proofs.Parsing.Prefixes
import Lalr.Proofs.Parsing.Reducing
import Lalr.Proofs.Parsing.Safety
import Lalr.Proofs.Parsing.Soundness
import Lalr.Proofs.Parsing.Termination
import Lalr.Proofs.Propagation
import Lalr.Proofs.Token.Matcher
import Lalr.Proofs.Token.Scanner
import Lalr.Propagation
import Lalr.Sorted
import Lalr.TermSet
import Lalr.Text.Blank
import Lalr.Text.CaseTables
import Lalr.Text.Identifier
import Lalr.Text.LetterCase
import Lalr.Text.Offset
import Lalr.Text.Ranges
import Lalr.Token.Matcher
import Lalr.Token.Scanner
import Lalr.Token.Source
import Lalr.Total
import Lalr.Worklist

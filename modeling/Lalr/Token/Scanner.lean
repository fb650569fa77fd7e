import Lalr.Definition.Basic
import Lalr.Discovery
import Lalr.Token.Source
import Lalr.Text.Blank

/-!
# Scanning

A scanner looks at the next character and tries the terminals that may start with it, those of
high priority first (`ScannerLookup`: `build` and `candidates`). Terminals that may start with
anything are tried last, whatever the character is (`fallback`). When case is ignored, a character
stands for its lowercase and uppercase forms too.

Which tokens a text has is left to the user of a scanner: `Scanner.tokens` (after `tokenize`) takes
the first candidate that matches, at one position after the other, and skips blanks between.
-/

namespace Lalr

open Text

variable [Xid]

/-- A terminal as the scanner knows it. -/
structure Scannable where
  id       : TermId
  priority : Int
  matcher  : Matcher

/-- The terminals to try for each character, and for a character without an entry. -/
structure Scanner where
  buckets  : List (Char × List TermId)
  fallback : List TermId
  deriving DecidableEq, Repr

namespace Scanner

/-! ## Choosing terminals -/

/-- Puts `x` before the first value of no higher priority. -/
def insertByPriority {α : Type} (priority : α → Int) (x : α) : List α → List α
  | [] => [x]
  | y :: ys =>
    if priority y ≤ priority x then x :: y :: ys else y :: insertByPriority priority x ys

/-- Orders by descending priority, equal ones as they were. -/
def sortByPriority {α : Type} (priority : α → Int) (xs : List α) : List α :=
  xs.foldr (insertByPriority priority) []

/-- The characters that a starting character stands for. -/
def variants (ignoreCase : Bool) (c : Char) : List Char :=
  if ignoreCase then c :: (lowerChar c ++ upperChar c) else [c]

/-- The characters a terminal may start with; none if it may start with anything. -/
def startChars (ignoreCase : Bool) (s : Scannable) : List Char :=
  ((s.matcher.starts.getD []).filterMap fun text => text.toList.head?).flatMap
    (variants ignoreCase)

/-- **The scanner of a list of terminals.** -/
def ofTerminals (ignoreCase : Bool) (terminals : List Scannable) : Scanner :=
  let ordered := sortByPriority Scannable.priority
  let ids := fun (terminals : List Scannable) => terminals.map Scannable.id
  let fallback := ids (ordered (terminals.filter fun s => s.matcher.starts.isNone))
  let starts := terminals.map fun s => (s, startChars ignoreCase s)
  let chars := appendNew [] (starts.flatMap Prod.snd)
  { buckets := chars.map fun c =>
      let bucket := (starts.filter fun entry => entry.2.contains c).map Prod.fst
      (c, ids (ordered bucket) ++ fallback)
    fallback }

/-- The terminals to try, in order, when the input goes on with this character. -/
def candidates (s : Scanner) (c : Char) : List TermId := (s.buckets.lookup c).getD s.fallback

/-! ## Reading tokens -/

/-- The first candidate that matches some input at the position. -/
def matchFirst (matcherOf : TermId → Option Matcher) (input : String) (position : Nat)
    (candidates : List TermId) : Option (TermId × Lexeme) :=
  candidates.findSome? fun id => do
    let matcher ← matcherOf id
    let lexeme ← matcher.matchAt input position
    if lexeme.text.isEmpty then none else some (id, lexeme)

/-- Reads tokens from a byte position on, skipping blanks. Each round takes a byte at least. -/
def readFrom (s : Scanner) (matcherOf : TermId → Option Matcher) (input : String) :
    Nat → Nat → List (Signal TermId)
  | 0, _ => []
  | fuel + 1, position =>
    match charsFrom input position with
    | some (c :: _) =>
      if isBlank c then readFrom s matcherOf input fuel (position + c.utf8Size)
      else
        match matchFirst matcherOf input position (s.candidates c) with
        | some (id, lexeme) =>
          .token { symbol := id, text := lexeme.text } ::
            readFrom s matcherOf input fuel (position + byteLength lexeme.text.toList)
        | none => [.failure ("unexpected character at " ++ toString position)]
    | _ => []

/-- **The tokens of a text**; a character that no terminal starts with ends them in a failure. -/
def tokens (s : Scanner) (matcherOf : TermId → Option Matcher) (input : String) :
    List (Signal TermId) :=
  s.readFrom matcherOf input (byteLength input.toList + 1) 0

end Scanner

end Lalr

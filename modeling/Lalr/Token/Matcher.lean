import Lalr.Text.Identifier
import Lalr.Text.LetterCase
import Lalr.Text.Offset

/-!
# Matchers

A matcher recognizes one terminal at a byte position of the input (`try_match`, which returns a
`Token`: here a `Lexeme`). Two kinds belong to the library: a literal matches its own text
(`LiteralMatcher`), and an identifier matches any word that is no keyword (`IdentifierMatcher`, with
`is_keyword`). Every other kind is a recognizer brought along with the grammar.

A literal that is a word does not match the beginning of a longer word. A literal is read character
by character, and the match ends at the offset behind the last character read. That offset is
counted in characters of the input: one that is the same up to case may have another number of
bytes.

A matcher that knows which texts its matches start with tells so (`starts`, for `start_symbols`),
for a scanner to choose by the next character. What `init` makes of a matcher when the grammar is
known is `Matcher.prepare`.
-/

namespace Lalr

open Text

variable [Xid]

/-- What a piece of input is good for. -/
inductive Category where
  | content
  | comment
  | error
  deriving DecidableEq, Repr

/-- A recognized piece of input. -/
structure Lexeme where
  text     : String
  value    : Option String
  category : Category
  deriving DecidableEq, Repr

/-- A recognizer brought along with the grammar: what it matches at a byte position, and the texts
a match may start with, `none` if it may start with anything. -/
structure Recognizer where
  recognize : String → Nat → Option Lexeme
  starts    : Option (List String)

/-- Recognizes one terminal. -/
inductive Matcher where
  | literal (text : String) (ignoreCase : Bool)
  | identifier (keywords : List String) (ignoreCase : Bool)
  | custom (recognizer : Recognizer)

namespace Matcher

/-! ## Literals -/

/-- Reads the expected characters off a text that begins at the offset, and returns the offset
behind the last of them. -/
def readTo (ignoreCase : Bool) (offset : Nat) : List Char → List Char → Option Nat
  | [], _ => some offset
  | _ :: _, [] => none
  | expected :: more, c :: rest =>
    if sameUpToCase ignoreCase expected c then
      readTo ignoreCase (offset + c.utf8Size) more rest
    else none

/-- The text goes on with a character that continues identifiers. -/
def continuesWord : List Char → Bool
  | [] => false
  | c :: _ => isIdentContinue c

/-- Tries a literal at the front of the rest of the input, which is cut at the offset where the
match ends: for the match, and before that for what follows it if the literal is a word. -/
def tryLiteral (text : List Char) (ignoreCase : Bool) (rest : List Char) :
    Except OffBoundary (Option Lexeme) :=
  match readTo ignoreCase 0 text rest with
  | none => .ok none
  | some stop => do
    let goesOn ← if isWord text then continuesWord <$> sliceFrom rest stop else pure false
    if goesOn then
      return none
    else
      let front ← sliceTo rest stop
      return some { text := String.ofList front, value := none, category := .content }

/-- Matches a literal at the front of the rest of the input. -/
def matchLiteral (text : List Char) (ignoreCase : Bool) (rest : List Char) : Option Lexeme :=
  match tryLiteral text ignoreCase rest with
  | .ok found => found
  | .error _ => none

/-! ## Identifiers -/

/-- A word the grammar reserves. -/
def isKeyword (keywords : List String) (ignoreCase : Bool) (word : String) : Bool :=
  keywords.contains (foldCase ignoreCase word)

/-- Matches the longest word at the front of the rest of the input, unless it is a keyword. -/
def matchIdentifier (keywords : List String) (ignoreCase : Bool) : List Char → Option Lexeme
  | [] => none
  | c :: rest =>
    if isIdentStart c then
      let word := String.ofList (c :: rest.takeWhile isIdentContinue)
      if isKeyword keywords ignoreCase word then none
      else some { text := word, value := some word, category := .content }
    else none

/-! ## All matchers -/

/-- What the matcher finds at a byte position. A position past the end or inside a character
matches nothing. -/
def matchAt (matcher : Matcher) (input : String) (position : Nat) : Option Lexeme :=
  match matcher with
  | .literal text ignoreCase =>
    (charsFrom input position).bind (matchLiteral text.toList ignoreCase)
  | .identifier keywords ignoreCase =>
    (charsFrom input position).bind (matchIdentifier keywords ignoreCase)
  | .custom recognizer => recognizer.recognize input position

/-- The texts a match may start with, `none` if it may start with anything. -/
def starts : Matcher → Option (List String)
  | .literal text _ => text.toList.head?.map fun c => [String.singleton c]
  | .identifier _ _ => none
  | .custom recognizer => recognizer.starts

/-- Makes the matcher ready for a grammar with these keywords. -/
def prepare (keywords : List String) (ignoreCase : Bool) : Matcher → Matcher
  | .literal text _ => .literal text ignoreCase
  | .identifier _ _ => .identifier keywords ignoreCase
  | .custom recognizer => .custom recognizer

end Matcher

/-! ## Ready-made recognizers -/

namespace Recognizer

/-- The longest run of digits. -/
def digits : Recognizer where
  recognize input position :=
    (charsFrom input position).bind fun rest =>
      match rest.takeWhile isLatinDigit with
      | [] => none
      | run =>
        let text := String.ofList run
        some { text, value := some text, category := .content }
  starts := some ["0", "1", "2", "3", "4", "5", "6", "7", "8", "9"]

/-- The first of the texts that the rest of the input begins with. -/
def firstOf (texts : List String) (starts : Option (List String)) (category : Category) :
    Recognizer where
  recognize input position :=
    (charsFrom input position).bind fun rest =>
      (texts.find? fun text => text.toList.isPrefixOf rest).map fun text =>
        { text, value := some text, category }
  starts := starts

end Recognizer

end Lalr

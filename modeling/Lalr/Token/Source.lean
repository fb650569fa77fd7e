/-!
# Token sources

A source delivers the tokens that `next_event` asks for, one at a time. It may also report the end
of input at some point and go on afterwards, or fail with a message. When its signals are used up it
reports the end forever.
-/

namespace Lalr

/-- A terminal of the input with the text it was read from. -/
structure Token (Symbol : Type) where
  symbol : Symbol
  text   : String
  deriving DecidableEq, Repr

/-- What a source may deliver when asked. -/
inductive Signal (Symbol : Type) where
  | token (token : Token Symbol)
  /-- The input has ended, for now. -/
  | pause
  /-- There is no token to be had here. -/
  | failure (message : String)
  deriving DecidableEq, Repr

/-- The signals still to come; after them the input has ended. -/
abbrev Source (Symbol : Type) := List (Signal Symbol)

/-- Asks for the next token: a token, the end of input (`none`) or a failure. -/
def Source.pull {Symbol : Type} :
    Source Symbol → Except String (Option (Token Symbol)) × Source Symbol
  | [] => (.ok none, [])
  | .token token :: rest => (.ok (some token), rest)
  | .pause :: rest => (.ok none, rest)
  | .failure message :: rest => (.error message, rest)

end Lalr

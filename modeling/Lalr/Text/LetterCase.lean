import Lalr.Text.CaseTables
import Lalr.Text.Ranges

/-!
# Letter case

`lowerChar` and `upperChar` are the full mappings of one character, independent of what stands
around it (`to_lowercase` and `to_uppercase` of a character); a few characters become two or three.
`lowercase` maps a whole text the same way (`to_lowercase` of a text), with the one exception that
Unicode makes: a capital sigma at the end of a word becomes the final small sigma. Keys are folded
by the mapping of texts (`foldCase`, for `normalize_key`).

Two characters are the same up to case (`sameUpToCase`, for `same_char`) when their lowercase forms
agree. So the two small sigmas differ, while the Kelvin sign agrees with the letter `k`.
-/

namespace Lalr.Text

/-- The first image that one of the runs gives. -/
def runImage? (runs : List CaseRun) (code : Nat) : Option Nat :=
  runs.findSome? (·.image? code)

/-- The mapping of one character by a table of long images and a table of runs. -/
def mapCase (many : List (Nat × List Nat)) (runs : List CaseRun) (c : Char) : List Char :=
  match many.lookup c.toNat with
  | some codes => codes.map Char.ofNat
  | none =>
    match runImage? runs c.toNat with
    | some code => [Char.ofNat code]
    | none => [c]

/-- The lowercase form of one character. -/
def lowerChar (c : Char) : List Char := mapCase lowerMany lowerRuns c

/-- The uppercase form of one character. -/
def upperChar (c : Char) : List Char := mapCase upperMany upperRuns c

/-- A letter that takes part in case. -/
def isCased (c : Char) : Bool := inRanges casedRanges c.toNat

/-- A character that case rules look through, such as an apostrophe or an accent. -/
def isCaseIgnorable (c : Char) : Bool := inRanges caseIgnorableRanges c.toNat

/-- Behind the characters that case rules look through, the text goes on with a cased letter. -/
def meetsCased (cs : List Char) : Bool :=
  match cs.dropWhile isCaseIgnorable with
  | [] => false
  | c :: _ => isCased c

/-- The small sigma for a capital one with `before` (read backwards) and `after` around it: the
final form iff a cased letter precedes and none follows. -/
def smallSigma (before after : List Char) : Char :=
  if meetsCased before && !meetsCased after then 'ς' else 'σ'

/-- `lowercase` behind the text `before`, which is read backwards. -/
def lowerBehind (before : List Char) : List Char → List Char
  | [] => []
  | c :: rest =>
    (if c = 'Σ' then [smallSigma before rest] else lowerChar c) ++ lowerBehind (c :: before) rest

/-- The lowercase form of a text. -/
def lowercase (text : String) : String := String.ofList (lowerBehind [] text.toList)

/-- The text by which spellings are compared: itself, or its lowercase form when case is ignored. -/
def foldCase (ignoreCase : Bool) (text : String) : String :=
  if ignoreCase then lowercase text else text

/-- The characters are equal or, when case is ignored, have equal lowercase forms. -/
def sameUpToCase (ignoreCase : Bool) (a b : Char) : Bool :=
  a == b || (ignoreCase && lowerChar a == lowerChar b)

@[simp] theorem foldCase_false (text : String) : foldCase false text = text := rfl

@[simp] theorem foldCase_true (text : String) : foldCase true text = lowercase text := rfl

end Lalr.Text

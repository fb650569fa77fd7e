import Lalr.Total

/-!
# Byte offsets

Positions in a text are counted in bytes of its UTF-8 form, so a position may fall past the end or
inside a character. `charsFrom text position` is what stands from there on, and `none` for such a
position; the position right behind the last character is fine and gives the empty rest.

A matcher begins with the former (`get`, which may find nothing). It ends by cutting the text at an
offset that it answers for itself (`sliceFrom` and `sliceTo`): one that is not between two
characters would end the program in a panic, and is an error here (`OffBoundary`).
-/

namespace Lalr.Text

/-- The number of bytes of the UTF-8 form. -/
def byteLength (cs : List Char) : Nat := total (cs.map Char.utf8Size)

/-- What is left after so many bytes, `none` if they do not end between two characters. -/
def dropBytes : Nat → List Char → Option (List Char)
  | 0, cs => some cs
  | _ + 1, [] => none
  | n + 1, c :: rest => if c.utf8Size ≤ n + 1 then dropBytes (n + 1 - c.utf8Size) rest else none

/-- The characters from a byte position on. -/
def charsFrom (text : String) (position : Nat) : Option (List Char) :=
  dropBytes position text.toList

/-- A text was to be cut past its end or inside a character. -/
structure OffBoundary where
  offset : Nat
  deriving DecidableEq, Repr

/-- The text from the offset on. -/
def sliceFrom (cs : List Char) (offset : Nat) : Except OffBoundary (List Char) :=
  match dropBytes offset cs with
  | some rest => .ok rest
  | none => .error ⟨offset⟩

/-- The text up to the offset. -/
def sliceTo (cs : List Char) (offset : Nat) : Except OffBoundary (List Char) :=
  (sliceFrom cs offset).map fun rest => cs.take (cs.length - rest.length)

@[simp] theorem byteLength_nil : byteLength [] = 0 := rfl

@[simp] theorem byteLength_cons (c : Char) (cs : List Char) :
    byteLength (c :: cs) = c.utf8Size + byteLength cs := rfl

@[simp] theorem byteLength_append (cs ds : List Char) :
    byteLength (cs ++ ds) = byteLength cs + byteLength ds := by
  simp [byteLength]

theorem byteLength_eq_zero_iff {cs : List Char} : byteLength cs = 0 ↔ cs = [] := by
  cases cs with
  | nil => simp
  | cons c cs =>
    have hc := c.utf8Size_pos
    simp only [byteLength_cons, reduceCtorEq, iff_false]
    omega

theorem dropBytes_zero (cs : List Char) : dropBytes 0 cs = some cs := by
  cases cs <;> rfl

/-- Only the empty front part has no bytes. -/
theorem dropBytes_zero_eq_some_iff {cs rest : List Char} :
    dropBytes 0 cs = some rest ↔ ∃ front, cs = front ++ rest ∧ byteLength front = 0 := by
  rw [dropBytes_zero, Option.some.injEq]
  constructor
  · rintro rfl
    exact ⟨[], rfl, rfl⟩
  · rintro ⟨front, rfl, hb⟩
    rw [byteLength_eq_zero_iff.mp hb]
    rfl

/-- A front part that is not empty takes the first character whole. -/
theorem exists_front_cons_iff {n : Nat} {c : Char} {cs rest : List Char} :
    (∃ front, c :: cs = front ++ rest ∧ byteLength front = n + 1) ↔
      c.utf8Size ≤ n + 1 ∧ ∃ front, cs = front ++ rest ∧ byteLength front = n + 1 - c.utf8Size := by
  constructor
  · rintro ⟨_ | ⟨d, front⟩, h, hb⟩
    · simp at hb
    · obtain ⟨rfl, rfl⟩ := List.cons.inj h
      rw [byteLength_cons] at hb
      exact ⟨by omega, front, rfl, by omega⟩
  · rintro ⟨hle, front, rfl, hb⟩
    exact ⟨c :: front, rfl, by rw [byteLength_cons]; omega⟩

/-- **The rest at an offset is what follows some front part of exactly that many bytes.** -/
theorem dropBytes_eq_some_iff {n : Nat} {cs rest : List Char} :
    dropBytes n cs = some rest ↔ ∃ front, cs = front ++ rest ∧ byteLength front = n := by
  induction cs generalizing n with
  | nil =>
    cases n with
    | zero => exact dropBytes_zero_eq_some_iff
    | succ n => simp [dropBytes]
  | cons c cs ih =>
    cases n with
    | zero => exact dropBytes_zero_eq_some_iff
    | succ n =>
      rw [exists_front_cons_iff, dropBytes]
      split
      · rename_i hle
        rw [ih, and_iff_right hle]
      · rename_i hle
        simp [hle]

theorem sliceFrom_append (front back : List Char) :
    sliceFrom (front ++ back) (byteLength front) = .ok back := by
  rw [sliceFrom, dropBytes_eq_some_iff.mpr ⟨front, rfl, rfl⟩]

theorem sliceTo_append (front back : List Char) :
    sliceTo (front ++ back) (byteLength front) = .ok front := by
  rw [sliceTo, sliceFrom_append, Except.map, List.length_append, Nat.add_sub_cancel,
    List.take_left]

theorem utf8ByteSize_ofList (cs : List Char) :
    (String.ofList cs).utf8ByteSize = byteLength cs := by
  induction cs with
  | nil => rfl
  | cons c cs ih =>
    rw [String.ofList_cons, String.utf8ByteSize_append, String.utf8ByteSize_singleton, ih,
      byteLength_cons]

/-- **The rest at a position is what follows some text of exactly that many bytes.** -/
theorem charsFrom_eq_some_iff {text : String} {position : Nat} {rest : List Char} :
    charsFrom text position = some rest ↔
      ∃ before : String, text = before ++ String.ofList rest ∧ before.utf8ByteSize = position := by
  rw [charsFrom, dropBytes_eq_some_iff]
  constructor
  · rintro ⟨front, htext, hposition⟩
    refine ⟨String.ofList front, ?_, by rw [utf8ByteSize_ofList, hposition]⟩
    rw [← String.ofList_append, ← htext, String.ofList_toList]
  · rintro ⟨before, rfl, hposition⟩
    refine ⟨before.toList, by rw [String.toList_append, String.toList_ofList], ?_⟩
    rw [← hposition, ← utf8ByteSize_ofList, String.ofList_toList]

end Lalr.Text

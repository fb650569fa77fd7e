import Lalr.Definition.Repetition
import Lalr.Text.Identifier
import Mathlib.Tactic.ByContra

/-!
# Reading the names of repetitions

The name of a repetition is put together from the names of its terms, and these may be names of
repetitions again, or texts of literals between apostrophes. Nothing in such a text is escaped. So
`'a'+['b'+['c']` is both `x+[s]` with `x` the literal `a` and `s` the literal `b'+['c`, and `x+[s]`
with `x` the literal `a'+['b` and `s` the literal `c`.

Read from the left, a name can still be taken apart as long as no literal seems to end in the middle
of its text, that is, no apostrophe in a text is followed by a character that may follow a name
(`Reading.IsName`). The brackets outside of literals then tell where a separator ends
(`Reading.eq_of_separated`). **`Repetition.name_inj`**: repetitions without a separator have
different names in any case, and those with a separator have if the names of their terms can be
read.
-/

namespace Lalr

/-- The apostrophe, which stands at both ends of the name of a literal. -/
def isQuote (c : Char) : Bool := c == '\x27'

/-- What may follow the name of a term in the name of a repetition. -/
def signs : List Char := ['?', '+', '*', ']']

/-- The character may follow the name of a term in the name of a repetition. -/
def isSign (c : Char) : Bool := signs.contains c

/-- The characters that a name is taken apart by. -/
def isMark (c : Char) : Bool := isQuote c || isSign c || c == '['

/-! ## Reading -/

/-- Where one is in a name. -/
inductive Place where
  | outside
  /-- In the text of a literal. -/
  | quoted
  /-- After an apostrophe in a literal, which may be its end. -/
  | closing
  deriving DecidableEq

/-- Where one is after one more character. An apostrophe ends a literal if a sign follows. -/
def Place.next (place : Place) (c : Char) : Place :=
  match place with
  | .outside => if isQuote c then .quoted else .outside
  | .quoted => if isQuote c then .closing else .quoted
  | .closing => if isQuote c then .closing else if isSign c then .outside else .quoted

/-- Where one is in a name, and how many brackets are open outside of literals. -/
structure Reading where
  place : Place
  level : Nat

namespace Reading

/-- Reads a character, unless it closes a bracket that is not open. -/
def step (r : Reading) (c : Char) : Option Reading :=
  let place := r.place.next c
  if place = .outside ∧ c = '[' then some ⟨place, r.level + 1⟩
  else if place = .outside ∧ c = ']' then if r.level = 0 then none else some ⟨place, r.level - 1⟩
  else some ⟨place, r.level⟩

/-- Reads characters. -/
def read (r : Reading) (cs : List Char) : Option Reading := cs.foldlM step r

/-- The characters can be read as the name of a term: at the end no literal and no bracket is
open. -/
def IsName (cs : List Char) : Prop :=
  ∃ place, place ≠ .quoted ∧ read ⟨.outside, 0⟩ cs = some ⟨place, 0⟩

theorem read_append (r : Reading) (as bs : List Char) :
    r.read (as ++ bs) = (r.read as).bind fun r' => r'.read bs :=
  List.foldlM_append

theorem read_cons (r : Reading) (c : Char) (cs : List Char) :
    r.read (c :: cs) = (r.step c).bind fun r' => r'.read cs :=
  List.foldlM_cons

/-- Brackets that are open already do not matter. -/
theorem step_of_step {r r' : Reading} {c : Char} (h : r.step c = some r') (k : Nat) :
    step ⟨r.place, r.level + k⟩ c = some ⟨r'.place, r'.level + k⟩ := by
  unfold step at h ⊢
  dsimp only at h ⊢
  by_cases hopen : r.place.next c = .outside ∧ c = '['
  · rw [if_pos hopen] at h ⊢
    cases h
    rw [Nat.add_right_comm]
  · rw [if_neg hopen] at h ⊢
    by_cases hclose : r.place.next c = .outside ∧ c = ']'
    · rw [if_pos hclose] at h ⊢
      obtain ⟨hlevel, h⟩ := Option.ite_none_left_eq_some.mp h
      cases h
      rw [if_neg (by omega), Nat.sub_add_comm (Nat.pos_of_ne_zero hlevel)]
    · rw [if_neg hclose] at h ⊢
      cases h
      rfl

theorem read_of_read {r r' : Reading} {cs : List Char} (h : r.read cs = some r') (k : Nat) :
    read ⟨r.place, r.level + k⟩ cs = some ⟨r'.place, r'.level + k⟩ := by
  induction cs generalizing r with
  | nil =>
    cases h
    rfl
  | cons c cs ih =>
    rw [read_cons] at h ⊢
    obtain ⟨s, hs, hread⟩ := Option.bind_eq_some_iff.mp h
    rw [step_of_step hs k]
    exact ih hread

/-! ### Names -/

/-- A sign ends a literal, if one was about to end. -/
theorem next_of_isSign {place : Place} {c : Char} (hplace : place ≠ .quoted)
    (hc : isSign c = true) : place.next c = .outside := by
  have hquote : isQuote c = false := by
    have hmem : c ∈ signs := List.contains_iff_mem.mp hc
    simp only [signs, List.mem_cons, List.not_mem_nil, or_false] at hmem
    rcases hmem with rfl | rfl | rfl | rfl <;> decide
  cases place with
  | outside => simp [Place.next, hquote]
  | quoted => exact absurd rfl hplace
  | closing => simp [Place.next, hquote, hc]

/-- A sign other than a bracket only ends what is before it. -/
theorem step_of_isSign {r : Reading} {c : Char} (hplace : r.place ≠ .quoted)
    (hc : isSign c = true) (hbracket : c ≠ ']') : r.step c = some ⟨.outside, r.level⟩ := by
  have hopen : c ≠ '[' := by
    rintro rfl
    exact absurd hc (by decide)
  simp [step, next_of_isSign hplace hc, hopen, hbracket]

theorem step_close {r : Reading} (hplace : r.place ≠ .quoted) (level : Nat)
    (hlevel : r.level = level + 1) : r.step ']' = some ⟨.outside, level⟩ := by
  have hnext : r.place.next ']' = .outside := next_of_isSign hplace (by decide)
  simp [step, hnext, hlevel]

/-- Reading up to the separator of a repetition. -/
theorem read_separator {xs : List Char} {c : Char} (h : IsName xs) (hc : isSign c = true)
    (hbracket : c ≠ ']') (cs : List Char) :
    read ⟨.outside, 0⟩ (xs ++ c :: '[' :: cs) = read ⟨.outside, 1⟩ cs := by
  obtain ⟨place, hplace, hread⟩ := h
  rw [read_append, hread, Option.bind_some, read_cons, step_of_isSign hplace hc hbracket]
  rfl

namespace IsName

/-- A name without marks is read at once. -/
theorem of_plain {cs : List Char} (h : ∀ c ∈ cs, isMark c = false) : IsName cs := by
  refine ⟨.outside, by decide, ?_⟩
  induction cs with
  | nil => rfl
  | cons c cs ih =>
    obtain ⟨⟨hquote, hsign⟩, hopen⟩ : (isQuote c = false ∧ isSign c = false) ∧ c ≠ '[' := by
      simpa [isMark] using h c List.mem_cons_self
    have hclose : c ≠ ']' := by
      rintro rfl
      exact absurd hsign (by decide)
    have hstep : step ⟨.outside, 0⟩ c = some ⟨.outside, 0⟩ := by
      simp [step, Place.next, hquote, hopen, hclose]
    rw [read_cons, hstep]
    exact ih fun c hc => h c (List.mem_cons_of_mem _ hc)

/-- Inside a literal an apostrophe may be the last, and anything else is text. -/
theorem next_of_inside {place : Place} {c : Char} (hplace : place ≠ .outside)
    (hsign : place = .closing → isSign c = false) :
    place.next c = if isQuote c then .closing else .quoted := by
  cases place with
  | outside => exact absurd rfl hplace
  | quoted => rfl
  | closing => simp [Place.next, hsign rfl]

/-- One stays in the literal, as at an apostrophe no sign follows. -/
theorem read_text {text : List Char} (h : ∀ c ∈ signs, ¬ ['\x27', c] <:+: text) {place : Place}
    (hplace : place ≠ .outside) (hhead : place = .closing → ∀ c ∈ text.head?, isSign c = false) :
    read ⟨place, 0⟩ (text ++ ['\x27']) = some ⟨.closing, 0⟩ := by
  induction text generalizing place with
  | nil =>
    cases place with
    | outside => exact absurd rfl hplace
    | quoted => rfl
    | closing => rfl
  | cons c cs ih =>
    have hnext := next_of_inside hplace fun hclosing => hhead hclosing c rfl
    have hinside : place.next c ≠ .outside := by
      rw [hnext]
      split <;> decide
    have hstep : step ⟨place, 0⟩ c = some ⟨place.next c, 0⟩ := by simp [step, hinside]
    rw [List.cons_append, read_cons, hstep]
    refine ih (fun d hd hcs => h d hd (hcs.trans (List.suffix_cons c cs).isInfix)) hinside ?_
    intro hclosing d hd
    have hquote : c = '\x27' := by
      rw [hnext] at hclosing
      split at hclosing
      · rename_i hc
        simpa [isQuote] using hc
      · cases hclosing
    obtain ⟨rest, rfl⟩ := List.head?_eq_some_iff.mp hd
    by_contra hsign
    exact h d (by simpa [isSign] using hsign) ⟨[], rest, by rw [hquote]; rfl⟩

/-- The name of a literal can be read if no apostrophe in its text has a sign after it. -/
theorem of_text {text : List Char} (h : ∀ c ∈ signs, ¬ ['\x27', c] <:+: text) :
    IsName ('\x27' :: (text ++ ['\x27'])) := by
  have hplace : Place.quoted ≠ .outside := by decide
  exact ⟨.closing, by decide, read_text h hplace fun hclosing => by cases hclosing⟩

/-- A name with a sign after it is a name. -/
theorem append_sign {xs : List Char} {c : Char} (h : IsName xs) (hc : isSign c = true)
    (hbracket : c ≠ ']') : IsName (xs ++ [c]) := by
  obtain ⟨place, hplace, hread⟩ := h
  refine ⟨.outside, by decide, ?_⟩
  rw [read_append, hread, Option.bind_some, read_cons, step_of_isSign hplace hc hbracket]
  rfl

/-- A name with a sign and a separator after it is a name. -/
theorem append_separator {xs ss : List Char} {c : Char} (h : IsName xs) (hc : isSign c = true)
    (hbracket : c ≠ ']') (hs : IsName ss) : IsName (xs ++ c :: '[' :: (ss ++ [']'])) := by
  obtain ⟨place, hplace, hread⟩ := hs
  refine ⟨.outside, by decide, ?_⟩
  have hread' : read ⟨.outside, 1⟩ ss = some ⟨place, 1⟩ := read_of_read hread 1
  rw [read_separator h hc hbracket, read_append, hread', Option.bind_some, read_cons,
    step_close hplace 0 rfl]
  rfl

end IsName

/-- A name does not go on beyond a name before a separator: the rest of it would open a bracket, and
what closes it would be in the separator, which opens none before. -/
theorem length_le_of_separated {xs ss xs' ss' : List Char} {c c' : Char} (hxs : IsName xs)
    (hss : IsName ss) (hxs' : IsName xs') (hc : isSign c = true) (hbracket : c ≠ ']')
    (hc' : c' ≠ '[') (h : xs ++ c :: '[' :: ss = xs' ++ c' :: '[' :: ss') :
    xs'.length ≤ xs.length := by
  by_contra hlt
  rcases List.append_eq_append_iff.mp h with ⟨more, rfl, hmore⟩ | ⟨more, rfl, -⟩
  · obtain ⟨rest, rfl, rfl⟩ : ∃ rest, more = c :: '[' :: rest ∧ ss = rest ++ c' :: '[' :: ss' := by
      match more, hmore with
      | [], _ => simp at hlt
      | [_], hmore => exact absurd (List.cons.inj (List.cons.inj hmore).2).1.symm hc'
      | _ :: _ :: rest, hmore =>
        simp only [List.cons_append, List.cons.injEq] at hmore
        obtain ⟨rfl, rfl, hss⟩ := hmore
        exact ⟨rest, rfl, hss⟩
    obtain ⟨place, -, hread⟩ := hss
    obtain ⟨place', -, hread'⟩ := hxs'
    rw [read_append] at hread
    obtain ⟨r, hrest, -⟩ := Option.bind_eq_some_iff.mp hread
    have hrest' : read ⟨.outside, 1⟩ rest = some ⟨r.place, r.level + 1⟩ := read_of_read hrest 1
    rw [read_separator hxs hc hbracket, hrest'] at hread'
    exact Nat.succ_ne_zero _ (congrArg level (Option.some.inj hread'))
  · simp at hlt

/-- **A name with a separator after it is taken apart in one way only.** -/
theorem eq_of_separated {xs ss xs' ss' : List Char} {c c' : Char} (hxs : IsName xs)
    (hss : IsName ss) (hxs' : IsName xs') (hss' : IsName ss') (hc : isSign c = true)
    (hbracket : c ≠ ']') (hc' : isSign c' = true) (hbracket' : c' ≠ ']')
    (h : xs ++ c :: '[' :: ss = xs' ++ c' :: '[' :: ss') : xs = xs' ∧ c = c' ∧ ss = ss' := by
  have hopen : ∀ c, isSign c = true → c ≠ '[' := by
    rintro c hc rfl
    exact absurd hc (by decide)
  have hle := length_le_of_separated hxs hss hxs' hc hbracket (hopen c' hc') h
  have hle' := length_le_of_separated hxs' hss' hxs hc' hbracket' (hopen c hc) h.symm
  obtain ⟨rfl, htail⟩ := List.append_inj h (Nat.le_antisymm hle' hle)
  simp only [List.cons.injEq, true_and] at htail
  exact ⟨rfl, htail⟩

end Reading

/-! ## The names of repetitions -/

namespace Repetition

variable {f : TermId → String} {r r' : Repetition}

/-- The sign that stands behind the element. -/
def sign : Repetition → Char
  | .optional _ => '?'
  | .oneOrMore _ | .oneOrMoreSep _ _ => '+'
  | .zeroOrMore _ | .zeroOrMoreSep _ _ => '*'

/-- What is repeated. -/
def element : Repetition → TermId
  | .optional x | .oneOrMore x | .zeroOrMore x | .oneOrMoreSep x _ | .zeroOrMoreSep x _ => x

/-- What stands between two elements, if anything does. -/
def separator : Repetition → Option TermId
  | .optional _ | .oneOrMore _ | .zeroOrMore _ => none
  | .oneOrMoreSep _ s | .zeroOrMoreSep _ s => some s

theorem isSign_sign (r : Repetition) : isSign r.sign = true ∧ r.sign ≠ ']' := by
  cases r <;> exact ⟨rfl, by simp [sign]⟩

theorem element_mem_terms (r : Repetition) : r.element ∈ r.terms := by
  cases r <;> exact List.mem_cons_self

theorem separator_mem_terms {s : TermId} (h : r.separator = some s) : s ∈ r.terms := by
  cases r <;> cases h <;> exact List.mem_cons_of_mem _ List.mem_cons_self

/-- A repetition is its sign, its element and its separator. -/
theorem eq_of_parts (hsign : r.sign = r'.sign) (helement : r.element = r'.element)
    (hseparator : r.separator = r'.separator) : r = r' := by
  cases r <;> cases r' <;> simp_all [sign, element, separator]

theorem toList_name_of_none (h : r.separator = none) :
    (r.name f).toList = (f r.element).toList ++ [r.sign] := by
  cases r <;> simp_all [separator, name, element, sign]

theorem toList_name_of_some {s : TermId} (h : r.separator = some s) :
    (r.name f).toList = (f r.element).toList ++ r.sign :: '[' :: ((f s).toList ++ [']']) := by
  cases r <;> simp_all [separator, name, element, sign]

/-- The name of a repetition ends with a sign. -/
theorem exists_toList_name (f : TermId → String) (r : Repetition) :
    ∃ body c, (r.name f).toList = body ++ [c] ∧ isSign c = true := by
  cases h : r.separator with
  | none => exact ⟨_, r.sign, toList_name_of_none h, r.isSign_sign.1⟩
  | some s =>
    refine ⟨(f r.element).toList ++ r.sign :: '[' :: (f s).toList, ']', ?_, by decide⟩
    rw [toList_name_of_some h, List.append_assoc]
    rfl

/-- `x+[s]` and `x*[s]` have different names. -/
theorem name_oneOrMoreSep_ne (x s : TermId) :
    (oneOrMoreSep x s).name f ≠ (zeroOrMoreSep x s).name f := by
  intro h
  have hlist := congrArg String.toList h
  rw [toList_name_of_some rfl, toList_name_of_some rfl] at hlist
  have hsign : '+' = '*' := (List.cons.inj (List.append_cancel_left hlist)).1
  exact absurd hsign (by decide)

theorem isName_name (h : ∀ x ∈ r.terms, Reading.IsName (f x).toList) :
    Reading.IsName (r.name f).toList := by
  have helement := h _ r.element_mem_terms
  obtain ⟨hsign, hbracket⟩ := r.isSign_sign
  cases hs : r.separator with
  | none =>
    rw [toList_name_of_none hs]
    exact helement.append_sign hsign hbracket
  | some s =>
    rw [toList_name_of_some hs]
    exact helement.append_separator hsign hbracket (h s (separator_mem_terms hs))

/-- Only the name of a repetition with a separator ends with a bracket. -/
theorem toList_name_ne {s : TermId} (h : r.separator = none) (h' : r'.separator = some s) :
    (r.name f).toList ≠ (r'.name f).toList := by
  rw [toList_name_of_none h, toList_name_of_some h']
  intro hlist
  have hlast := congrArg List.getLast? hlist
  simp only [List.getLast?_append, List.getLast?_cons, List.getLast?_nil, Option.some_or,
    Option.getD_some, Option.getD_none, Option.some.injEq] at hlast
  exact r.isSign_sign.2 hlast

/-- **Different repetitions have different names**, if they have no separator, or if the names of
all their terms can be read. -/
theorem name_inj (hinj : ∀ x ∈ r.terms, ∀ y ∈ r'.terms, f x = f y → x = y)
    (hread : r.separator = none ∨ (∀ x ∈ r.terms, Reading.IsName (f x).toList) ∧
      ∀ x ∈ r'.terms, Reading.IsName (f x).toList)
    (h : r.name f = r'.name f) : r = r' := by
  have hlist : (r.name f).toList = (r'.name f).toList := congrArg String.toList h
  have hsame : ∀ x ∈ r.terms, ∀ y ∈ r'.terms, (f x).toList = (f y).toList → x = y :=
    fun x hx y hy hxy => hinj x hx y hy (String.toList_inj.mp hxy)
  have hmem := r.element_mem_terms
  have hmem' := r'.element_mem_terms
  obtain ⟨hsign, hbracket⟩ := r.isSign_sign
  obtain ⟨hsign', hbracket'⟩ := r'.isSign_sign
  cases hs : r.separator with
  | none =>
    cases hs' : r'.separator with
    | none =>
      rw [toList_name_of_none hs, toList_name_of_none hs'] at hlist
      obtain ⟨helement, hlast⟩ := List.append_inj' hlist rfl
      exact eq_of_parts (List.cons.inj hlast).1 (hsame _ hmem _ hmem' helement) (hs.trans hs'.symm)
    | some s' => exact absurd hlist (toList_name_ne hs hs')
  | some s =>
    cases hs' : r'.separator with
    | none => exact absurd hlist.symm (toList_name_ne hs' hs)
    | some s' =>
      obtain ⟨hterms, hterms'⟩ := hread.resolve_left (by simp [hs])
      have hseparator := separator_mem_terms hs
      have hseparator' := separator_mem_terms hs'
      rw [toList_name_of_some hs, toList_name_of_some hs', ← List.cons_append, ← List.cons_append,
        ← List.cons_append, ← List.cons_append, ← List.append_assoc, ← List.append_assoc] at hlist
      obtain ⟨helement, hsigns, hrest⟩ := Reading.eq_of_separated (hterms _ hmem)
        (hterms _ hseparator) (hterms' _ hmem') (hterms' _ hseparator') hsign hbracket hsign'
        hbracket' (List.append_inj' hlist rfl).1
      refine eq_of_parts hsigns (hsame _ hmem _ hmem' helement) ?_
      rw [hs, hs', hsame _ hseparator _ hseparator' hrest]

end Repetition

end Lalr

import Lalr.Proofs.Definition.Consistency
import Lalr.Proofs.Definition.Names
import Mathlib.Data.List.Infix
import Mathlib.Data.List.Nodup

/-!
# Repetitions are shared

The nonterminal of a repetition is made on first use and shared by later ones. It needs a name of
its own, and that is all that can be in the way: a repetition of usable terms is refused iff another
one has its name (`Definition.clashes`), it or the `x+[s]` that `x*[s]` is made of. Two calls that
are not refused return the same nonterminal iff they are for the same repetition.

The names of repetitions are put together from names, so the names of all terms are kept track of
(`Named`). **`repetition_outcome`** says what becomes of a repetition, and that it is never refused
if it has no separator, nor if the names of all literals can be read (`ReadsLiterals`). There are
literals for which it is: `'a'+['b'+['c']` is the name of two repetitions.
-/

namespace Lalr

open Text

/-- The command for a repetition makes these, one after the other. -/
def Repetition.steps : Repetition → List Repetition
  | .zeroOrMoreSep x s => [.oneOrMoreSep x s, .zeroOrMoreSep x s]
  | r => [r]

theorem Repetition.terms_of_mem_steps {r step : Repetition} (h : step ∈ r.steps) :
    step.terms = r.terms ∧ step.separator = r.separator := by
  cases r with
  | zeroOrMoreSep x s => rcases List.mem_pair.mp h with rfl | rfl <;> exact ⟨rfl, rfl⟩
  | _ => exact List.mem_singleton.mp h ▸ ⟨rfl, rfl⟩

/-- The name of a repetition depends on the names of its terms. -/
theorem Repetition.name_congr {f g : TermId → String} {r : Repetition}
    (h : ∀ x ∈ r.terms, f x = g x) : r.name f = r.name g := by
  cases r <;> simp_all [Repetition.name, Repetition.terms]

/-- **No character that names are put together with stands in an identifier.** -/
def Text.Xid.OmitsMarks [Text.Xid] : Prop :=
  ∀ c, isMark c = true → Text.Xid.isStart c = false ∧ Text.Xid.isContinue c = false

/-- A word has no marks. -/
theorem isMark_of_isWord [Text.Xid] (hmarks : Xid.OmitsMarks) {cs : List Char}
    (h : isWord cs = true) : ∀ c ∈ cs, isMark c = false := by
  intro c hc
  rw [← Bool.not_eq_true]
  intro hmark
  obtain ⟨hstart, hcontinue⟩ := hmarks c hmark
  have hunderscore : c ≠ '_' := by
    rintro rfl
    exact absurd hmark (by decide)
  cases cs with
  | nil => cases hc
  | cons first rest =>
    simp only [isWord, Bool.and_eq_true, List.all_eq_true] at h
    rcases List.mem_cons.mp hc with rfl | hc
    · simp [isIdentStart, hstart, hunderscore] at h
    · exact absurd (h.2 c hc) (by simp [isIdentContinue, hcontinue])

theorem omitsMarks_unicode17 : Xid.OmitsMarks := by
  intro c hmark
  simp only [isMark, isQuote, isSign, signs, Bool.or_eq_true, beq_iff_eq, List.contains_iff_mem,
    List.mem_cons, List.not_mem_nil, or_false] at hmark
  rcases hmark with (rfl | rfl | rfl | rfl | rfl) | rfl <;> decide

namespace Definition

variable {d d' : Definition}

/-- The repetition is not made yet, and another one has its name. -/
def clashes (d : Definition) (r : Repetition) : Bool :=
  (d.repetitions.lookup r).isNone &&
    (d.repetitions.map fun entry => entry.1.name d.nameOf).contains (r.name d.nameOf)

/-- In no text of a literal an apostrophe is followed by a sign. -/
def ReadsLiterals (d : Definition) : Prop :=
  ∀ t ∈ d.terms, t.isLiteral = true → ∀ c ∈ signs, ¬ ['\x27', c] <:+: t.key.toList

instance : Decidable d.ReadsLiterals :=
  decidable_of_iff (d.terms.all fun t => !t.isLiteral ||
    signs.all fun c => !decide (['\x27', c] <:+: t.key.toList)) (by
      simp [ReadsLiterals, imp_iff_not_or])

/-! ## Names -/

/-- What the names of terms are. -/
structure Named (d : Definition) : Prop where
  literals    : ∀ t ∈ d.terms, t.isLiteral = true → t.name = "'" ++ t.key ++ "'"
  symbols     : ∀ i t, d.terms[i]? = some t → t.isLiteral = false →
    (∀ c ∈ t.name.toList, isMark c = false) ∨ ∃ r, (r, i) ∈ d.repetitions
  repetitions : ∀ r i, (r, i) ∈ d.repetitions → ∃ t, d.terms[i]? = some t ∧ t.isLiteral = false ∧
    t.name = r.name d.nameOf ∧ ∀ x ∈ r.terms, x < i

theorem nameOf_modify {i j : TermId} {f : Term → Term} (hf : ∀ t, (f t).name = t.name) :
    (d.modify i f).nameOf j = d.nameOf j := by
  cases ht : d.terms[j]? with
  | none => simp [nameOf, modify, List.getElem?_modify, ht]
  | some t =>
    rw [nameOf_eq (getElem?_modify ht), nameOf_eq ht]
    split
    · exact hf t
    · rfl

namespace Named

theorem ofStart (ignoreCase : Bool) : (start ignoreCase).Named := by
  have hreserved : ∀ t ∈ (start ignoreCase).terms, t.isLiteral = false ∧
      t.name.toList.all (!isMark ·) = true := by
    intro t ht
    simp only [start, List.mem_cons, List.not_mem_nil, or_false] at ht
    rcases ht with rfl | rfl | rfl <;> exact ⟨rfl, by decide⟩
  refine ⟨fun t ht hliteral => ?_, fun i t ht _ => ?_, fun r i hr => absurd hr List.not_mem_nil⟩
  · rw [(hreserved t ht).1] at hliteral
    cases hliteral
  · exact Or.inl (by simpa using (hreserved t (List.mem_of_getElem? ht)).2)

/-- A change of anything but the kind, the name and the key may be made. -/
theorem modify (h : d.Named) {i : TermId} {f : Term → Term}
    (hf : ∀ t, (f t).kind = t.kind ∧ (f t).name = t.name ∧ (f t).key = t.key) :
    (d.modify i f).Named := by
  have hkeep : ∀ j (t : Term), (if i = j then f t else t).isLiteral = t.isLiteral ∧
      (if i = j then f t else t).name = t.name ∧ (if i = j then f t else t).key = t.key := by
    intro j t
    split
    · exact ⟨by rw [Term.isLiteral, (hf t).1, Term.isLiteral], (hf t).2⟩
    · exact ⟨rfl, rfl, rfl⟩
  refine ⟨?_, ?_, ?_⟩
  · intro u hu hliteral
    obtain ⟨j, hj⟩ := List.mem_iff_getElem?.mp hu
    obtain ⟨t, ht, rfl⟩ := getElem?_modify_iff.mp hj
    obtain ⟨hkind, hname, hkey⟩ := hkeep j t
    rw [hname, hkey]
    exact h.literals t (List.mem_of_getElem? ht) (hkind ▸ hliteral)
  · intro j u hu hliteral
    obtain ⟨t, ht, rfl⟩ := getElem?_modify_iff.mp hu
    obtain ⟨hkind, hname, -⟩ := hkeep j t
    rw [hname]
    exact h.symbols j t ht (hkind ▸ hliteral)
  · intro r j hr
    obtain ⟨t, ht, hliteral, hname, hterms⟩ := h.repetitions r j hr
    obtain ⟨hkind, hname', -⟩ := hkeep j t
    refine ⟨_, getElem?_modify ht, hkind.trans hliteral, ?_, hterms⟩
    rw [hname', hname]
    exact Repetition.name_congr fun x _ => (nameOf_modify fun t => (hf t).2.1).symm

/-- A term may be added under a name of its kind, and listed as the nonterminal of a repetition of
terms that are there. -/
theorem append (h : d.Named) {t : Term} (hterms : d'.terms = d.terms ++ [t])
    (hsub : d.repetitions ⊆ d'.repetitions)
    (hliteral : t.isLiteral = true → t.name = "'" ++ t.key ++ "'")
    (hsymbol : t.isLiteral = false → (∀ c ∈ t.name.toList, isMark c = false) ∨
      ∃ r, (r, d.terms.length) ∈ d'.repetitions)
    (hlisted : ∀ r i, (r, i) ∈ d'.repetitions → (r, i) ∈ d.repetitions ∨
      i = d.terms.length ∧ t.isLiteral = false ∧ t.name = r.name d.nameOf ∧
        ∀ x ∈ r.terms, x < d.terms.length) : d'.Named := by
  have hold : ∀ {i : TermId} {u : Term}, d.terms[i]? = some u → d'.terms[i]? = some u := by
    intro i u hu
    rw [hterms]
    exact getElem?_append_singleton_iff.mpr (Or.inl hu)
  have hname : ∀ {i}, i < d.terms.length → d'.nameOf i = d.nameOf i := fun hi => by
    have hu := List.getElem?_eq_getElem hi
    rw [nameOf_eq hu, nameOf_eq (hold hu)]
  refine ⟨?_, ?_, ?_⟩
  · intro u hu
    rcases List.mem_append.mp (hterms ▸ hu) with hu | hu
    · exact h.literals u hu
    · exact List.mem_singleton.mp hu ▸ hliteral
  · intro i u hu hkind
    rcases getElem?_append_singleton_iff.mp (hterms ▸ hu) with hu | ⟨rfl, rfl⟩
    · exact (h.symbols i u hu hkind).imp_right fun ⟨r, hr⟩ => ⟨r, hsub hr⟩
    · exact hsymbol hkind
  · intro r i hr
    rcases hlisted r i hr with hr | ⟨rfl, hkind, hrepetition, hlt⟩
    · obtain ⟨u, hu, hkind, hrepetition, hlt⟩ := h.repetitions r i hr
      have hi := (List.getElem?_eq_some_iff.mp hu).1
      refine ⟨u, hold hu, hkind, hrepetition.trans ?_, hlt⟩
      exact Repetition.name_congr fun x hx => (hname (Nat.lt_trans (hlt x hx) hi)).symm
    · have ht : d'.terms[d.terms.length]? = some t := by
        rw [hterms]
        exact List.getElem?_concat_length
      refine ⟨t, ht, hkind, hrepetition.trans ?_, hlt⟩
      exact Repetition.name_congr fun x hx => (hname (hlt x hx)).symm

theorem change [Text.Xid] (hmarks : Xid.OmitsMarks) (h : d.Named) (hd : d.Change d') :
    d'.Named := by
  cases hd with
  | symbol _ _ hkind _ _ _ hword =>
    refine h.append rfl (List.Subset.refl _) (fun hliteral => ?_)
      (fun _ => Or.inl (isMark_of_isWord hmarks hword)) (fun _ _ hr => Or.inl hr)
    rw [hkind] at hliteral
    cases hliteral
  | literal _ _ =>
    refine h.append rfl (List.Subset.refl _) (fun _ => rfl) (fun hkind => ?_)
      (fun _ _ hr => Or.inl hr)
    cases hkind
  | @repetition r plus t hterms _ ht _ _ =>
    have hlisted : ∀ x ∈ r.terms, x < d.terms.length := fun x hx =>
      (isUsable_iff.mp (isUsable_of_checkTerms hterms hx)).1
    refine h.append rfl (List.subset_append_left _ _) (fun hliteral => ?_) (fun _ => Or.inr ⟨r, ?_⟩)
      fun r' i hr' => ?_
    · rw [ht] at hliteral
      cases hliteral
    · exact List.mem_append_right _ (List.mem_singleton_self _)
    · rcases List.mem_append.mp hr' with hr' | hr'
      · exact Or.inl hr'
      · obtain ⟨rfl, rfl⟩ := by simpa using hr'
        exact Or.inr ⟨rfl, ht ▸ rfl, ht ▸ rfl, hlisted⟩
  | root _ => exact ⟨h.literals, h.symbols, h.repetitions⟩
  | operator _ => exact h.modify fun _ => ⟨rfl, rfl, rfl⟩
  | priority _ => exact h.modify fun _ => ⟨rfl, rfl, rfl⟩
  | nickname _ => exact h.modify fun _ => ⟨rfl, rfl, rfl⟩

theorem rule (h : d.Named) {lhs : TermId} {e : Expr} (hok : d.rule lhs e = .ok d') : d'.Named := by
  obtain ⟨-, -, rfl⟩ := rule_ok hok
  exact h.modify fun _ => ⟨rfl, rfl, rfl⟩

end Named

theorem named_ofCommands [Text.Xid] (hmarks : Xid.OmitsMarks) (ignoreCase : Bool)
    (commands : List Command) :
    (ofCommands ignoreCase commands).Named :=
  ofCommands_of_change (Named.ofStart ignoreCase) (fun _ _ h => h.change hmarks)
    (fun _ _ _ _ h => h.rule) commands

/-! ## The table of repetitions -/

/-- Every repetition is made once, and `x+[s]` before `x*[s]`. -/
structure MadeOnce (d : Definition) : Prop where
  keys   : (d.repetitions.map Prod.fst).Nodup
  ids    : (d.repetitions.map Prod.snd).Nodup
  bound  : ∀ r id, (r, id) ∈ d.repetitions → id < d.terms.length
  rests  : ∀ x s id, (.zeroOrMoreSep x s, id) ∈ d.repetitions →
    ∃ plus, (.oneOrMoreSep x s, plus) ∈ d.repetitions

namespace MadeOnce

theorem ofStart (ignoreCase : Bool) : (start ignoreCase).MadeOnce := by
  refine ⟨List.nodup_nil, List.nodup_nil, ?_, ?_⟩ <;> simp [start]

theorem change [Text.Xid] (h : d.MadeOnce) (hd : d.Change d') : d'.MadeOnce := by
  have hbound : ∀ r id, (r, id) ∈ d.repetitions → id < d'.terms.length := by
    intro r id hr
    obtain ⟨_, ht, -⟩ := hd.exists_term (List.getElem?_eq_getElem (h.bound r id hr))
    exact (List.getElem?_eq_some_iff.mp ht).1
  cases hd with
  | @repetition r plus t _ hplus _ _ hnew =>
    refine ⟨?_, ?_, ?_, ?_⟩
    · exact nodup_keys_append_singleton h.keys hnew
    · rw [List.map_append, List.nodup_append]
      refine ⟨h.ids, List.nodup_singleton _, ?_⟩
      rintro id hid _ hid' rfl
      obtain ⟨entry, hentry, rfl⟩ := List.mem_map.mp hid
      exact Nat.ne_of_lt (h.bound entry.1 entry.2 hentry) (by simpa using hid')
    · intro r' id hr'
      rcases List.mem_append.mp hr' with hr' | hr'
      · exact hbound r' id hr'
      · obtain ⟨-, rfl⟩ := by simpa using hr'
        show d.terms.length < (d.terms ++ [t]).length
        rw [List.length_append]
        exact Nat.lt_succ_self _
    · intro x s id hr'
      rcases List.mem_append.mp hr' with hr' | hr'
      · exact (h.rests x s id hr').imp fun _ => List.mem_append_left _
      · obtain ⟨rfl, -⟩ := by simpa using hr'
        exact ⟨plus, List.mem_append_left _ hplus⟩
  | _ => exact ⟨h.keys, h.ids, hbound, h.rests⟩

theorem rule (h : d.MadeOnce) {lhs : TermId} {e : Expr} (hok : d.rule lhs e = .ok d') :
    d'.MadeOnce := by
  obtain ⟨-, -, rfl⟩ := rule_ok hok
  refine ⟨h.keys, h.ids, fun r id hr => ?_, h.rests⟩
  rw [Definition.modify, List.length_modify]
  exact h.bound r id hr

/-- A repetition has one nonterminal, and a nonterminal is for one repetition. -/
theorem eq_iff (h : d.MadeOnce) {r r' : Repetition} {id id' : TermId} (hr : (r, id) ∈ d.repetitions)
    (hr' : (r', id') ∈ d.repetitions) : id = id' ↔ r = r' := by
  constructor
  · intro hid
    exact congrArg Prod.fst (List.inj_on_of_nodup_map h.ids hr hr' hid)
  · intro heq
    exact congrArg Prod.snd (List.inj_on_of_nodup_map h.keys hr hr' heq)

end MadeOnce

theorem madeOnce_ofCommands [Text.Xid] (ignoreCase : Bool) (commands : List Command) :
    (ofCommands ignoreCase commands).MadeOnce :=
  ofCommands_of_change (MadeOnce.ofStart ignoreCase) (fun _ _ h => h.change)
    (fun _ _ _ _ h => h.rule) commands

/-! ## Names of terms -/

namespace Named

variable {i j : TermId} {t u : Term}

/-- A symbol and a literal have different names: none but that of a literal has an apostrophe at its
end. -/
theorem name_ne_literal (h : d.Named) (ht : d.terms[i]? = some t) (hu : d.terms[j]? = some u)
    (hsymbol : t.isLiteral = false) (hliteral : u.isLiteral = true) : t.name ≠ u.name := by
  intro hname
  rw [h.literals u (List.mem_of_getElem? hu) hliteral] at hname
  have hlist : t.name.toList = '\x27' :: u.key.toList ++ ['\x27'] := by
    rw [hname, String.toList_append, String.toList_append]
    rfl
  rcases h.symbols i t ht hsymbol with hplain | ⟨r, hr⟩
  · have hmark := hplain '\x27' (by rw [hlist]; exact List.mem_cons_self)
    exact absurd hmark (by decide)
  · obtain ⟨t', ht', -, hrepetition, -⟩ := h.repetitions r i hr
    obtain rfl : t = t' := Option.some.inj (ht.symm.trans ht')
    obtain ⟨body, c, hbody, hc⟩ := r.exists_toList_name d.nameOf
    rw [← hrepetition, hlist] at hbody
    obtain ⟨-, hlast⟩ := List.append_inj' hbody rfl
    obtain rfl : '\x27' = c := (List.cons.inj hlast).1
    exact absurd hc (by decide)

/-- **No two terms have the same name.** -/
theorem name_inj (h : d.Named) (hd : d.Registered) (ht : d.terms[i]? = some t)
    (hu : d.terms[j]? = some u) (hname : t.name = u.name) : i = j := by
  cases hkind : t.isLiteral <;> cases hkind' : u.isLiteral
  · exact hd.names.eq_of_key ht hu (Term.symbolName_eq hkind) (hname ▸ Term.symbolName_eq hkind')
  · exact absurd hname (h.name_ne_literal ht hu hkind hkind')
  · exact absurd hname.symm (h.name_ne_literal hu ht hkind' hkind)
  · rw [h.literals t (List.mem_of_getElem? ht) hkind,
      h.literals u (List.mem_of_getElem? hu) hkind'] at hname
    have hkey : t.key = u.key := by
      have hlist := congrArg String.toList hname
      simpa [String.toList_inj] using hlist
    exact hd.literals.eq_of_key ht hu (Term.literalText_eq hkind)
      (hkey ▸ Term.literalText_eq hkind')

/-- The names of all terms can be read, if those of literals can. -/
theorem isName (h : d.Named) (hliterals : d.ReadsLiterals) :
    ∀ {i : TermId} {t : Term}, d.terms[i]? = some t → Reading.IsName t.name.toList := by
  intro i
  induction i using Nat.strongRecOn with
  | ind i ih =>
    intro t ht
    have hmem := List.mem_of_getElem? ht
    cases hkind : t.isLiteral with
    | true =>
      have hlist : t.name.toList = '\x27' :: (t.key.toList ++ ['\x27']) := by
        rw [h.literals t hmem hkind, String.toList_append, String.toList_append]
        rfl
      rw [hlist]
      exact Reading.IsName.of_text (hliterals t hmem hkind)
    | false =>
      rcases h.symbols i t ht hkind with hplain | ⟨r, hr⟩
      · exact Reading.IsName.of_plain hplain
      · obtain ⟨t', ht', -, hname, hlt⟩ := h.repetitions r i hr
        obtain rfl : t = t' := Option.some.inj (ht.symm.trans ht')
        rw [hname]
        refine Repetition.isName_name fun x hx => ?_
        have hi := (List.getElem?_eq_some_iff.mp ht).1
        have hu := List.getElem?_eq_getElem (Nat.lt_trans (hlt x hx) hi)
        rw [nameOf_eq hu]
        exact ih x (hlt x hx) hu

/-- **The name of a repetition is taken only by a repetition.** -/
theorem findName_isSome (h : d.Named) (hd : d.Registered) (r : Repetition) :
    (d.findName (r.name d.nameOf)).isSome =
      (d.repetitions.map fun entry => entry.1.name d.nameOf).contains (r.name d.nameOf) := by
  rw [Bool.eq_iff_iff, Option.isSome_iff_exists, List.contains_iff_mem, List.mem_map]
  constructor
  · rintro ⟨j, hj⟩
    obtain ⟨t, ht, hsymbol⟩ := (hd.names.lookup _ _).mp hj
    obtain ⟨hkind, hname⟩ : t.isLiteral = false ∧ t.name = r.name d.nameOf := by
      simpa [Term.symbolName] using hsymbol
    rcases h.symbols j t ht hkind with hplain | ⟨r', hr'⟩
    · obtain ⟨body, c, hbody, hc⟩ := r.exists_toList_name d.nameOf
      have hmark := hplain c (by rw [hname, hbody]; simp)
      simp [isMark, hc] at hmark
    · obtain ⟨t', ht', -, hname', -⟩ := h.repetitions r' j hr'
      obtain rfl : t = t' := Option.some.inj (ht.symm.trans ht')
      exact ⟨(r', j), hr', hname'.symm.trans hname⟩
  · rintro ⟨⟨r', j⟩, hr', hname⟩
    obtain ⟨t, ht, hkind, hname', -⟩ := h.repetitions r' j hr'
    refine ⟨j, (hd.names.lookup _ _).mpr ⟨t, ht, ?_⟩⟩
    rw [Term.symbolName_eq hkind, hname', hname]

/-- Repetitions of usable terms clash only if they have a separator and the names of literals cannot
be read. -/
theorem clashes_eq_false (h : d.Named) (hd : d.Registered) {r : Repetition}
    (husable : ∀ x ∈ r.terms, d.isUsable x = true) (hread : r.separator = none ∨ d.ReadsLiterals) :
    d.clashes r = false := by
  by_contra hclash
  simp only [clashes, Bool.not_eq_false, Bool.and_eq_true, Option.isNone_iff_eq_none,
    List.contains_iff_mem, List.mem_map] at hclash
  obtain ⟨hnew, ⟨r', i⟩, hr', hname⟩ := hclash
  obtain ⟨t, ht, -, -, hlt⟩ := h.repetitions r' i hr'
  have hi := (List.getElem?_eq_some_iff.mp ht).1
  have hterm : ∀ x ∈ r.terms, x < d.terms.length := fun x hx => (isUsable_iff.mp (husable x hx)).1
  have hterm' : ∀ x ∈ r'.terms, x < d.terms.length := fun x hx => Nat.lt_trans (hlt x hx) hi
  have hsame : r = r' := by
    refine Repetition.name_inj (fun x hx y hy hxy => ?_) (hread.imp_right fun hliterals => ?_)
      hname.symm
    · have hx := List.getElem?_eq_getElem (hterm x hx)
      have hy := List.getElem?_eq_getElem (hterm' y hy)
      rw [nameOf_eq hx, nameOf_eq hy] at hxy
      exact h.name_inj hd hx hy hxy
    · have hname : ∀ x < d.terms.length, Reading.IsName (d.nameOf x).toList := fun x hx => by
        have ht := List.getElem?_eq_getElem hx
        rw [nameOf_eq ht]
        exact h.isName hliterals ht
      exact ⟨fun x hx => hname x (hterm x hx), fun x hx => hname x (hterm' x hx)⟩
  subst hsame
  exact not_mem_of_lookup_eq_none hnew hr'

end Named

/-! ## What becomes of a repetition -/

theorem checkTerms_of_usable {ids : List TermId} (h : ∀ x ∈ ids, d.isUsable x = true) :
    d.checkTerms ids = .ok () := by
  have hnone : ids.find? (fun id => !d.isUsable id) = none := by simpa using h
  rw [checkTerms, hnone]

/-- One step: the nonterminal is made or found, unless the name is taken. -/
theorem shareRepetition_outcome (h : d.Named) (hd : d.Registered) {r : Repetition}
    (husable : ∀ x ∈ r.terms, d.isUsable x = true) (plus : TermId) :
    (d.clashes r = true ∧ d.shareRepetition r plus = .error (.duplicate (r.name d.nameOf))) ∨
      (d.clashes r = false ∧ ∃ d' id, d.shareRepetition r plus = .ok (d', id)) := by
  unfold clashes shareRepetition
  rw [← h.findName_isSome hd r]
  cases hlookup : d.repetitions.lookup r with
  | some id => exact Or.inr ⟨rfl, d, id, rfl⟩
  | none =>
    simp only [checkTerms_of_usable husable, Option.isNone_none, Bool.true_and]
    generalize hterm : ({ Term.named d.terms.length .nonterminal (r.name d.nameOf) with
      rule := some (r.rule d.terms.length plus) } : Term) = term
    have hname : term.name = r.name d.nameOf := hterm ▸ rfl
    rw [addNamed, hname]
    cases (d.findName (r.name d.nameOf)).isSome with
    | true => exact Or.inl ⟨rfl, rfl⟩
    | false => exact Or.inr ⟨rfl, _, _, rfl⟩

/-- Making `x+[s]` leaves it open whether the name of `x*[s]` is taken. -/
theorem clashes_of_shareRepetition (h : d.Named) {x s plus : TermId}
    (husable : ∀ y ∈ [x, s], d.isUsable y = true)
    (hok : d.shareRepetition (.oneOrMoreSep x s) TermId.empty = .ok (d', plus)) :
    d'.clashes (.zeroOrMoreSep x s) = d.clashes (.zeroOrMoreSep x s) := by
  have hchanges := (changes_shareRepetition (restsOn_empty (by simp)) hok).1
  have hname : ∀ {r : Repetition}, (∀ y ∈ r.terms, y < d.terms.length) →
      r.name d'.nameOf = r.name d.nameOf := fun hr =>
    Repetition.name_congr fun y hy => hchanges.nameOf_eq (hr y hy)
  have hself := hname (r := .zeroOrMoreSep x s) fun y hy => (isUsable_iff.mp (husable y hy)).1
  have hplus := hname (r := .oneOrMoreSep x s) fun y hy => (isUsable_iff.mp (husable y hy)).1
  rcases shareRepetition_ok hok with ⟨-, rfl⟩ | ⟨-, -, rfl, t, -, -, hd'⟩
  · rfl
  have hlist : d'.repetitions = d.repetitions ++ [(.oneOrMoreSep x s, d.terms.length)] := by
    rw [hd']
  have hold : d.repetitions.map (fun entry => entry.1.name d'.nameOf) =
      d.repetitions.map fun entry => entry.1.name d.nameOf := by
    refine List.map_congr_left fun entry hentry => ?_
    obtain ⟨u, hu, -, -, hlt⟩ := h.repetitions entry.1 entry.2 hentry
    exact hname fun y hy => Nat.lt_trans (hlt y hy) (List.getElem?_eq_some_iff.mp hu).1
  have hlookup : d'.repetitions.lookup (.zeroOrMoreSep x s) =
      d.repetitions.lookup (.zeroOrMoreSep x s) := by
    rw [hlist, List.lookup_append]
    exact Option.or_none
  have hcontains : (d'.repetitions.map fun entry => entry.1.name d'.nameOf).contains
      ((Repetition.zeroOrMoreSep x s).name d.nameOf) =
      (d.repetitions.map fun entry => entry.1.name d.nameOf).contains
        ((Repetition.zeroOrMoreSep x s).name d.nameOf) := by
    rw [hlist, List.map_append, hold, Bool.eq_iff_iff, List.contains_iff_mem, List.contains_iff_mem,
      List.mem_append, or_iff_left]
    rw [List.map_singleton, List.mem_singleton, hplus]
    exact (Repetition.name_oneOrMoreSep_ne x s).symm
  rw [clashes, clashes, hself, hlookup, hcontains]

/-- A repetition that was made before is found. -/
theorem repetition_of_lookup {r : Repetition} {id : TermId}
    (h : d.repetitions.lookup r = some id) : d.repetition r = (d, .ok id) := by
  unfold Definition.repetition
  split <;> simp_all

/-- A repetition other than `x*[s]` is made at once. -/
theorem repetition_of_none {r : Repetition} (h : d.repetitions.lookup r = none)
    (hr : ∀ x s, r ≠ .zeroOrMoreSep x s) :
    d.repetition r = d.keepOnError (d.shareRepetition r TermId.empty) := by
  unfold Definition.repetition
  split <;> simp_all

/-- `x*[s]` is made after `x+[s]`. -/
theorem repetition_sep_of_none {x s : TermId}
    (h : d.repetitions.lookup (.zeroOrMoreSep x s) = none) :
    d.repetition (.zeroOrMoreSep x s) =
      match d.shareRepetition (.oneOrMoreSep x s) TermId.empty with
      | .error cause => (d, .error cause)
      | .ok (d', plus) => d'.keepOnError (d'.shareRepetition (.zeroOrMoreSep x s) plus) := by
  unfold Definition.repetition
  generalize d.repetitions.lookup (.zeroOrMoreSep x s) = made at h ⊢
  subst h
  rfl

/-- What was made does not clash, nor does what it was made of. -/
theorem MadeOnce.find?_steps (hmade : d.MadeOnce) {r : Repetition} {id : TermId}
    (h : (r, id) ∈ d.repetitions) : r.steps.find? d.clashes = none := by
  have hmem : ∀ step ∈ r.steps, ∃ id, (step, id) ∈ d.repetitions := by
    intro step hstep
    cases r with
    | zeroOrMoreSep x s =>
      rcases List.mem_pair.mp hstep with rfl | rfl
      · exact hmade.rests x s id h
      · exact ⟨id, h⟩
    | _ => exact ⟨id, List.mem_singleton.mp hstep ▸ h⟩
  refine List.find?_eq_none.mpr fun step hstep hclash => ?_
  obtain ⟨id, hid⟩ := hmem step hstep
  simp only [clashes, Bool.and_eq_true, Option.isNone_iff_eq_none] at hclash
  exact not_mem_of_lookup_eq_none hclash.1 hid

/-- A single step, with its definition kept. -/
theorem keepOnError_shareRepetition (h : d.Named) (hd : d.Registered) {r : Repetition}
    (husable : ∀ x ∈ r.terms, d.isUsable x = true) (plus : TermId) :
    (d.clashes r = true ∧
        (d.keepOnError (d.shareRepetition r plus)).2 = .error (.duplicate (r.name d.nameOf))) ∨
      (d.clashes r = false ∧ ∃ id, (d.keepOnError (d.shareRepetition r plus)).2 = .ok id) := by
  rcases shareRepetition_outcome h hd husable plus with
    ⟨hclash, herror⟩ | ⟨hclash, d', id, hok⟩
  · refine Or.inl ⟨hclash, ?_⟩
    rw [herror]
    rfl
  · refine Or.inr ⟨hclash, id, ?_⟩
    rw [hok]
    rfl

/-- The two steps of `x*[s]`. The second is made in the definition after the first. -/
theorem repetition_sep_steps [Text.Xid] (hmarks : Xid.OmitsMarks) (h : d.Named)
    (hd : d.Registered) {x s : TermId} (husable : ∀ y ∈ [x, s], d.isUsable y = true)
    (hlookup : d.repetitions.lookup (.zeroOrMoreSep x s) = none) :
    match (Repetition.zeroOrMoreSep x s).steps.find? d.clashes with
    | some step => (d.repetition (.zeroOrMoreSep x s)).2 = .error (.duplicate (step.name d.nameOf))
    | none => ∃ id, (d.repetition (.zeroOrMoreSep x s)).2 = .ok id := by
  rw [repetition_sep_of_none hlookup, Repetition.steps]
  rcases shareRepetition_outcome h hd (r := .oneOrMoreSep x s) husable TermId.empty with
    ⟨hclash, herror⟩ | ⟨hclash, d', plus, hok⟩
  · rw [List.find?_cons_of_pos hclash, herror]
  rw [List.find?_cons_of_neg (by simp [hclash]), hok]
  have hchanges := (changes_shareRepetition (restsOn_empty (by simp)) hok).1
  have hname : (Repetition.zeroOrMoreSep x s).name d'.nameOf =
      (Repetition.zeroOrMoreSep x s).name d.nameOf :=
    Repetition.name_congr fun y hy => hchanges.nameOf_eq (isUsable_iff.mp (husable y hy)).1
  have houtcome := keepOnError_shareRepetition
    (hchanges.keep (fun _ _ h => h.change hmarks) h)
    (hchanges.keep (fun _ _ h => h.change) hd) (r := .zeroOrMoreSep x s)
    (fun y hy => hchanges.isUsable (husable y hy)) plus
  rw [clashes_of_shareRepetition h husable hok, hname] at houtcome
  rcases houtcome with ⟨hclash, herror⟩ | ⟨hclash, hmade⟩
  · rw [List.find?_cons_of_pos hclash]
    exact herror
  · rw [List.find?_cons_of_neg (by simp [hclash])]
    exact hmade

/-- **What becomes of a repetition**, by the steps that make it. -/
theorem repetition_steps [Text.Xid] (hmarks : Xid.OmitsMarks) (h : d.Named)
    (hd : d.Registered) (hmade : d.MadeOnce) {r : Repetition}
    (husable : ∀ x ∈ r.terms, d.isUsable x = true) :
    match r.steps.find? d.clashes with
    | some step => (d.repetition r).2 = .error (.duplicate (step.name d.nameOf))
    | none => ∃ id, (d.repetition r).2 = .ok id := by
  cases hlookup : d.repetitions.lookup r with
  | some id =>
    rw [hmade.find?_steps (mem_of_lookup_eq_some hlookup), repetition_of_lookup hlookup]
    exact ⟨id, rfl⟩
  | none =>
    by_cases hsep : ∃ x s, r = .zeroOrMoreSep x s
    · obtain ⟨x, s, rfl⟩ := hsep
      exact repetition_sep_steps hmarks h hd husable hlookup
    · have hsteps : r.steps = [r] := by
        cases r <;> simp_all [Repetition.steps]
      rw [hsteps, repetition_of_none hlookup fun x s hr => hsep ⟨x, s, hr⟩]
      rcases keepOnError_shareRepetition h hd husable TermId.empty with
        ⟨hclash, herror⟩ | ⟨hclash, hmade⟩
      · rw [List.find?_cons_of_pos hclash]
        exact herror
      · rw [List.find?_cons_of_neg (by simp [hclash])]
        exact hmade

/-! ## Calls -/

theorem keepOnError_ok {α : Type} {result : Except DefinitionError (Definition × α)} {a : α}
    (h : (d.keepOnError result).2 = .ok a) : result = .ok ((d.keepOnError result).1, a) := by
  cases result with
  | error cause => cases h
  | ok pair =>
    cases h
    rfl

/-- A repetition that is not refused is listed. -/
theorem mem_repetitions_of_ok {r : Repetition} {id : TermId} (h : (d.repetition r).2 = .ok id) :
    (r, id) ∈ (d.repetition r).1.repetitions := by
  cases hlookup : d.repetitions.lookup r with
  | some id' =>
    rw [repetition_of_lookup hlookup] at h ⊢
    cases h
    exact mem_of_lookup_eq_some hlookup
  | none =>
    by_cases hsep : ∃ x s, r = .zeroOrMoreSep x s
    · obtain ⟨x, s, rfl⟩ := hsep
      rw [repetition_sep_of_none hlookup] at h ⊢
      cases hok : d.shareRepetition (.oneOrMoreSep x s) TermId.empty with
      | error cause =>
        rw [hok] at h
        cases h
      | ok made =>
        rw [hok] at h
        have hplus := (changes_shareRepetition (restsOn_empty (by simp)) hok).2
        exact (changes_shareRepetition (r := .zeroOrMoreSep x s) hplus (keepOnError_ok h)).2
    · have hother : ∀ x s, r ≠ .zeroOrMoreSep x s := fun x s hr => hsep ⟨x, s, hr⟩
      rw [repetition_of_none hlookup hother] at h ⊢
      exact (changes_shareRepetition (restsOn_empty hother) (keepOnError_ok h)).2

/-- Commands keep the repetitions that were made. -/
theorem repetitions_subset_foldl [Text.Xid] : ∀ (commands : List Command) (d : Definition),
    d.repetitions ⊆ (commands.foldl (fun d command => (d.apply command).1) d).repetitions
  | [], _ => List.Subset.refl _
  | command :: rest, d => by
    have happly : d.repetitions ⊆ (d.apply command).1.repetitions := by
      refine apply_of_change (P := fun d' => d.repetitions ⊆ d'.repetitions) (List.Subset.refl _)
        (fun _ _ h hd => List.Subset.trans h hd.repetitions_subset) ?_
      rintro d' lhs e - hok
      obtain ⟨-, -, rfl⟩ := rule_ok hok
      exact List.Subset.refl _
    exact List.Subset.trans happly (repetitions_subset_foldl rest _)

/-- **What becomes of a repetition**, after any commands. If its terms are usable, it is refused iff
one of the steps that make it clashes, and as the duplicate of that one; it never is without a
separator, nor if the names of all literals can be read. And two calls that are not refused return
the same nonterminal iff they are for the same repetition. -/
theorem repetition_outcome [Text.Xid] (hmarks : Xid.OmitsMarks) (ignoreCase : Bool)
    (commands : List Command) :
    let d := ofCommands ignoreCase commands
    (∀ r, (∀ x ∈ r.terms, d.isUsable x = true) →
      (match r.steps.find? d.clashes with
        | some step => (d.repetition r).2 = .error (.duplicate (step.name d.nameOf))
        | none => ∃ id, (d.repetition r).2 = .ok id) ∧
      (r.separator = none ∨ d.ReadsLiterals → ∃ id, (d.repetition r).2 = .ok id)) ∧
    ∀ before middle r r' id id', commands = before ++ .repetition r :: middle →
      ((ofCommands ignoreCase before).repetition r).2 = .ok id →
      (d.repetition r').2 = .ok id' → (id = id' ↔ r = r') := by
  intro d
  have hnamed := named_ofCommands hmarks ignoreCase commands
  have hregistered := registered_ofCommands ignoreCase commands
  have hmade := madeOnce_ofCommands ignoreCase commands
  refine ⟨fun r husable => ?_, ?_⟩
  · have hsteps := repetition_steps hmarks hnamed hregistered hmade husable
    refine ⟨hsteps, fun hread => ?_⟩
    have hnone : r.steps.find? d.clashes = none := by
      refine List.find?_eq_none.mpr fun step hstep => ?_
      obtain ⟨hterms, hseparator⟩ := Repetition.terms_of_mem_steps hstep
      rw [Bool.not_eq_true]
      exact hnamed.clashes_eq_false hregistered (hterms ▸ husable) (hseparator ▸ hread)
    rwa [hnone] at hsteps
  · intro before middle r r' id id' hcommands hok hok'
    -- Both are listed after the second call.
    have hmem : (r, id) ∈ d.repetitions := by
      have hsub := repetitions_subset_foldl middle ((ofCommands ignoreCase before).repetition r).1
      have hd : d = middle.foldl (fun d command => (d.apply command).1)
          ((ofCommands ignoreCase before).repetition r).1 := by
        show ofCommands ignoreCase commands = _
        rw [hcommands, ofCommands, List.foldl_append]
        rfl
      exact hd ▸ hsub (mem_repetitions_of_ok hok)
    have hmem' := mem_repetitions_of_ok hok'
    have hsub := (changes_repetition d r').keep (P := fun d' => d.repetitions ⊆ d'.repetitions)
      (fun _ _ h hd => List.Subset.trans h hd.repetitions_subset) (List.Subset.refl _)
    exact ((changes_repetition d r').keep (fun _ _ h => h.change) hmade).eq_iff (hsub hmem) hmem'

/-- Four literals, two of which have the end of one and the beginning of another in their texts, and
a list of the first with the second between. -/
def entangled : List Command :=
  [.literal "a", .literal "b'+['c", .literal "a'+['b", .literal "c",
    .repetition (.oneOrMoreSep 3 4)]

/-- **A repetition of usable terms is refused**, though it is not the one that was made: both have
the name `'a'+['b'+['c']`. -/
theorem entangled_refused :
    (∀ x ∈ (Repetition.oneOrMoreSep 5 6).terms, (ofCommands false entangled).isUsable x = true) ∧
      (ofCommands false entangled).repetitions = [(.oneOrMoreSep 3 4, 7)] ∧
      ((ofCommands false entangled).repetition (.oneOrMoreSep 5 6)).2 =
        .error (.duplicate "'a'+['b'+['c']") := by
  refine ⟨?_, ?_, ?_⟩
  all_goals decide

/-- A literal with an apostrophe at its end, and a list of it. -/
def apostrophes : List Command :=
  [.literal "a'", .literal ",", .repetition (.oneOrMoreSep 3 4)]

theorem repetition_outcome_apostrophes :
    (ofCommands false apostrophes).ReadsLiterals ∧
      (∀ x ∈ (Repetition.zeroOrMoreSep 3 4).terms,
        (ofCommands false apostrophes).isUsable x = true) ∧
      ∃ id, ((ofCommands false apostrophes).repetition (.zeroOrMoreSep 3 4)).2 = .ok id ∧
        id ≠ 5 := by
  have hread : (ofCommands false apostrophes).ReadsLiterals := by decide
  have husable : ∀ x ∈ (Repetition.zeroOrMoreSep 3 4).terms,
      (ofCommands false apostrophes).isUsable x = true := by decide
  obtain ⟨hmade, hshared⟩ := repetition_outcome omitsMarks_unicode17 false apostrophes
  obtain ⟨id, hok⟩ := (hmade _ husable).2 (Or.inr hread)
  have hfirst : ((ofCommands false [.literal "a'", .literal ","]).repetition
      (.oneOrMoreSep 3 4)).2 = .ok 5 := by decide
  refine ⟨hread, husable, id, hok, fun hid => ?_⟩
  have hsame := (hshared _ [] _ _ 5 id rfl hfirst hok).mp hid.symm
  cases hsame

end Definition

end Lalr

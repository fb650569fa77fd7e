import Lalr.Proofs.Definition.Collection
import Lalr.Proofs.Definition.Consistency
import Mathlib.Data.List.Nodup

/-!
# Keys stay distinct

Symbols are looked up by their keys, which are their names when they are declared. Collecting makes
more symbols in the middle of its walk, and numbers them in a row; but the author may have declared
`unnamed0`, so numbers whose name is taken are skipped. There always is one that is free
(**`Lifting.isTaken_freeNumber`**): the terms would have to be more than they are.

So ids are places, keys of symbols are distinct and literals are where the definition has them, also
when everything is collected (**`Keyed.collect`**).
-/

namespace Lalr

/-- The key of a term of the kind. -/
def Term.keyIf (isOfKind : Term → Bool) (t : Term) : Option String :=
  if isOfKind t then some t.key else none

/-! ## Names of lifted expressions -/

namespace Lifting

/-- Different numbers make different names. -/
theorem nameFor_injective : Function.Injective nameFor := by
  intro a b h
  have hrepr : a.repr = b.repr := (String.append_right_inj "unnamed").mp h
  have hdigits : Nat.toDigits 10 a = Nat.toDigits 10 b := by
    rw [← Nat.toList_repr, ← Nat.toList_repr, hrepr]
  calc
    a = Nat.ofDigitChars 10 (Nat.toDigits 10 a) 0 := Nat.ofDigitChars_ten_toDigits.symm
    _ = Nat.ofDigitChars 10 (Nat.toDigits 10 b) 0 := by rw [hdigits]
    _ = b := Nat.ofDigitChars_ten_toDigits

/-- **The name of a lifted expression is free.** -/
theorem isTaken_freeNumber (l : Lifting) : l.isTaken l.freeNumber = false := by
  unfold freeNumber
  cases hfind : ((List.range (l.terms.length + 1)).map (l.number + ·)).find? (!l.isTaken ·) with
  | some number => simpa using List.find?_some hfind
  | none =>
    -- Otherwise the terms would have more names than there are terms.
    have hsub : (List.range (l.terms.length + 1)).map (fun i => nameFor (l.number + i)) ⊆
        l.terms.map Term.key := by
      intro name hname
      obtain ⟨i, hi, rfl⟩ := List.mem_map.mp hname
      have htaken : l.isTaken (l.number + i) = true := by
        simpa using List.find?_eq_none.mp hfind _ (List.mem_map_of_mem hi)
      obtain ⟨t, ht, hkey⟩ := List.any_eq_true.mp htaken
      rw [Bool.and_eq_true, beq_iff_eq] at hkey
      exact List.mem_map.mpr ⟨t, ht, hkey.2⟩
    have hnodup : ((List.range (l.terms.length + 1)).map fun i =>
        nameFor (l.number + i)).Nodup :=
      List.Nodup.map (fun _ _ h => Nat.add_left_cancel (nameFor_injective h)) List.nodup_range
    have hlength := (hnodup.subperm hsub).length_le
    simp only [List.length_map, List.length_range] at hlength
    exact absurd hlength (Nat.not_succ_le_self _)

end Lifting

/-! ## Keys of terms -/

/-- Ids are places, no two symbols have the same key, and the literals are those of the definition,
each at its place. -/
structure Keyed (d : Definition) (terms : List Term) : Prop where
  ids      : ∀ (i : TermId) (t : Term), terms[i]? = some t → t.id = i
  symbols  : ∃ table, IsIndex (Term.keyIf (!·.isLiteral)) table terms
  literals : IsIndex (Term.literalText d.ignoreCase) d.literals terms

namespace Keyed

variable {d : Definition} {terms : List Term}

/-- A change of a name or a rule may be made. -/
theorem modify (h : Keyed d terms) {i : TermId} {f : Term → Term}
    (hf : ∀ t, f t = { t with name := (f t).name, rule := (f t).rule }) :
    Keyed d (terms.modify i f) := by
  obtain ⟨table, hsymbols⟩ := h.symbols
  refine ⟨?_, ⟨table, hsymbols.modify fun t => by rw [hf t]; rfl⟩,
    h.literals.modify fun t => by rw [hf t]; rfl⟩
  intro j u hu
  obtain ⟨t, ht, rfl⟩ := getElem?_modify_iff.mp hu
  rw [← h.ids j t ht]
  split
  · rw [hf t]
  · rfl

/-- An expression may be lifted. -/
theorem lift {l : Lifting} (h : Keyed d l.terms) (alternatives : List (List Operand)) :
    Keyed d (l.lift alternatives).1.terms := by
  obtain ⟨table, hsymbols⟩ := h.symbols
  have hfree : table.lookup (Lifting.nameFor l.freeNumber) = none := by
    refine Option.eq_none_iff_forall_ne_some.mpr fun id hid => ?_
    obtain ⟨t, ht, hkey⟩ := (hsymbols.lookup _ id).mp hid
    have htaken : l.isTaken l.freeNumber = true := by
      refine List.any_eq_true.mpr ⟨t, List.mem_of_getElem? ht, ?_⟩
      simpa [Term.keyIf] using hkey
    rw [l.isTaken_freeNumber] at htaken
    cases htaken
  refine ⟨?_, ⟨_, hsymbols.append_new rfl hfree⟩, h.literals.append_other rfl⟩
  intro i u hu
  rcases getElem?_append_singleton_iff.mp hu with hu | ⟨rfl, rfl⟩
  · exact h.ids i u hu
  · rfl

/-- **Collecting keeps keys distinct**, and leaves literals where they are. -/
theorem collect (h : Keyed d d.terms) (root : TermId) : Keyed d (d.collect root).terms :=
  Definition.collect_of_lift (fun _ as hl => hl.lift as) (fun _ _ _ hf hterms => hterms.modify hf) h

end Keyed

namespace Definition

/-- Symbols are listed under their keys, which are their names. -/
theorem symbolKeys_ofCommands [Text.Xid] (ignoreCase : Bool) (commands : List Command) :
    IsIndex (Term.keyIf (!·.isLiteral)) (ofCommands ignoreCase commands).names
      (ofCommands ignoreCase commands).terms := by
  refine ofCommands_of_change
    (P := fun d => IsIndex (Term.keyIf (!·.isLiteral)) d.names d.terms) ?_ ?_ ?_ commands
  · exact ((IsIndex.nil.append_new rfl rfl).append_new rfl (by decide)).append_new rfl (by decide)
  · intro d d' h hd
    cases hd with
    | symbol hname _ hkind _ _ hkey _ =>
      exact h.append_new (by rw [Term.keyIf, hkind, hkey]; rfl) hname
    | literal _ _ => exact h.append_other rfl
    | repetition _ _ ht hname _ => exact h.append_new (ht ▸ rfl) hname
    | root _ => exact h
    | operator _ => exact h.modify fun _ => rfl
    | priority _ => exact h.modify fun _ => rfl
    | nickname _ => exact h.modify fun _ => rfl
  · intro d d' lhs e h hok
    obtain ⟨-, -, rfl⟩ := rule_ok hok
    exact h.modify fun _ => rfl

/-- The terms of a definition have distinct keys. -/
theorem keyed_ofCommands [Text.Xid] (ignoreCase : Bool) (commands : List Command) :
    Keyed (ofCommands ignoreCase commands) (ofCommands ignoreCase commands).terms := by
  have hregistered := registered_ofCommands ignoreCase commands
  exact ⟨hregistered.ids, ⟨_, symbolKeys_ofCommands ignoreCase commands⟩, hregistered.literals⟩

end Definition

end Lalr

import Lalr.Precedence
import Lalr.Proofs.Cfg.Tree

/-!
# Grouping by precedence

Operands with operators between them can be grouped in many ways. Precedence allows one of them, or
none: `ParseTree.Grouped` says that an operator at the head of an operand binds tighter than the
operator over it, or as tight if both associate to that side; and `Clash` says that two operators of
one level that do not associate have only tighter ones between them.

* **`Grouped.not_clash`**: what is grouped has no clash.
* A parser that reads from left to right keeps operands that wait for the right side of the operator
  behind them (`Waiting`), and the expression read last. Shifting an operator, reducing and refusing
  are decided by `shiftsOver`, and each does the right thing: the next operator may wait above the
  others (`Standing.shift`), a reduction is grouped (**`Standing.reduce`**) and may stand at the
  left of the operator ahead (`Standing.fits_reduce`), and a refusal is a clash
  (**`Standing.clash`**).
-/

namespace Lalr

namespace Precedence

/-- An operator may head the operand of another at one side, left or right: it binds tighter, or
both bind alike and group to that side. -/
def Groups (side : Assoc) (inner outer : Precedence) : Prop :=
  outer.priority < inner.priority ∨ inner.priority = outer.priority ∧ outer.assoc = side

variable {side : Assoc} {a b : Precedence}

theorem Groups.priority_le (h : Groups side a b) : b.priority ≤ a.priority := by
  rcases h with h | ⟨h, -⟩
  · exact Nat.le_of_lt h
  · exact Nat.le_of_eq h.symm

theorem Groups.priority_lt (h : Groups side a b) (hb : b.assoc ≠ side) :
    b.priority < a.priority := by
  rcases h with h | ⟨-, hside⟩
  · exact h
  · exact absurd hside hb

/-! ## The decision between shifting and reducing -/

/-- **What decides between an operator on the stack and one ahead.** -/
theorem shiftsOver_cases (a b : Precedence) :
    (shiftsOver (some a) (some b) = some true ∧
      (a.priority < b.priority ∨ a.priority = b.priority ∧ b.assoc = .right)) ∨
    (shiftsOver (some a) (some b) = some false ∧
      (b.priority < a.priority ∨ a.priority = b.priority ∧ b.assoc = .left)) ∨
    (shiftsOver (some a) (some b) = none ∧ a.priority = b.priority ∧ b.assoc = .nonassoc) := by
  unfold shiftsOver
  rcases Nat.lt_trichotomy a.priority b.priority with hlt | heq | hgt
  · simp [hlt]
  · cases hassoc : b.assoc <;> simp [heq, hassoc]
  · simp [hgt, Nat.lt_asymm hgt]

/-- An operator that waits for a reduction may have the reduced one at its left. -/
theorem groups_left_of_shiftsOver (h : shiftsOver (some a) (some b) = some false) :
    Groups .left a b := by
  rcases shiftsOver_cases a b with ⟨htrue, -⟩ | ⟨-, hgroups⟩ | ⟨hnone, -⟩
  · exact nomatch h.symm.trans htrue
  · exact hgroups
  · exact nomatch h.symm.trans hnone

/-- An operator that is shifted over another may stand at its right, if their level has one
associativity. -/
theorem groups_right_of_shiftsOver (h : shiftsOver (some a) (some b) = some true)
    (hassoc : a.priority = b.priority → a.assoc = b.assoc) : Groups .right b a := by
  rcases shiftsOver_cases a b with ⟨-, hlt | ⟨heq, hright⟩⟩ | ⟨hfalse, -⟩ | ⟨hnone, -⟩
  · exact Or.inl hlt
  · exact Or.inr ⟨heq.symm, (hassoc heq).trans hright⟩
  · exact nomatch h.symm.trans hfalse
  · exact nomatch h.symm.trans hnone

/-- Operators that may not follow each other are of one level that does not associate. -/
theorem of_shiftsOver_eq_none (h : shiftsOver (some a) (some b) = none) :
    a.priority = b.priority ∧ b.assoc = .nonassoc := by
  rcases shiftsOver_cases a b with ⟨htrue, -⟩ | ⟨hfalse, -⟩ | ⟨-, hlevel⟩
  · exact nomatch h.symm.trans htrue
  · exact nomatch h.symm.trans hfalse
  · exact hlevel

end Precedence

/-- Two operators of one level that do not associate have only tighter ones between them. -/
def Clash (operators : List Precedence) : Prop :=
  ∃ before a between b after, operators = before ++ a :: (between ++ b :: after) ∧
    a.priority = b.priority ∧ a.assoc = .nonassoc ∧ b.assoc = .nonassoc ∧
    ∀ x ∈ between, a.priority < x.priority

/-- The operators among tokens. -/
def operatorsIn (precedence : TermId → Option Precedence) (tokens : List (Token TermId)) :
    List Precedence :=
  tokens.filterMap fun t => precedence t.symbol

variable {precedence : TermId → Option Precedence}

theorem operatorsIn_append (u v : List (Token TermId)) :
    operatorsIn precedence (u ++ v) = operatorsIn precedence u ++ operatorsIn precedence v :=
  List.filterMap_append

theorem operatorsIn_cons {o : Token TermId} {a : Precedence} (h : precedence o.symbol = some a)
    (u : List (Token TermId)) :
    operatorsIn precedence (o :: u) = a :: operatorsIn precedence u :=
  List.filterMap_cons_some h

/-! ## Grouped trees -/

namespace ParseTree

/-- The operator at the head of an operation. -/
def headOperator (precedence : TermId → Option Precedence) : ParseTree → Option Precedence
  | .node _ [_, .leaf o, _] => precedence o.symbol
  | _ => none

/-- The tree may be the operand of the operator at one side, left or right. -/
def Fits (precedence : TermId → Option Precedence) (side : Assoc) (tree : ParseTree)
    (outer : Precedence) : Prop :=
  ∀ inner, tree.headOperator precedence = some inner → Precedence.Groups side inner outer

/-- **The tree is grouped by precedence**: it is an operand, or an operation with operands that are
grouped and may stand at their sides of the operator. -/
inductive Grouped (precedence : TermId → Option Precedence) : ParseTree → Prop
  | operand {i : ProductionId} {t : Token TermId} (ht : precedence t.symbol = none) :
      Grouped precedence (.node i [.leaf t])
  | operation {i : ProductionId} {l r : ParseTree} {o : Token TermId} {a : Precedence}
      (ho : precedence o.symbol = some a) (hl : Grouped precedence l) (hr : Grouped precedence r)
      (hleft : l.Fits precedence .left a) (hright : r.Fits precedence .right a) :
      Grouped precedence (.node i [l, .leaf o, r])

theorem yield_operand (i : ProductionId) (t : Token TermId) :
    yield (.node i [.leaf t]) = [t] := rfl

theorem yield_operation (i : ProductionId) (l r : ParseTree) (o : Token TermId) :
    yield (.node i [l, .leaf o, r]) = l.yield ++ o :: r.yield := by
  simp [yield, yields]

theorem postorder_operation (i : ProductionId) (l r : ParseTree) (o : Token TermId) :
    postorder (.node i [l, .leaf o, r]) = l.postorder ++ r.postorder ++ [i] := by
  simp [postorder, postorders]

namespace Grouped

variable {tree : ParseTree}

/-- **No operator of a grouped tree is looser than the one at its head.** -/
theorem exists_head (h : tree.Grouped precedence) {x : Precedence}
    (hx : x ∈ operatorsIn precedence tree.yield) :
    ∃ a, tree.headOperator precedence = some a ∧ a.priority ≤ x.priority := by
  induction h with
  | operand ht => simp [yield_operand, operatorsIn, ht] at hx
  | operation ho _ _ hleft hright ihl ihr =>
    rename_i i l r o a _ _
    refine ⟨a, ho, ?_⟩
    rw [yield_operation, operatorsIn_append, operatorsIn_cons ho] at hx
    rcases List.mem_append.mp hx with hx | hx
    · obtain ⟨b, hb, hle⟩ := ihl hx
      exact Nat.le_trans (hleft b hb).priority_le hle
    · rcases List.mem_cons.mp hx with rfl | hx
      · exact Nat.le_refl _
      · obtain ⟨b, hb, hle⟩ := ihr hx
        exact Nat.le_trans (hright b hb).priority_le hle

theorem le_of_fits (h : tree.Grouped precedence) {side : Assoc} {a x : Precedence}
    (hfits : tree.Fits precedence side a) (hx : x ∈ operatorsIn precedence tree.yield) :
    a.priority ≤ x.priority := by
  obtain ⟨b, hb, hle⟩ := h.exists_head hx
  exact Nat.le_trans (hfits b hb).priority_le hle

theorem lt_of_fits (h : tree.Grouped precedence) {side : Assoc} {a x : Precedence}
    (hfits : tree.Fits precedence side a) (ha : a.assoc ≠ side)
    (hx : x ∈ operatorsIn precedence tree.yield) : a.priority < x.priority := by
  obtain ⟨b, hb, hle⟩ := h.exists_head hx
  exact Nat.lt_of_lt_of_le ((hfits b hb).priority_lt ha) hle

/-- **What is grouped has no clash.** -/
theorem not_clash (h : tree.Grouped precedence) : ¬ Clash (operatorsIn precedence tree.yield) := by
  induction h with
  | operand ht =>
    rintro ⟨before, a, between, b, after, heq, -⟩
    simp [yield_operand, operatorsIn, ht] at heq
  | operation ho hl hr hleft hright ihl ihr =>
    rename_i i l r o a
    rw [yield_operation, operatorsIn_append, operatorsIn_cons ho]
    rintro ⟨before, x, between, y, after, heq, hpriority, hx, hy, hbetween⟩
    -- Where do the two operators stand? Both on one side is a clash of an operand.
    have head : x = a → y ∈ operatorsIn precedence r.yield → False := by
      rintro rfl hmem
      exact absurd hpriority (Nat.ne_of_lt (hr.lt_of_fits hright (by simp [hx]) hmem))
    have last : y = a → x ∈ operatorsIn precedence l.yield → False := by
      rintro rfl hmem
      exact absurd hpriority (Nat.ne_of_gt (hl.lt_of_fits hleft (by simp [hy]) hmem))
    rcases List.append_eq_append_iff.mp heq with ⟨rest, -, hrest⟩ | ⟨rest, hl', hrest⟩
    · rcases List.cons_eq_append_iff.mp hrest with ⟨-, hcons⟩ | ⟨rest', -, hr'⟩
      · obtain ⟨rfl, hr'⟩ := List.cons.inj hcons
        exact head rfl (by simp [← hr'])
      · exact ihr ⟨rest', x, between, y, after, hr', hpriority, hx, hy, hbetween⟩
    · rcases List.cons_eq_append_iff.mp hrest with ⟨-, hcons⟩ | ⟨inner, rfl, hinner⟩
      · obtain ⟨rfl, hr'⟩ := List.cons.inj hcons
        exact head rfl (by simp [hr'])
      · have hmem : x ∈ operatorsIn precedence l.yield := by simp [hl']
        rcases List.append_eq_append_iff.mp hinner with ⟨more, rfl, hmore⟩ | ⟨more, rfl, hmore⟩
        · rcases List.cons_eq_append_iff.mp hmore with ⟨-, hcons⟩ | ⟨more', rfl, -⟩
          · exact last (List.cons.inj hcons).1.symm hmem
          · exact ihl ⟨before, x, between, y, more', hl', hpriority, hx, hy, hbetween⟩
        · rcases List.cons_eq_append_iff.mp hmore with ⟨-, hcons⟩ | ⟨more', rfl, -⟩
          · exact last (List.cons.inj hcons).1 hmem
          · have hlt := hbetween a (by simp)
            exact absurd (hl.le_of_fits hleft hmem) (Nat.not_le.mpr hlt)

end Grouped

end ParseTree

/-! ## Operands that wait -/

open ParseTree

/-- Left operands with the operator behind each, the last first. -/
abbrev Pending := List (ParseTree × Token TermId)

/-- The tokens of what waits. -/
def Pending.yield : Pending → List (Token TermId)
  | [] => []
  | (l, o) :: pending => Pending.yield pending ++ l.yield ++ [o]

/-- The productions of what waits. -/
def Pending.postorder : Pending → List ProductionId
  | [] => []
  | (l, _) :: pending => Pending.postorder pending ++ l.postorder

theorem Pending.yield_cons_append (l : ParseTree) (o : Token TermId) (pending : Pending)
    (rest : List (Token TermId)) :
    Pending.yield ((l, o) :: pending) ++ rest = Pending.yield pending ++ l.yield ++ o :: rest := by
  simp [Pending.yield]

/-- **Operands wait in order**: each may stand at the left of its operator, and each operator at the
right of the one before. `outer` is the last of the operators. -/
inductive Waiting (precedence : TermId → Option Precedence) : Pending → Option Precedence → Prop
  | nil : Waiting precedence [] none
  | cons {pending : Pending} {outer : Option Precedence} {l : ParseTree} {o : Token TermId}
      {a : Precedence} (h : Waiting precedence pending outer) (hl : l.Grouped precedence)
      (ho : precedence o.symbol = some a) (hleft : l.Fits precedence .left a)
      (hright : ∀ b, outer = some b → Precedence.Groups .right a b) :
      Waiting precedence ((l, o) :: pending) (some a)

theorem Waiting.last {pending : Pending} {outer : Option Precedence} {l : ParseTree}
    {o : Token TermId} (h : Waiting precedence ((l, o) :: pending) outer) :
    ∃ a, outer = some a ∧ precedence o.symbol = some a := by
  cases h with
  | cons _ _ ho _ _ => exact ⟨_, rfl, ho⟩

/-- An expression has been read behind operands that wait, and may be the right operand of the last
of them. -/
structure Standing (precedence : TermId → Option Precedence) (pending : Pending)
    (tree : ParseTree) (outer : Option Precedence) : Prop where
  waiting : Waiting precedence pending outer
  grouped : tree.Grouped precedence
  right   : ∀ a, outer = some a → tree.Fits precedence .right a

namespace Standing

variable {pending : Pending} {tree l : ParseTree} {outer : Option Precedence} {o : Token TermId}
  {a b : Precedence}

/-- An operand has no operator, so it may stand anywhere. -/
theorem operand (h : Waiting precedence pending outer) {t : Token TermId}
    (ht : precedence t.symbol = none) (i : ProductionId) :
    Standing precedence pending (.node i [.leaf t]) outer where
  waiting := h
  grouped := .operand ht
  right _ _ _ hhead := nomatch hhead

/-- **An operator that is shifted may wait above the others.** -/
theorem shift (h : Standing precedence pending tree outer) (hleft : tree.Fits precedence .left b)
    (ho : precedence o.symbol = some b)
    (hassoc : ∀ a, outer = some a → a.priority = b.priority → a.assoc = b.assoc)
    (hshift : shiftsOver outer (some b) = some true) :
    Waiting precedence ((tree, o) :: pending) (some b) := by
  refine .cons h.waiting h.grouped ho hleft ?_
  rintro a rfl
  exact Precedence.groups_right_of_shiftsOver hshift (hassoc a rfl)

/-- **A reduction is grouped**, and stands where its operands stood. -/
theorem reduce (h : Standing precedence ((l, o) :: pending) tree outer) (i : ProductionId) :
    ∃ outer', Standing precedence pending (.node i [l, .leaf o, tree]) outer' := by
  cases h.waiting with
  | cons hwaiting hl ho hleft hright =>
    rename_i outer' a
    refine ⟨outer', hwaiting, .operation ho hl h.grouped hleft (h.right a rfl), ?_⟩
    intro b hb inner hinner
    obtain rfl := Option.some.inj (ho.symm.trans hinner)
    exact hright b hb

/-- The operator ahead waits for a reduction only if that may stand at its left. -/
theorem fits_reduce (ho : precedence o.symbol = some a)
    (hreduce : shiftsOver (some a) (some b) = some false) (i : ProductionId) :
    Fits precedence .left (.node i [l, .leaf o, tree]) b := by
  intro inner hinner
  obtain rfl := Option.some.inj (ho.symm.trans hinner)
  exact Precedence.groups_left_of_shiftsOver hreduce

/-- **A refusal is a clash**: between the last operator that waits and the one ahead there are only
tighter ones. -/
theorem clash (h : Standing precedence ((l, o) :: pending) tree (some a))
    (hnone : shiftsOver (some a) (some b) = none)
    (hassoc : a.priority = b.priority → a.assoc = b.assoc) (before after : List Precedence) :
    Clash (before ++ a :: (operatorsIn precedence tree.yield ++ b :: after)) := by
  obtain ⟨hpriority, hb⟩ := Precedence.of_shiftsOver_eq_none hnone
  have ha : a.assoc = .nonassoc := (hassoc hpriority).trans hb
  refine ⟨before, a, _, b, after, rfl, hpriority, ha, hb, fun x hx => ?_⟩
  exact h.grouped.lt_of_fits (h.right a rfl) (by simp [ha]) hx

end Standing

end Lalr

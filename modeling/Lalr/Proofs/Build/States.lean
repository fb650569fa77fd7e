import Lalr.Build.States
import Lalr.Proofs.Automaton.Report
import Lalr.Proofs.Build.Basic

/-!
# Making states misses nothing

States are made in place: those in front are finished, one is being visited and those behind have
their kernels only (`Cfg.progress`). A visit finishes the next one and adds the kernels it moves to
(`visitState_eq`), which are the kernels that discovery adds, so in the end there are exactly the
states of the automaton (**`states_eq`**).

An item that a move shifts is looked for in the state moved to. Whether this state is finished, in
the making or new, its items include its kernel, and the shifted item is in the kernel
(`findShifted_eq`). So the build never gives up for a missing item.
-/

namespace Lalr

open Build

/-! ## Discovery -/

section Discovery

variable {α : Type} [DecidableEq α]

theorem discoverFromM_eq {f : α → Stage (List α)} {succ : α → List α} {P : α → Prop}
    (hf : ∀ x, P x → f x = .ok (succ x) ∧ ∀ y ∈ succ x, P y) (fuel cursor : Nat) {found : List α}
    (hfound : ∀ x ∈ found, P x) :
    discoverFromM f fuel cursor found = .ok (discoverFrom succ fuel cursor found) := by
  induction fuel generalizing cursor found with
  | zero => rfl
  | succ fuel ih =>
    unfold discoverFromM discoverFrom
    cases hx : found[cursor]? with
    | none => rfl
    | some x =>
      obtain ⟨hsucc, hnew⟩ := hf x (hfound x (List.mem_of_getElem? hx))
      show (f x >>= _) = _
      rw [hsucc, ok_bind]
      refine ih (cursor + 1) fun y hy => ?_
      exact (mem_appendNew.mp hy).elim (hfound y) (hnew y)

/-- What is found keeps its place when more is found. -/
theorem getElem?_appendNew {front : List α} {i : Nat} {x : α} (h : front[i]? = some x)
    (new : List α) : (appendNew front new)[i]? = some x := by
  obtain ⟨rest, hrest⟩ := exists_appendNew_eq front new
  rw [hrest, List.getElem?_append_left (List.getElem?_eq_some_iff.mp h).1, h]

/-- A value has the place that it will have in the end, found or to be found next. -/
theorem idxOf_eq_of_extends [BEq α] [LawfulBEq α] {front all : List α} {x : α}
    (h : appendNew front [x] <+: all) : front.idxOf x = all.idxOf x := by
  obtain ⟨rest, rfl⟩ := h
  rw [appendNew_cons, appendNew_nil]
  split
  · rename_i hx
    rw [List.idxOf_append_of_mem hx]
  · rename_i hx
    rw [List.append_assoc, List.idxOf_append_of_notMem hx, List.singleton_append,
      List.idxOf_cons_self, List.idxOf_eq_length hx]
    rfl

end Discovery

namespace Workspace

variable {w : Workspace} {root : TermId}

/-! ## Closures and moves -/

theorem Agrees.expand_eq (h : w.Agrees root) {item : Item} (hitem : item ∈ w.cfg.items) :
    w.expand item = .ok (w.cfg.expand item) := by
  rw [expand, next_eq hitem, ok_bind, Cfg.expand]
  cases hx : w.cfg.next item with
  | none => rfl
  | some x =>
    obtain ⟨p, hp, hget⟩ := Cfg.next_eq_some_iff.mp hx
    have hmem := h.augmented.rhs_mem p (List.mem_of_getElem? hp) x (List.mem_of_getElem? hget)
    show (isTerminalAt w.terms x >>= _) = _
    rw [h.kinds x hmem, ok_bind]
    by_cases hterminal : x ∈ w.cfg.terminals
    · -- A terminal is no left-hand side.
      have hnone : w.cfg.startItems x = [] := by
        refine List.eq_nil_iff_forall_not_mem.mpr fun item hitem => ?_
        obtain ⟨i, hi, -⟩ := List.mem_map.mp hitem
        obtain ⟨p, hp, rfl⟩ := Cfg.mem_productionsOf.mp hi
        exact h.augmented.not_both _ hterminal (h.augmented.lhs_mem p (List.mem_of_getElem? hp))
      rw [if_pos (decide_eq_true hterminal)]
      exact congrArg Except.ok hnone.symm
    · rw [if_neg (by simp [hterminal]), startItems_eq (h.lt_length hmem)]

theorem Agrees.closure_eq (h : w.Agrees root) {kernel : List Item}
    (hkernel : ∀ item ∈ kernel, item ∈ w.cfg.items) :
    w.closure kernel = .ok (w.cfg.closure kernel) := by
  refine discoverFromM_eq (P := (· ∈ w.cfg.items)) (fun item hitem => ⟨h.expand_eq hitem, ?_⟩) _ 0
    hkernel
  intro start hstart
  obtain ⟨-, p, -, hp, -, hposition⟩ := Cfg.mem_expand.mp hstart
  exact Cfg.mem_items_iff.mpr ⟨p, hp, by omega⟩

theorem step_eq {item : Item} (hitem : item ∈ w.cfg.items) :
    w.step item = .ok ((w.cfg.next item).map fun x => (x, item.advance)) := by
  rw [step, next_eq hitem, ok_bind]
  cases hx : w.cfg.next item with
  | none => rfl
  | some x =>
    show (w.itemAt item.production (item.position + 1) >>= _) = _
    rw [itemAt_advance hx]
    rfl

/-- The items that a symbol moves to, before they are put in order. -/
def shifted (g : Cfg) (items : List Item) (x : TermId) : List Item :=
  (items.filter fun item => g.next item == some x).map Item.advance

theorem valuesAt_steps (g : Cfg) (items : List Item) (x : TermId) :
    valuesAt (items.filterMap fun item => (g.next item).map fun x => (x, item.advance)) x =
      shifted g items x := by
  induction items with
  | nil => rfl
  | cons item items ih =>
    cases hnext : g.next item with
    | none =>
      rw [List.filterMap_cons_none (by rw [hnext]; rfl), ih, shifted, shifted,
        List.filter_cons_of_neg (by simp [hnext])]
    | some y =>
      rw [List.filterMap_cons_some (by rw [hnext]; rfl), valuesAt_cons, ih, shifted, shifted,
        List.filter_cons, hnext]
      by_cases hxy : x = y
      · simp [hxy]
      · have hne : ¬ (some y == some x) = true := by simpa using Ne.symm hxy
        rw [if_neg hxy, if_neg hne]

theorem steps_eq {items : List Item} (hitems : ∀ item ∈ items, item ∈ w.cfg.items) :
    w.steps items =
      .ok ((w.cfg.movable items).map fun x => (x, shifted w.cfg items x)) := by
  have hkeys : (items.filterMap fun item => (w.cfg.next item).map fun x => (x, item.advance)).map
      Prod.fst = items.filterMap w.cfg.next := by
    rw [List.map_filterMap]
    refine List.filterMap_congr fun item _ => ?_
    cases w.cfg.next item <;> rfl
  rw [steps, collectSome_eq fun item hitem => step_eq (hitems item hitem), ok_bind, groupByKey_eq,
    hkeys]
  simp only [valuesAt_steps]
  rfl

end Workspace

/-! ## States in the making -/

namespace Cfg

variable {g : Cfg} {all kernels : List (List Item)} {q : StateId}
  {current next : List Item → State} {kernel : List Item}

/-- The states of the kernels while the one with the number `q` is visited: those in front of it are
finished, and those behind are new. Moves are numbered by `all` kernels there will be. -/
def progress (g : Cfg) (all : List (List Item)) (q : StateId) (current : List Item → State)
    (kernels : List (List Item)) : List State :=
  kernels.zipIdx.map fun (kernel, i) =>
    if i < q then g.stateOf all kernel else if i = q then current kernel else State.new kernel

/-- The state of a kernel that is closed and has some of its moves. -/
def moving (g : Cfg) (all : List (List Item)) (xs : List TermId) (kernel : List Item) : State where
  kernel := kernel
  items := g.closure kernel
  moves := xs.map fun x => (x, all.idxOf (g.moved (g.closure kernel) x))

theorem getElem?_progress (i : StateId) : (g.progress all q current kernels)[i]? =
    kernels[i]?.map fun kernel =>
      if i < q then g.stateOf all kernel
      else if i = q then current kernel
      else State.new kernel := by
  simp [progress, List.getElem?_map, List.getElem?_zipIdx, Function.comp_def]

theorem length_progress : (g.progress all q current kernels).length = kernels.length := by
  rw [progress, List.length_map, List.length_zipIdx]

/-- A change of the state that is visited. -/
theorem modify_progress {f : State → State} (hkernel : kernels[q]? = some kernel)
    (hf : f (current kernel) = next kernel) :
    (g.progress all q current kernels).modify q f = g.progress all q next kernels := by
  refine List.ext_getElem? fun i => ?_
  rw [List.getElem?_modify, getElem?_progress, getElem?_progress]
  by_cases hi : q = i
  · subst hi
    simp [hkernel, hf]
  · simp [hi, Ne.symm hi]

/-- The state that is visited is finished when it is what it should be. -/
theorem progress_succ (hkernel : kernels[q]? = some kernel)
    (hcurrent : current kernel = g.stateOf all kernel) :
    g.progress all q current kernels = g.progress all (q + 1) State.new kernels := by
  refine List.ext_getElem? fun i => ?_
  rw [getElem?_progress, getElem?_progress]
  rcases Nat.lt_trichotomy i q with hlt | rfl | hgt
  · simp [hlt, Nat.lt_succ_of_lt hlt]
  · simp [hkernel, hcurrent]
  · have hnot : ¬ i < q := by omega
    have hne : i ≠ q := by omega
    have hnot' : ¬ i < q + 1 := by omega
    simp [hnot, hne, hnot']

/-- A state is made for a new kernel. -/
theorem progress_appendNew (hq : q < kernels.length) (kernel : List Item) :
    (if kernels.idxOf kernel < (g.progress all q current kernels).length then
      g.progress all q current kernels
    else g.progress all q current kernels ++ [State.new kernel]) =
      g.progress all q current (appendNew kernels [kernel]) := by
  rw [length_progress, appendNew_cons, appendNew_nil]
  by_cases hkernel : kernel ∈ kernels
  · rw [if_pos (List.idxOf_lt_length_of_mem hkernel), if_pos hkernel]
  · have hnot : ¬ kernels.length < q := Nat.not_lt_of_gt hq
    have hne : kernels.length ≠ q := Nat.ne_of_gt hq
    rw [List.idxOf_eq_length hkernel, if_neg (Nat.lt_irrefl _), if_neg hkernel]
    simp [progress, List.zipIdx_append, hnot, hne]

theorem map_kernel_progress (hcurrent : ∀ kernel, (current kernel).kernel = kernel) :
    (g.progress all q current kernels).map State.kernel = kernels := by
  refine List.ext_getElem? fun i => ?_
  rw [List.getElem?_map, getElem?_progress]
  cases kernels[i]? with
  | none => rfl
  | some kernel =>
    refine congrArg some ?_
    split
    · rfl
    · split
      · exact hcurrent kernel
      · rfl

/-- Every state has the items of its kernel, whether it is finished or not. -/
theorem mem_items_of_progress (hcurrent : ∀ kernel, ∀ item ∈ kernel, item ∈ (current kernel).items)
    {i : StateId} (hkernel : kernels[i]? = some kernel) {item : Item} (hitem : item ∈ kernel) :
    ∃ s, (g.progress all q current kernels)[i]? = some s ∧ item ∈ s.items := by
  rw [getElem?_progress, hkernel, Option.map_some]
  refine ⟨_, rfl, ?_⟩
  split
  · exact kernel_subset_closure hitem
  · split
    · exact hcurrent kernel item hitem
    · exact hitem

/-- When no state is left to visit, all are finished. -/
theorem progress_of_length_le (h : kernels.length ≤ q) :
    g.progress all q current kernels = kernels.map (g.stateOf all) := by
  refine List.ext_getElem? fun i => ?_
  rw [getElem?_progress, List.getElem?_map]
  cases hkernel : kernels[i]? with
  | none => rfl
  | some kernel =>
    have hlt := (List.getElem?_eq_some_iff.mp hkernel).1
    rw [Option.map_some, Option.map_some, if_pos (Nat.lt_of_lt_of_le hlt h)]

end Cfg

/-! ## Visits -/

namespace Workspace

variable {w : Workspace} {root : TermId} {all kernels : List (List Item)} {q : StateId}
  {kernel : List Item}

/-- **The items that a move shifts are found.** -/
theorem findShifted_eq {current : List Item → State}
    (hcurrent : ∀ kernel, ∀ item ∈ kernel, item ∈ (current kernel).items) {target : StateId}
    (hkernel : kernels[target]? = some kernel) {item : Item} (hitem : item ∈ kernel) :
    w.findShifted (w.cfg.progress all q current kernels) target item = .ok () := by
  obtain ⟨s, hs, hmem⟩ := Cfg.mem_items_of_progress hcurrent hkernel hitem
  rw [findShifted, stateAt, hs, found_some, ok_bind, if_pos hmem]
  rfl

/-- A move is entered, and its kernel is appended if it is new. -/
theorem enterMove_eq (hkernel : kernels[q]? = some kernel) {xs : List TermId} {x : TermId}
    (hall : appendNew kernels [w.cfg.moved (w.cfg.closure kernel) x] <+: all) :
    w.enterMove q (w.cfg.progress all q (w.cfg.moving all xs) kernels)
        (x, shifted w.cfg (w.cfg.closure kernel) x) =
      .ok (w.cfg.progress all q (w.cfg.moving all (xs ++ [x]))
        (appendNew kernels [w.cfg.moved (w.cfg.closure kernel) x])) := by
  have hq := (List.getElem?_eq_some_iff.mp hkernel).1
  have hmoved : sortDistinct (shifted w.cfg (w.cfg.closure kernel) x) =
      w.cfg.moved (w.cfg.closure kernel) x := rfl
  have hkernel' := getElem?_appendNew hkernel [w.cfg.moved (w.cfg.closure kernel) x]
  have hq' := (List.getElem?_eq_some_iff.mp hkernel').1
  have htarget : (appendNew kernels [w.cfg.moved (w.cfg.closure kernel) x])[
      all.idxOf (w.cfg.moved (w.cfg.closure kernel) x)]? =
        some (w.cfg.moved (w.cfg.closure kernel) x) := by
    obtain ⟨rest, rfl⟩ := hall
    have hmem : w.cfg.moved (w.cfg.closure kernel) x ∈
      appendNew kernels [w.cfg.moved (w.cfg.closure kernel) x] := by simp
    rw [List.idxOf_append_of_mem hmem, List.getElem?_idxOf hmem]
  have hentered : ∀ s : State, s = w.cfg.moving all xs kernel →
      { s with moves := s.moves ++ [(x, all.idxOf (w.cfg.moved (w.cfg.closure kernel) x))] } =
        w.cfg.moving all (xs ++ [x]) kernel := by
    rintro _ rfl
    simp [Cfg.moving]
  have hfound : (shifted w.cfg (w.cfg.closure kernel) x).forM (w.findShifted
      (w.cfg.progress all q (w.cfg.moving all (xs ++ [x]))
        (appendNew kernels [w.cfg.moved (w.cfg.closure kernel) x]))
      (all.idxOf (w.cfg.moved (w.cfg.closure kernel) x))) = .ok () :=
    forM_eq fun item hitem => findShifted_eq (fun _ _ => Cfg.kernel_subset_closure) htarget
      ((mem_sortDistinct Item.trichotomous).mpr hitem)
  unfold enterMove
  dsimp only
  rw [hmoved, Cfg.map_kernel_progress fun _ => rfl, Cfg.progress_appendNew hq,
    idxOf_eq_of_extends hall, change_eq (Cfg.length_progress ▸ hq'), ok_bind,
    Cfg.modify_progress hkernel' (hentered _ rfl), hfound, ok_bind, pure_eq_ok]

theorem foldlM_enterMove_eq (hkernel : kernels[q]? = some kernel) (xs ys : List TermId)
    (hall : appendNew kernels (ys.map (w.cfg.moved (w.cfg.closure kernel))) <+: all) :
    (ys.map fun x => (x, shifted w.cfg (w.cfg.closure kernel) x)).foldlM (w.enterMove q)
        (w.cfg.progress all q (w.cfg.moving all xs) kernels) =
      .ok (w.cfg.progress all q (w.cfg.moving all (xs ++ ys))
        (appendNew kernels (ys.map (w.cfg.moved (w.cfg.closure kernel))))) := by
  induction ys generalizing kernels xs with
  | nil => simp
  | cons y ys ih =>
    have hcons : appendNew kernels ((y :: ys).map (w.cfg.moved (w.cfg.closure kernel))) =
        appendNew (appendNew kernels [w.cfg.moved (w.cfg.closure kernel) y])
          (ys.map (w.cfg.moved (w.cfg.closure kernel))) := rfl
    obtain ⟨later, hlater⟩ := exists_appendNew_eq
      (appendNew kernels [w.cfg.moved (w.cfg.closure kernel) y])
      (ys.map (w.cfg.moved (w.cfg.closure kernel)))
    have hfirst : appendNew kernels [w.cfg.moved (w.cfg.closure kernel) y] <+: all :=
      List.IsPrefix.trans ⟨later, hlater.symm⟩ (hcons ▸ hall)
    rw [List.map_cons, List.foldlM_cons, enterMove_eq hkernel hfirst, ok_bind,
      ih (getElem?_appendNew hkernel _) (xs ++ [y]) (hcons ▸ hall), hcons, List.append_assoc,
      List.singleton_append]

/-- **One visit** finishes a state and appends the kernels it moves to. -/
theorem Agrees.visitState_eq (h : w.Agrees root) (hkernel : kernels[q]? = some kernel)
    (hitems : w.cfg.IsKernelOf kernel)
    (hall : appendNew kernels (w.cfg.movedKernels kernel) <+: all) :
    w.visitState (w.cfg.progress all q State.new kernels) q =
      .ok (w.cfg.progress all (q + 1) State.new
        (appendNew kernels (w.cfg.movedKernels kernel))) := by
  have hq := (List.getElem?_eq_some_iff.mp hkernel).1
  have hstate : (w.cfg.progress all q State.new kernels)[q]? = some (State.new kernel) := by
    simp [Cfg.getElem?_progress, hkernel]
  have hclosed : ∀ item ∈ w.cfg.closure kernel, item ∈ w.cfg.items := fun item =>
    Cfg.closure_subset_items (Cfg.nodup_of_pairwise_lt hitems.1) hitems.2
  have hclosure : w.closure (State.new kernel).items = .ok (w.cfg.closure kernel) :=
    h.closure_eq hitems.2
  have hopened : (w.cfg.progress all q State.new kernels).modify q
      (fun s => { s with items := w.cfg.closure kernel }) =
        w.cfg.progress all q (w.cfg.moving all []) kernels :=
    Cfg.modify_progress hkernel rfl
  rw [visitState, stateAt, hstate, found_some, ok_bind, hclosure, ok_bind,
    change_eq (Cfg.length_progress ▸ hq), ok_bind, hopened, steps_eq hclosed, ok_bind,
    foldlM_enterMove_eq hkernel [] _ hall, List.nil_append]
  exact congrArg Except.ok (Cfg.progress_succ (getElem?_appendNew hkernel _) rfl)

/-- Visits from the one with the number `q` on finish all states, as discovery finds kernels. -/
theorem Agrees.visitStates_eq (h : w.Agrees root)
    (hdiscovers : Discovers w.cfg.movedKernels q kernels all)
    (hkernels : ∀ kernel ∈ kernels, w.cfg.IsKernelOf kernel) (fuel : Nat)
    (hfuel : all.length ≤ q + fuel) :
    w.visitStates fuel q (w.cfg.progress all q State.new kernels) =
      .ok (all.map (w.cfg.stateOf all)) := by
  induction hdiscovers generalizing fuel with
  | done hend =>
    have hlength := List.getElem?_eq_none_iff.mp hend
    rw [Cfg.progress_of_length_le hlength]
    cases fuel with
    | zero => rfl
    | succ fuel =>
      rw [visitStates, if_neg (by rw [List.length_map]; exact Nat.not_lt.mpr hlength)]
      rfl
  | @visit q kernels all kernel hkernel hrest ih =>
    have hq := (List.getElem?_eq_some_iff.mp hkernel).1
    obtain ⟨later, hlater⟩ := hrest.exists_eq
    obtain ⟨new, hnew⟩ := exists_appendNew_eq kernels (w.cfg.movedKernels kernel)
    have hlength : kernels.length ≤ all.length := by
      rw [hlater, hnew, List.append_assoc, List.length_append]
      exact Nat.le_add_right _ _
    have hvisit := h.visitState_eq hkernel (hkernels kernel (List.mem_of_getElem? hkernel))
      ⟨later, hlater.symm⟩
    have hnext : ∀ k ∈ appendNew kernels (w.cfg.movedKernels kernel), w.cfg.IsKernelOf k := by
      intro k hk
      rcases mem_appendNew.mp hk with hk | hk
      · exact hkernels k hk
      · obtain ⟨x, -, rfl⟩ := Cfg.mem_movedKernels.mp hk
        exact Cfg.isKernelOf_moved _ x
    -- There is fuel for every state that is found.
    obtain ⟨fuel, rfl⟩ : ∃ rest, fuel = rest + 1 := by
      refine Nat.exists_eq_add_one_of_ne_zero ?_
      rintro rfl
      exact absurd (Nat.lt_of_lt_of_le hq (Nat.le_trans hlength hfuel)) (Nat.lt_irrefl _)
    rw [visitStates, if_pos (Cfg.length_progress ▸ hq), hvisit, ok_bind]
    exact ih hnext fuel (by omega)

/-- **Making states misses nothing**, and no item is missing from a state. -/
theorem Agrees.states_eq (h : w.Agrees root) : w.states = .ok w.cfg.states := by
  have hstart : w.itemAt ProductionId.root 0 = .ok ⟨ProductionId.root, 0⟩ :=
    itemAt_eq (h.augmented.root_item_mem (Nat.zero_le 1))
  have haccept : w.itemAt ProductionId.root 1 = .ok ⟨ProductionId.root, 1⟩ :=
    itemAt_eq (h.augmented.root_item_mem (Nat.le_refl 1))
  have hlength : w.cfg.kernels.length ≤ Nat.pow 2 w.cfg.itemCount := by
    rw [← w.cfg.length_items]
    refine Nat.le_trans (w.cfg.nodup_kernels.subperm fun k hk => ?_).length_le
      (Nat.le_of_eq (List.length_sublists w.cfg.items))
    exact Cfg.mem_sublists_items.mpr (h.augmented.isKernelOf_of_mem_kernels hk)
  have hvisits := h.visitStates_eq h.augmented.discovers_kernels
    (fun _ => h.augmented.isKernelOf_start) (Nat.pow 2 w.cfg.itemCount) (by omega)
  rw [states, hstart, ok_bind, haccept, ok_bind]
  exact hvisits

end Workspace

end Lalr

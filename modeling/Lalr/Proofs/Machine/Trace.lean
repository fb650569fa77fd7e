import Lalr.Machine.Trace
import Lalr.Proofs.Machine.Session
import Mathlib.Data.List.Forall2

/-!
# What a trace shows

Runs are spoken of as calls of the machine (`Machine.calls`), while a user watches a session
(`trace`). Whatever the table and the source are, both come to the same:

* **`trace_shows`**: a trace shows the calls of the machine, an observation for each, up to the
  accept or error after the extra ones. It makes no difference to the outcomes whether the
  arguments are taken away.
* **`Machine.Ends.trace_eq`**: of a run that ends, a trace shows just the reductions and the end.
-/

namespace Lalr

variable {State Symbol Rule : Type}

/-- What an observed call has come to. -/
def Observation.outcome? : Observation Symbol Rule → Option (Except ParseError (Event Rule))
  | .event e _ => some (.ok e)
  | .error cause _ => some (.error cause)
  | .limit => none

namespace Call

/-- Anything but a reduction stops a run. -/
def stops (call : Call Symbol Rule) : Bool :=
  match call.event with
  | .ok (.reduce _) => false
  | _ => true

/-- The calls up to the stop after `extra` others, or all of them. -/
def upTo : Nat → List (Call Symbol Rule) → List (Call Symbol Rule)
  | _, [] => []
  | extra, call :: calls =>
    if call.stops then
      match extra with
      | 0 => [call]
      | extra + 1 => call :: upTo extra calls
    else call :: upTo extra calls

/-- The observation shows the call. Of an event it shows the arguments; what an error shows is a
matter of the buffer. -/
inductive Shown : Call Symbol Rule → Observation Symbol Rule → Prop
  | event (shifted : List (Token Symbol)) (event : Event Rule) (args : List (Entry Symbol)) :
      Shown ⟨shifted, .ok (event, args)⟩ (.event event (args.map some))
  | error (shifted : List (Token Symbol)) (cause : ParseError) (buffer : List (Slot Symbol)) :
      Shown ⟨shifted, .error cause⟩ (.error cause buffer)

variable {call : Call Symbol Rule} {calls : List (Call Symbol Rule)} {extra : Nat}

theorem upTo_cons_of_not_stops (h : call.stops = false) :
    upTo extra (call :: calls) = call :: upTo extra calls := by
  simp [upTo, h]

theorem upTo_zero_cons (h : call.stops = true) : upTo 0 (call :: calls) = [call] := by
  simp [upTo, h]

theorem upTo_succ_cons (h : call.stops = true) :
    upTo (extra + 1) (call :: calls) = call :: upTo extra calls := by
  simp [upTo, h]

theorem Shown.outcome?_eq {seen : Observation Symbol Rule} (h : call.Shown seen) :
    seen.outcome? = some call.event := by
  cases h <;> rfl

theorem outcomes_of_shown {seen : List (Observation Symbol Rule)}
    (h : List.Forall₂ Shown calls seen) :
    seen.filterMap Observation.outcome? = calls.map event := by
  induction h with
  | nil => rfl
  | cons hcall _ ih => rw [List.filterMap_cons_some hcall.outcome?_eq, ih, List.map_cons]

/-- Up to the first stop there are the reductions before it. -/
theorem map_upTo_zero {rules : List Rule} {last : Except ParseError (Event Rule)}
    {rest : List (Except ParseError (Event Rule))} (hlast : ∀ rule, last ≠ .ok (.reduce rule))
    (h : calls.map event = rules.map (fun rule => .ok (.reduce rule)) ++ last :: rest) :
    (upTo 0 calls).map event = rules.map (fun rule => .ok (.reduce rule)) ++ [last] := by
  induction rules generalizing calls with
  | nil =>
    obtain ⟨call, calls, rfl, hcall, -⟩ := List.map_eq_cons_iff.mp h
    have hstops : call.stops = true := by
      rw [stops, hcall]
      split
      · exact absurd rfl (hlast _)
      · rfl
    rw [upTo_zero_cons hstops, List.map_singleton, hcall]
    rfl
  | cons rule rules ih =>
    obtain ⟨call, calls, rfl, hcall, hcalls⟩ := List.map_eq_cons_iff.mp h
    have hstops : call.stops = false := by rw [stops, hcall]
    rw [upTo_cons_of_not_stops hstops, List.map_cons, hcall, ih hcalls]
    rfl

end Call

namespace Session

variable {table : Table State Symbol Rule} {s : Session State Symbol}

theorem machine_ofMachine (m : Machine State Symbol) (source : Source Symbol)
    (args : List (Slot Symbol)) : (ofMachine m source args).machine = m := by
  rw [machine, entries_ofMachine]
  rfl

/-- **A call leaves the machine and the source as a call of the machine does.** -/
theorem Balanced.machine_next (hb : s.Balanced) (table : Table State Symbol Rule) :
    ((s.next table).2.machine, (s.next table).2.source) =
      (s.machine.nextEvent table s.source).2 := by
  rw [hb.next_eq table]
  match s.machine.nextEvent table s.source with
  | (.ok (event, args), m, source) => exact Prod.ext (machine_ofMachine m source _) rfl
  | (.error cause, m, source) => exact Prod.ext (machine_ofMachine m source _) rfl

/-- What is seen of a call. -/
def seen : Except ParseError (Event Rule) × Session State Symbol → Observation Symbol Rule
  | (.ok event, s) => .event event s.args
  | (.error cause, s) => .error cause s.args

/-- The call of its machine that a session makes. -/
def call (table : Table State Symbol Rule) (s : Session State Symbol) : Call Symbol Rule :=
  ⟨s.machine.shifts table s.source, (s.machine.nextEvent table s.source).1⟩

theorem Balanced.shown (hb : s.Balanced) (table : Table State Symbol Rule) :
    (s.call table).Shown (seen (s.next table)) := by
  rw [hb.next_eq table, call]
  match s.machine.nextEvent table s.source with
  | (.ok (event, args), m, source) => exact .event _ event args
  | (.error cause, m, source) => exact .error _ cause s.args

/-- What the user leaves of a session. -/
def left (take : Bool) (s : Session State Symbol) : Session State Symbol :=
  if take then s.takeArgs else s

theorem Balanced.left (hb : s.Balanced) (take : Bool) : (s.left take).Balanced := by
  cases take with
  | false => exact hb
  | true => exact ⟨hb.states, hb.heights, hb.filled⟩

theorem machine_left (take : Bool) (s : Session State Symbol) :
    (s.left take).machine = s.machine := by
  cases take <;> rfl

theorem source_left (take : Bool) (s : Session State Symbol) :
    (s.left take).source = s.source := by
  cases take <;> rfl

/-- The calls of a session's machine are its first call and those of what it leaves. -/
theorem Balanced.calls_succ (hb : s.Balanced) (take : Bool) (n : Nat) :
    (Machine.calls table (n + 1) s.machine s.source).1 = s.call table ::
      (Machine.calls table n ((s.next table).2.left take).machine
        ((s.next table).2.left take).source).1 := by
  rw [machine_left, source_left, Machine.calls_succ, ← hb.machine_next table]
  rfl

theorem Balanced.event_call (hb : s.Balanced) (table : Table State Symbol Rule) :
    (s.call table).event = (s.next table).1 := by
  rw [hb.next_eq table, call]
  match s.machine.nextEvent table s.source with
  | (.ok (event, args), m, source) => rfl
  | (.error cause, m, source) => rfl

/-- **One more call shows what it comes to**, and the rest unless it is the last to stop. -/
theorem Balanced.observe_succ (hb : s.Balanced) (take : Bool) (limit extra : Nat) :
    s.observe table take (limit + 1) extra = seen (s.next table) ::
      if (s.call table).stops then
        match extra with
        | 0 => []
        | extra + 1 => ((s.next table).2.left take).observe table take limit extra
      else ((s.next table).2.left take).observe table take limit extra := by
  rw [Call.stops, hb.event_call table]
  -- Both sides split on what the call has come to, and on whether it may stop once more.
  match hnext : s.next table, extra with
  | (.ok (.reduce rule), s'), extra => simp [observe, hnext, seen, Session.left]
  | (.ok .accept, s'), 0 => simp [observe, hnext, seen]
  | (.ok .accept, s'), extra + 1 => simp [observe, hnext, seen, Session.left]
  | (.error cause, s'), 0 => simp [observe, hnext, seen]
  | (.error cause, s'), extra + 1 => simp [observe, hnext, seen, Session.left]

/-- **A session shows the calls of its machine**, up to the stop after the extra ones. -/
theorem Balanced.observe_shows (hb : s.Balanced) (take : Bool) (limit extra : Nat) :
    ∃ shown, List.Forall₂ Call.Shown
        (Call.upTo extra (Machine.calls table limit s.machine s.source).1) shown ∧
      s.observe table take limit extra = shown ++
        if (Machine.calls table limit s.machine s.source).1.countP Call.stops ≤ extra then [.limit]
        else [] := by
  induction limit generalizing s extra with
  | zero => exact ⟨[], .nil, by simp [observe, Machine.calls]⟩
  | succ limit ih =>
    have hrest := ih ((hb.next table).left take)
    rw [hb.calls_succ take, hb.observe_succ, List.countP_cons]
    cases hstops : (s.call table).stops with
    | false =>
      obtain ⟨shown, hshown, heq⟩ := hrest extra
      refine ⟨seen (s.next table) :: shown, ?_, ?_⟩
      · rw [Call.upTo_cons_of_not_stops hstops]
        exact .cons (hb.shown table) hshown
      · simp [heq]
    | true =>
      cases extra with
      | zero =>
        refine ⟨[seen (s.next table)], ?_, by simp⟩
        rw [Call.upTo_zero_cons hstops]
        exact .cons (hb.shown table) .nil
      | succ extra =>
        obtain ⟨shown, hshown, heq⟩ := hrest extra
        refine ⟨seen (s.next table) :: shown, ?_, ?_⟩
        · rw [Call.upTo_succ_cons hstops]
          exact .cons (hb.shown table) hshown
        · simp [heq]

end Session

/-- **A trace shows the calls of the machine**, in order: as many as are asked for, or up to the
accept or error after the extra ones. -/
theorem trace_shows (table : Table State Symbol Rule) (options : TraceOptions)
    (source : Source Symbol) :
    ∃ shown, List.Forall₂ Call.Shown
        (Call.upTo options.extra (Machine.calls table options.limit (.start table) source).1)
        shown ∧
      trace table options source = shown ++
        if (Machine.calls table options.limit (.start table) source).1.countP Call.stops ≤
          options.extra then [.limit] else [] :=
  (Session.balanced_start table source).observe_shows options.take options.limit options.extra

/-- What a trace says of its calls, apart from arguments. -/
theorem trace_outcomes (table : Table State Symbol Rule) (options : TraceOptions)
    (source : Source Symbol) :
    (trace table options source).filterMap Observation.outcome? =
      (Call.upTo options.extra
        (Machine.calls table options.limit (.start table) source).1).map Call.event := by
  obtain ⟨shown, hshown, heq⟩ := trace_shows table options source
  rw [heq, List.filterMap_append, Call.outcomes_of_shown hshown]
  split <;> simp [Observation.outcome?]

theorem Machine.calls_prefix (table : Table State Symbol Rule) {n limit : Nat} (h : n ≤ limit)
    (m : Machine State Symbol) (source : Source Symbol) :
    (calls table n m source).1 <+: (calls table limit m source).1 := by
  induction n generalizing limit m source with
  | zero => exact List.nil_prefix
  | succ n ih =>
    obtain ⟨limit, rfl⟩ := Nat.exists_eq_succ_of_ne_zero (Nat.ne_zero_of_lt h)
    rw [calls_succ, calls_succ]
    exact List.cons_prefix_cons.mpr ⟨rfl, ih (Nat.le_of_succ_le_succ h) _ _⟩

/-- **Of a run that ends, a trace shows the reductions and the end**, and nothing else. -/
theorem Machine.Ends.trace_eq {table : Table State Symbol Rule} {source : Source Symbol}
    {rules : List Rule} {last : Except ParseError (Event Rule)}
    (h : Ends table (.start table) source rules last) {options : TraceOptions}
    (hlimit : rules.length < options.limit) (hextra : options.extra = 0) :
    (trace table options source).filterMap Observation.outcome? =
      rules.map (fun rule => .ok (.reduce rule)) ++ [last] := by
  obtain ⟨rest, hrest⟩ := calls_prefix table hlimit (.start table) source
  have hlast : ∀ rule, last ≠ .ok (.reduce rule) := by
    rcases h.last_cases with rfl | ⟨cause, rfl⟩ <;> simp
  have hevents : (calls table options.limit (.start table) source).1.map Call.event =
      rules.map (fun rule => .ok (.reduce rule)) ++ last :: rest.map Call.event := by
    rw [← hrest, List.map_append, h.calls_eq, List.append_assoc, List.singleton_append]
  rw [trace_outcomes, hextra, Call.map_upTo_zero hlast hevents]

end Lalr

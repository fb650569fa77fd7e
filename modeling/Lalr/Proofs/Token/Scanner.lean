import Lalr.Proofs.Discovery
import Lalr.Token.Scanner

/-!
# What a scanner tries

**`Scanner.mem_candidates_iff`**: for a character are tried the terminals that may start with
anything, and those one of whose starting characters stands for it. Priorities decide the order
only: a terminal of higher priority comes first, unless it may start with anything
(**`Scanner.exists_order`**).
-/

namespace Lalr

namespace Scanner

variable {α : Type} {priority : α → Int}

theorem mem_insertByPriority {x y : α} {ys : List α} :
    x ∈ insertByPriority priority y ys ↔ x = y ∨ x ∈ ys := by
  induction ys with
  | nil => simp [insertByPriority]
  | cons z zs ih =>
    rw [insertByPriority]
    split
    · exact List.mem_cons
    · rw [List.mem_cons, ih, List.mem_cons, or_left_comm]

theorem mem_sortByPriority {x : α} {xs : List α} :
    x ∈ sortByPriority priority xs ↔ x ∈ xs := by
  induction xs with
  | nil => rfl
  | cons y ys ih =>
    show x ∈ insertByPriority priority y (sortByPriority priority ys) ↔ _
    rw [mem_insertByPriority, ih, List.mem_cons]

theorem pairwise_insertByPriority {x : α} {ys : List α}
    (h : ys.Pairwise fun a b => priority b ≤ priority a) :
    (insertByPriority priority x ys).Pairwise fun a b => priority b ≤ priority a := by
  induction ys with
  | nil => exact List.pairwise_singleton _ x
  | cons y ys ih =>
    obtain ⟨hy, hys⟩ := List.pairwise_cons.mp h
    rw [insertByPriority]
    split
    · rename_i hle
      refine List.pairwise_cons.mpr ⟨fun z hz => ?_, h⟩
      rcases List.mem_cons.mp hz with rfl | hz
      · exact hle
      · exact Int.le_trans (hy z hz) hle
    · rename_i hlt
      refine List.pairwise_cons.mpr ⟨fun z hz => ?_, ih hys⟩
      rcases mem_insertByPriority.mp hz with rfl | hz
      · exact Int.le_of_lt (Int.not_le.mp hlt)
      · exact hy z hz

/-- Priorities descend. -/
theorem pairwise_sortByPriority (xs : List α) :
    (sortByPriority priority xs).Pairwise fun a b => priority b ≤ priority a := by
  induction xs with
  | nil => exact List.Pairwise.nil
  | cons x xs ih => exact pairwise_insertByPriority ih

theorem mem_ids {ts : List Scannable} {id : TermId} :
    id ∈ (sortByPriority Scannable.priority ts).map Scannable.id ↔ ∃ s ∈ ts, s.id = id := by
  simp only [List.mem_map, mem_sortByPriority]

variable {ignoreCase : Bool} {ts : List Scannable} {ch : Char} {id : TermId}

/-- The characters with an entry are those some terminal may start with. -/
theorem mem_chars {starts : List (Scannable × List Char)} :
    ch ∈ appendNew [] (starts.flatMap Prod.snd) ↔ ∃ entry ∈ starts, ch ∈ entry.2 := by
  rw [mem_appendNew, List.mem_flatMap]
  exact or_iff_right List.not_mem_nil

/-- **What is tried for a character**: what may start with anything, or with this character. -/
theorem mem_candidates_iff : id ∈ (ofTerminals ignoreCase ts).candidates ch ↔
    ∃ s ∈ ts, (s.matcher.starts = none ∨ ch ∈ startChars ignoreCase s) ∧ s.id = id := by
  have hfallback : id ∈ (ofTerminals ignoreCase ts).fallback ↔
      ∃ s ∈ ts, s.matcher.starts = none ∧ s.id = id := by
    show id ∈ List.map _ (sortByPriority _ _) ↔ _
    simp only [mem_ids, List.mem_filter, Option.isNone_iff_eq_none, and_assoc]
  show id ∈ (List.lookup ch (List.map _ (appendNew [] (List.flatMap _ (ts.map fun s =>
    (s, startChars ignoreCase s)))))).getD (ofTerminals ignoreCase ts).fallback ↔ _
  rw [lookup_map_pair]
  split
  · rw [Option.getD_some, List.mem_append, mem_ids]
    show _ ∨ id ∈ (ofTerminals ignoreCase ts).fallback ↔ _
    rw [hfallback]
    simp only [List.mem_map, List.mem_filter, List.contains_iff_mem, Prod.exists]
    constructor
    · rintro (⟨s, ⟨_, _, ⟨⟨_, hs, ⟨⟩⟩, hch⟩, rfl⟩, hid⟩ | ⟨s, hs, hstarts, hid⟩)
      · exact ⟨_, hs, Or.inr hch, hid⟩
      · exact ⟨s, hs, Or.inl hstarts, hid⟩
    · rintro ⟨s, hs, hstarts | hch, hid⟩
      · exact Or.inr ⟨s, hs, hstarts, hid⟩
      · exact Or.inl ⟨s, ⟨s, _, ⟨⟨s, hs, rfl⟩, hch⟩, rfl⟩, hid⟩
  · rename_i hchars
    rw [Option.getD_none, hfallback]
    refine exists_congr fun s => and_congr_right fun hs => and_congr_left fun _ => ?_
    refine (or_iff_left fun hch => hchars ?_).symm
    exact mem_chars.mpr ⟨_, List.mem_map_of_mem hs, hch⟩

/-- What is tried, in order: first what may start with the character, then what may start with
anything. -/
theorem candidates_eq (ignoreCase : Bool) (ts : List Scannable) (ch : Char) :
    ∃ bucket : List Scannable, (∀ s ∈ bucket, s ∈ ts) ∧
      (ofTerminals ignoreCase ts).candidates ch =
        (sortByPriority Scannable.priority bucket ++ sortByPriority Scannable.priority
          (ts.filter fun s => s.matcher.starts.isNone)).map Scannable.id := by
  show ∃ bucket : List Scannable, _ ∧ (List.lookup ch (List.map _ (appendNew [] (List.flatMap _
    (ts.map fun s => (s, startChars ignoreCase s)))))).getD
      (ofTerminals ignoreCase ts).fallback = _
  rw [lookup_map_pair]
  split
  · refine ⟨_, fun s hs => ?_, List.map_append.symm⟩
    obtain ⟨entry, hentry, rfl⟩ := List.mem_map.mp hs
    obtain ⟨t, ht, rfl⟩ := List.mem_map.mp (List.mem_filter.mp hentry).1
    exact ht
  · exact ⟨[], fun s hs => absurd hs List.not_mem_nil, rfl⟩

/-- **The order of what is tried**: behind a terminal there are only such of no higher priority, and
such that may start with anything. -/
theorem exists_order (ignoreCase : Bool) (ts : List Scannable) (ch : Char) :
    ∃ order : List Scannable, (∀ s ∈ order, s ∈ ts) ∧
      (ofTerminals ignoreCase ts).candidates ch = order.map Scannable.id ∧
      order.Pairwise fun s s' => s'.matcher.starts = none ∨ s'.priority ≤ s.priority := by
  obtain ⟨bucket, hbucket, hcandidates⟩ := candidates_eq ignoreCase ts ch
  refine ⟨_, fun s hs => ?_, hcandidates, List.pairwise_append.mpr ⟨?_, ?_, fun s _ s' hs' => ?_⟩⟩
  · rcases List.mem_append.mp hs with hs | hs
    · exact hbucket s (mem_sortByPriority.mp hs)
    · exact (List.mem_filter.mp (mem_sortByPriority.mp hs)).1
  · exact (pairwise_sortByPriority bucket).imp Or.inr
  · exact (pairwise_sortByPriority _).imp Or.inr
  · have hstarts := (List.mem_filter.mp (mem_sortByPriority.mp hs')).2
    exact Or.inl (Option.isNone_iff_eq_none.mp hstarts)

end Scanner

end Lalr

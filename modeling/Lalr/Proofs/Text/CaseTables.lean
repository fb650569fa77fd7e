import Lalr.Text.Identifier
import Lalr.Text.LetterCase

/-!
# Case mappings and properties of characters

A letter and its lowercase form agree in many properties, such as whether they continue an
identifier. That is a fact about tables, which is checked a run of letters at a time
(`CaseRun.keeps`). To keep this cheap, a table is made into a number, whose bits are set for the
code points that lie in a range (**`testBit_bits`**); then as a rule the run and its images are two
equal pieces of it.

**`lowerChar_cases`** says what the lowercase form of a character is, and
**`ignoresCase_inRanges`** that a checked property is the same for it.
-/

namespace Lalr.Text

/-- The code points of a table, as the bits of a number. -/
def bits (table : List (Nat × Nat)) : Nat :=
  table.foldr (fun range n => (1 <<< (range.2 + 1 - range.1) - 1) <<< range.1 ||| n) 0

variable {table : List (Nat × Nat)} {code : Nat}

/-- **A bit is set iff some range holds the code point.** -/
theorem testBit_bits (table : List (Nat × Nat)) (code : Nat) :
    (bits table).testBit code = inRanges table code := by
  induction table with
  | nil => exact Nat.zero_testBit code
  | cons range table ih =>
    show ((1 <<< (range.2 + 1 - range.1) - 1) <<< range.1 ||| bits table).testBit code = _
    rw [Nat.testBit_or, Nat.testBit_shiftLeft, Nat.one_shiftLeft, Nat.testBit_two_pow_sub_one, ih]
    show _ = ((decide (range.1 ≤ code) && decide (code ≤ range.2)) || inRanges table code)
    congr 1
    rw [Bool.eq_iff_iff]
    simp only [Bool.and_eq_true, decide_eq_true_eq]
    omega

/-! ## Runs -/

namespace CaseRun

/-- The image of a code point of the run. -/
def image (run : CaseRun) (code : Nat) : Nat := ((code : Int) + run.shift).toNat

/-- The code points of the run. -/
def codes (run : CaseRun) : List Nat :=
  List.range' run.first ((run.last - run.first) / run.stride + 1) run.stride

theorem image_mono (run : CaseRun) {a b : Nat} (h : a ≤ b) : run.image a ≤ run.image b := by
  unfold image
  omega

theorem image?_eq_some {run : CaseRun} {code image : Nat} (h : run.image? code = some image) :
    run.first ≤ code ∧ code ≤ run.last ∧ (code - run.first) % run.stride = 0 ∧
      image = run.image code := by
  unfold image? at h
  split at h
  · rename_i hrun
    simp only [Bool.and_eq_true, decide_eq_true_eq, beq_iff_eq] at hrun
    exact ⟨hrun.1.1, hrun.1.2, hrun.2, (Option.some.inj h).symm⟩
  · exact nomatch h

theorem mem_codes_of_image? {run : CaseRun} {code image : Nat} (h : run.image? code = some image) :
    code ∈ run.codes := by
  obtain ⟨hfirst, hlast, hstride, -⟩ := image?_eq_some h
  have hquot := Nat.mul_div_cancel' (Nat.dvd_of_mod_eq_zero hstride)
  refine List.mem_range'.mpr ⟨(code - run.first) / run.stride, ?_, by omega⟩
  exact Nat.lt_succ_of_le (Nat.div_le_div_right (by omega))

/-- The images of the run are characters. -/
def lands (run : CaseRun) : Bool :=
  Nat.ble (run.image run.last + 1) 0xD800 ||
    (Nat.ble 0xE000 (run.image run.first) && Nat.ble (run.image run.last + 1) 0x110000)

/-- The code point is no image of the run, nor lies between two. -/
def misses (code : Nat) (run : CaseRun) : Bool :=
  Nat.ble (run.image run.last + 1) code || Nat.ble (code + 1) (run.image run.first)

/-- The code points from the first to the last of the run, and their images: each a piece of the
number, and the pieces are equal. -/
def matchesImages (n : Nat) (run : CaseRun) : Bool :=
  run.image run.last == run.image run.first + (run.last - run.first) &&
    n >>> run.image run.first % 1 <<< (run.last + 1 - run.first) ==
      n >>> run.first % 1 <<< (run.last + 1 - run.first)

/-- Each code point of the run has its bit set in the number iff its image has. -/
def keeps (n : Nat) (run : CaseRun) : Bool :=
  run.matchesImages n || run.codes.all fun code => n.testBit (run.image code) == n.testBit code

variable {run : CaseRun} {image : Nat}

theorem isValidChar_of_lands (h : run.lands = true) (himage : run.image? code = some image) :
    image.isValidChar := by
  obtain ⟨hfirst, hlast, -, rfl⟩ := image?_eq_some himage
  have hlow := run.image_mono hfirst
  have hhigh := run.image_mono hlast
  unfold lands at h
  simp only [Bool.or_eq_true, Bool.and_eq_true, Nat.ble_eq] at h
  rcases h with h | ⟨h, h'⟩
  · exact Or.inl (by omega)
  · exact Or.inr ⟨by omega, by omega⟩

theorem image?_ne_of_misses (h : run.misses image = true) : run.image? code ≠ some image := by
  intro himage
  obtain ⟨hfirst, hlast, -, rfl⟩ := image?_eq_some himage
  have hlow := run.image_mono hfirst
  have hhigh := run.image_mono hlast
  unfold misses at h
  simp only [Bool.or_eq_true, Nat.ble_eq] at h
  omega

theorem testBit_image_of_matchesImages {n : Nat} (h : run.matchesImages n = true)
    (hfirst : run.first ≤ code) (hlast : code ≤ run.last) :
    n.testBit (run.image code) = n.testBit code := by
  obtain ⟨hlinear, hpieces⟩ := Bool.and_eq_true_iff.mp h
  rw [beq_iff_eq] at hlinear hpieces
  have himage : run.image code = run.image run.first + (code - run.first) := by
    unfold image at hlinear ⊢
    omega
  have hcode : code = run.first + (code - run.first) := by omega
  have hlt : code - run.first < run.last + 1 - run.first := by omega
  have hbit := congrArg (fun piece => Nat.testBit piece (code - run.first)) hpieces
  simp only [Nat.one_shiftLeft, Nat.testBit_mod_two_pow, hlt, decide_true, Bool.true_and,
    Nat.testBit_shiftRight] at hbit
  rwa [← himage, ← hcode] at hbit

/-- **A property that a run keeps is the same for a letter and its image.** -/
theorem inRanges_of_keeps (h : run.keeps (bits table) = true)
    (himage : run.image? code = some image) : inRanges table image = inRanges table code := by
  obtain ⟨hfirst, hlast, -, rfl⟩ := image?_eq_some himage
  rw [← testBit_bits, ← testBit_bits]
  rcases Bool.or_eq_true_iff.mp h with hpieces | hpoints
  · exact testBit_image_of_matchesImages hpieces hfirst hlast
  · exact beq_iff_eq.mp (List.all_eq_true.mp hpoints code (mem_codes_of_image? himage))

end CaseRun

/-! ## Identifiers -/

/-- The ranges of characters with the property `XID_Start`, those below 128 included. -/
def startRanges : List (Nat × Nat) :=
  (0x41, 0x5A) :: (0x61, 0x7A) :: identStartRanges

/-- The ranges of characters with the property `XID_Continue`, those below 128 included. -/
def continueRanges : List (Nat × Nat) :=
  (0x30, 0x39) :: (0x41, 0x5A) :: (0x5F, 0x5F) :: (0x61, 0x7A) :: identContinueRanges

/-- Ranges below 128 and a table of the ranges from there on, tested apart. -/
theorem inRanges_append_eq_ite {first : List (Nat × Nat)}
    (hfirst : first.all (fun range => Nat.ble range.2 127) = true)
    (htable : table.all (fun range => Nat.ble 128 range.1) = true) :
    inRanges (first ++ table) code =
      if code < 128 then inRanges first code else inRanges table code := by
  have happend : inRanges (first ++ table) code = (inRanges first code || inRanges table code) :=
    List.any_append
  rw [happend]
  split
  · rename_i hcode
    have hoff : inRanges table code = false := by
      refine Bool.eq_false_iff.mpr fun hin => ?_
      obtain ⟨range, hrange, hlow, -⟩ := inRanges_iff.mp hin
      have hle := Nat.le_of_ble_eq_true (List.all_eq_true.mp htable range hrange)
      exact absurd hcode (Nat.not_lt.mpr (Nat.le_trans hle hlow))
    rw [hoff, Bool.or_false]
  · rename_i hcode
    have hoff : inRanges first code = false := by
      refine Bool.eq_false_iff.mpr fun hin => hcode ?_
      obtain ⟨range, hrange, -, hlast⟩ := inRanges_iff.mp hin
      have hle := Nat.le_of_ble_eq_true (List.all_eq_true.mp hfirst range hrange)
      exact Nat.lt_succ_of_le (Nat.le_trans hlast hle)
    rw [hoff, Bool.false_or]

theorem isLatinLetter_eq (c : Char) : isLatinLetter c =
    (decide (0x61 ≤ c.toNat) && decide (c.toNat ≤ 0x7A) ||
      decide (0x41 ≤ c.toNat) && decide (c.toNat ≤ 0x5A)) := rfl

theorem isLatinDigit_eq (c : Char) :
    isLatinDigit c = (decide (0x30 ≤ c.toNat) && decide (c.toNat ≤ 0x39)) := rfl

theorem isUnderscore_eq (c : Char) :
    (c == '_') = (decide (0x5F ≤ c.toNat) && decide (c.toNat ≤ 0x5F)) := by
  have h : c = '_' ↔ c.toNat = 0x5F :=
    ⟨fun h => h ▸ rfl, fun h => Char.ext (UInt32.toNat_inj.mp h)⟩
  rw [Bool.eq_iff_iff, beq_iff_eq, h, Bool.and_eq_true, decide_eq_true_eq, decide_eq_true_eq]
  omega

theorem high_identRanges :
    identStartRanges.all (fun range => Nat.ble 128 range.1) = true ∧
      identContinueRanges.all (fun range => Nat.ble 128 range.1) = true := by
  decide +kernel

theorem isStart_eq (c : Char) : Xid.isStart c = inRanges startRanges c.toNat := by
  show (if c.toNat < 128 then _ else _) =
    inRanges ([(0x41, 0x5A), (0x61, 0x7A)] ++ identStartRanges) c.toNat
  rw [inRanges_append_eq_ite rfl high_identRanges.1, isLatinLetter_eq]
  congr 1
  rw [Bool.eq_iff_iff]
  simp only [inRanges, List.any_cons, List.any_nil, Bool.or_eq_true, Bool.and_eq_true,
    decide_eq_true_eq, Bool.or_false]
  omega

theorem isContinue_eq (c : Char) : Xid.isContinue c = inRanges continueRanges c.toNat := by
  show (if c.toNat < 128 then _ else _) = inRanges
    ([(0x30, 0x39), (0x41, 0x5A), (0x5F, 0x5F), (0x61, 0x7A)] ++ identContinueRanges) c.toNat
  rw [inRanges_append_eq_ite rfl high_identRanges.2, isLatinLetter_eq, isLatinDigit_eq,
    isUnderscore_eq]
  congr 1
  rw [Bool.eq_iff_iff]
  simp only [inRanges, List.any_cons, List.any_nil, Bool.or_eq_true, Bool.and_eq_true,
    decide_eq_true_eq, Bool.or_false]
  omega

/-! ## The runs at hand -/

namespace CaseRun

/-- The check of one run. All checks stand together, so that the tables are gone through once. -/
def isRegular (run : CaseRun) : Bool :=
  run.lands && run.keeps (bits casedRanges) && run.keeps (bits caseIgnorableRanges) &&
    run.keeps (bits startRanges) && run.keeps (bits continueRanges) && run.misses 0x5F &&
    (run.misses 0x3C3 || run.codes.all fun code => run.image code != 0x3C3 || code == 0x3A3)

/-- What lowercase forms have in common with their letters. -/
structure Regular (run : CaseRun) : Prop where
  lands         : run.lands = true
  cased         : run.keeps (bits casedRanges) = true
  caseIgnorable : run.keeps (bits caseIgnorableRanges) = true
  starts        : run.keeps (bits startRanges) = true
  continues     : run.keeps (bits continueRanges) = true
  /-- The underscore is no image. -/
  underscore    : run.misses 0x5F = true
  /-- The small sigma is the image of the capital one only. -/
  sigma         : ∀ code, run.image? code = some 0x3C3 → code = 0x3A3

theorem isRegular_lowerRuns : lowerRuns.all isRegular = true := by decide +kernel

theorem regular_of_mem {run : CaseRun} (h : run ∈ lowerRuns) : run.Regular := by
  have hregular := List.all_eq_true.mp isRegular_lowerRuns run h
  simp only [isRegular, Bool.and_eq_true] at hregular
  obtain ⟨⟨⟨⟨⟨⟨hlands, hcased⟩, hignorable⟩, hstarts⟩, hcontinues⟩, hunderscore⟩, hsigma⟩ :=
    hregular
  refine ⟨hlands, hcased, hignorable, hstarts, hcontinues, hunderscore, fun code himage => ?_⟩
  rcases Bool.or_eq_true_iff.mp hsigma with hmisses | hpoints
  · exact absurd himage (image?_ne_of_misses hmisses)
  · obtain ⟨-, -, -, hcode⟩ := image?_eq_some himage
    have hpoint := List.all_eq_true.mp hpoints code (mem_codes_of_image? himage)
    rcases Bool.or_eq_true_iff.mp hpoint with hne | heq
    · exact absurd hcode.symm (bne_iff_ne.mp hne)
    · exact beq_iff_eq.mp heq

end CaseRun

/-! ## Characters -/

/-- **The lowercase form of a character**: two characters for `İ`, itself, or its image. -/
theorem lowerChar_cases (c : Char) :
    (c = '\u0130' ∧ lowerChar c = ['i', '\u0307']) ∨ lowerChar c = [c] ∨
      ∃ run ∈ lowerRuns, ∃ l, lowerChar c = [l] ∧ run.image? c.toNat = some l.toNat := by
  unfold lowerChar mapCase
  split
  · rename_i codes hlookup
    obtain ⟨before, after, hmany, -⟩ := List.lookup_eq_some_iff.mp hlookup
    have hmem : (c.toNat, codes) ∈ lowerMany := by simp [hmany]
    obtain ⟨hcode, rfl⟩ := Prod.mk.inj (List.mem_singleton.mp hmem)
    exact Or.inl ⟨Char.ext (UInt32.toNat_inj.mp hcode), rfl⟩
  · split
    · rename_i code hcode
      obtain ⟨run, hrun, himage⟩ := List.exists_of_findSome?_eq_some hcode
      have hvalid := CaseRun.isValidChar_of_lands (CaseRun.regular_of_mem hrun).lands himage
      have hcode : (Char.ofNat code).toNat = code := by
        rw [Char.ofNat, dif_pos hvalid]
        rfl
      exact Or.inr (Or.inr ⟨run, hrun, Char.ofNat code, rfl, hcode.symm ▸ himage⟩)
    · exact Or.inr (Or.inl rfl)

/-- The property is the same for a character and its lowercase form. -/
def IgnoresCase (P : Char → Bool) : Prop := ∀ c l, lowerChar c = [l] → P l = P c

/-- Such a property is the same for characters with the same lowercase form. -/
theorem IgnoresCase.eq_of_same {P : Char → Bool} (h : IgnoresCase P) {a b : Char}
    (hab : lowerChar a = lowerChar b) : P a = P b := by
  have hform : ∀ c, (c = '\u0130' ∧ lowerChar c = ['i', '\u0307']) ∨ ∃ l, lowerChar c = [l] := by
    intro c
    rcases lowerChar_cases c with hc | hc | ⟨-, -, l, hc, -⟩
    · exact Or.inl hc
    · exact Or.inr ⟨c, hc⟩
    · exact Or.inr ⟨l, hc⟩
  rcases hform a with ⟨rfl, ha⟩ | ⟨l, ha⟩
  · rcases hform b with ⟨rfl, -⟩ | ⟨l, hb⟩
    · rfl
    · exact nomatch ha.symm.trans (hab.trans hb)
  · rw [← h a l ha, ← h b l (hab.symm.trans ha)]

/-- **A property checked run by run ignores case.** -/
theorem ignoresCase_inRanges (hkeeps : ∀ run ∈ lowerRuns, run.keeps (bits table) = true) :
    IgnoresCase fun c => inRanges table c.toNat := by
  intro c l hl
  rcases lowerChar_cases c with ⟨-, hc⟩ | hc | ⟨run, hrun, l', hc, himage⟩
  · exact nomatch hl.symm.trans hc
  · obtain rfl := List.singleton_inj.mp (hl.symm.trans hc)
    rfl
  · obtain rfl := List.singleton_inj.mp (hl.symm.trans hc)
    exact CaseRun.inRanges_of_keeps (hkeeps run hrun) himage

theorem isCased_ignoresCase : IgnoresCase isCased :=
  ignoresCase_inRanges fun _ hrun => (CaseRun.regular_of_mem hrun).cased

theorem isCaseIgnorable_ignoresCase : IgnoresCase isCaseIgnorable :=
  ignoresCase_inRanges fun _ hrun => (CaseRun.regular_of_mem hrun).caseIgnorable

theorem isStart_ignoresCase : IgnoresCase Xid.isStart := by
  rw [funext isStart_eq]
  exact ignoresCase_inRanges fun _ hrun => (CaseRun.regular_of_mem hrun).starts

theorem isContinue_ignoresCase : IgnoresCase Xid.isContinue := by
  rw [funext isContinue_eq]
  exact ignoresCase_inRanges fun _ hrun => (CaseRun.regular_of_mem hrun).continues

/-- Only the underscore has itself for a lowercase form. -/
theorem eq_underscore_of_lowerChar {c : Char} (h : lowerChar c = ['_']) : c = '_' := by
  rcases lowerChar_cases c with ⟨-, hc⟩ | hc | ⟨run, hrun, l, hc, himage⟩
  · exact nomatch h.symm.trans hc
  · exact List.singleton_inj.mp (hc.symm.trans h)
  · obtain rfl : '_' = l := List.singleton_inj.mp (h.symm.trans hc)
    exact absurd himage (CaseRun.image?_ne_of_misses (CaseRun.regular_of_mem hrun).underscore)

/-- Besides the small sigma itself, only the capital one has it for a lowercase form. -/
theorem eq_sigma_of_lowerChar {c : Char} (h : lowerChar c = ['σ']) : c = 'σ' ∨ c = 'Σ' := by
  rcases lowerChar_cases c with ⟨-, hc⟩ | hc | ⟨run, hrun, l, hc, himage⟩
  · exact nomatch h.symm.trans hc
  · exact Or.inl (List.singleton_inj.mp (hc.symm.trans h))
  · obtain rfl : 'σ' = l := List.singleton_inj.mp (h.symm.trans hc)
    have hcode := (CaseRun.regular_of_mem hrun).sigma _ himage
    exact Or.inr (Char.ext (UInt32.toNat_inj.mp hcode))

end Lalr.Text

import Lox.Proofs.Boundary
import Mathlib

/-!
# An unexpected character is as good as a blank

A character that starts no token is recorded, and the scan goes on behind it as it would behind a
blank. To say so, the text is scanned again with a space for each character that a step has
recorded: the tokens are the same, or the fault that ends the scan is, and nothing is recorded.

The segments of the new text are those of the old one, with a blank for each stray. What has to be
shown is that no match can tell the difference, wherever it looks ahead. A space continues nothing
that the character it stands for has not continued, and it ends no comment, because no line feed is
ever replaced.
-/

namespace Lox

open Lexer

/-- A step that begins behind the first `i` characters records a fault. -/
def RecordedAt (source : String) (i : Nat) : Prop :=
  ∃ n, ((start source).afterSteps n).cursor.consumed.length = i ∧
    ((start source).afterSteps n).step.2.errors ≠ ((start source).afterSteps n).errors

/-- Behind segments with so many characters comes a stray. -/
def StrayBehind (gs : List Segment) (i : Nat) : Prop :=
  ∃ gs₁ a gs₂, gs = gs₁ ++ .stray a :: gs₂ ∧ (gs₁.flatMap Segment.text).length = i

/-! ## What is recorded are the strays -/

/-- A cutting may be taken apart between any two segments. -/
theorem Cutting.split {text left : List Char} {gs hs : List Segment}
    (h : Cutting text (gs ++ hs) left) :
    ∃ rest, text = gs.flatMap Segment.text ++ rest ∧ Leading gs rest ∧ Cutting rest hs left := by
  induction gs generalizing text with
  | nil => exact ⟨text, rfl, .nil, h⟩
  | cons g gs ih =>
    rw [List.cons_append] at h
    cases h with
    | segment hg h =>
      obtain ⟨rest, rfl, hleading, hrest⟩ := ih h
      exact ⟨rest, by rw [List.flatMap_cons, List.append_assoc], .cons hg hleading, hrest⟩

theorem Cutting.next {text left : List Char} {g : Segment} {gs : List Segment}
    (h : Cutting text (g :: gs) left) : g.Next text := by
  cases h with
  | segment hg _ => exact hg

/-- No segment is empty, so there are not more of them than characters. -/
theorem Leading.length_le {gs : List Segment} {rest : List Char} (h : Leading gs rest) :
    gs.length ≤ (gs.flatMap Segment.text).length := by
  induction h with
  | nil => exact Nat.le_refl _
  | cons hg _ ih =>
    have := List.length_pos_of_ne_nil hg.text_ne_nil
    rw [List.length_cons, List.flatMap_cons, List.length_append]
    omega

namespace Lexer

variable {source : String}

/-- Steps follow the segments that are cut where the lexer stands. -/
theorem stepsRead_of_leading {gs : List Segment} {rest : List Char} (h : Leading gs rest) :
    ∀ {l : Lexer source}, l.cursor.rest = gs.flatMap Segment.text ++ rest →
      l.StepsRead gs.length gs := by
  induction h with
  | nil => exact fun _ => stepsRead_nil rfl rfl
  | cons hg _ ih =>
    intro l hl
    rw [List.flatMap_cons, List.append_assoc] at hl
    rw [← hl] at hg
    exact .of_next hg (ih ((step_of_next hg).2.1.rest_of_append hl))

/-- A step that records a fault has read a stray. -/
theorem exists_stray_of_recorded {l : Lexer source} (h : l.step.2.errors ≠ l.errors) :
    ∃ a, (Segment.stray a).Next l.cursor.rest := by
  by_contra hn
  exact h (errors_step_of_not_isStray hn)

theorem recorded_of_stray {l : Lexer source} {a : Char}
    (h : (Segment.stray a).Next l.cursor.rest) : l.step.2.errors ≠ l.errors := by
  rw [(step_of_stray h).2]
  simp

end Lexer

/-- The step that reads the stray is not made later than there are characters. -/
theorem exists_recorded_of_strayBehind {source : String} {gs : List Segment} {left : List Char}
    {i : Nat} (h : Cutting source.toList gs left) (hi : StrayBehind gs i) :
    ∃ n < i + 1, ((start source).afterSteps n).cursor.consumed.length = i ∧
      ((start source).afterSteps n).step.2.errors ≠ ((start source).afterSteps n).errors := by
  obtain ⟨gs₁, a, gs₂, rfl, hlength⟩ := hi
  obtain ⟨rest, htext, hleading, hrest⟩ := h.split
  have hstart : (start source).cursor.rest = gs₁.flatMap Segment.text ++ rest :=
    (rest_cursor_start source).trans htext
  have hread := stepsRead_of_leading hleading hstart
  have hleft := hread.reads.rest_of_append hstart
  refine ⟨gs₁.length, ?_, ?_, ?_⟩
  · have := hleading.length_le
    omega
  · rw [hread.reads.consumed_eq, consumed_cursor_start, List.nil_append, hlength]
  · exact recorded_of_stray (hleft ▸ hrest.next)

theorem strayBehind_of_recordedAt {source : String} {gs : List Segment} {left : List Char}
    {i : Nat} (h : Cutting source.toList gs left) (hi : RecordedAt source i) :
    StrayBehind gs i := by
  obtain ⟨n, hlength, hrecorded⟩ := hi
  obtain ⟨a, ha⟩ := exists_stray_of_recorded hrecorded
  have hunbroken : (start source).Unbroken n := by
    by_contra hn
    obtain ⟨_, _, hrest⟩ := exists_fault_of_not_unbroken hn
    exact hrecorded (by rw [step_of_rest_nil hrest])
  obtain ⟨gs₁, hread⟩ := exists_stepsRead hunbroken
  obtain ⟨rest, hrest⟩ := ha.beginning
  obtain ⟨gs₂, left', hcut⟩ := exists_cutting rest
  -- the cutting behind the stray completes the segments that have been read
  have hbehind : Cutting _ (gs₁ ++ .stray a :: gs₂) left' :=
    hread.leading.cutting (hrest ▸ .segment (hrest ▸ ha) hcut)
  rw [← hread.reads.rest_eq, rest_cursor_start] at hbehind
  refine ⟨gs₁, a, gs₂, (h.unique hbehind).1, ?_⟩
  rw [← hlength, hread.reads.consumed_eq, consumed_cursor_start, List.nil_append]

theorem recordedAt_iff {source : String} {gs : List Segment} {left : List Char}
    (h : Cutting source.toList gs left) (i : Nat) : RecordedAt source i ↔ StrayBehind gs i := by
  refine ⟨strayBehind_of_recordedAt h, fun hi => ?_⟩
  obtain ⟨n, _, hn⟩ := exists_recorded_of_strayBehind h hi
  exact ⟨n, hn⟩

instance (source : String) (i : Nat) : Decidable (RecordedAt source i) :=
  decidable_of_iff
    (∃ n < i + 1, ((start source).afterSteps n).cursor.consumed.length = i ∧
      ((start source).afterSteps n).step.2.errors ≠ ((start source).afterSteps n).errors)
    ⟨fun ⟨n, _, hn⟩ => ⟨n, hn⟩, fun hi => by
      obtain ⟨gs, left, h⟩ := exists_cutting source.toList
      exact exists_recorded_of_strayBehind h (strayBehind_of_recordedAt h hi)⟩

/-- The text with a space for every character that a step records as unexpected. -/
def blanked (source : String) : String :=
  String.ofList (source.toList.mapIdx fun i a => if RecordedAt source i then ' ' else a)

-- what an open string holds is not recorded
example : blanked "#\"#" = " \"#" := by cbv

/-! ## What matches see of a space -/

/-- The same character, or a space in place of one that promises nothing. -/
def SpacedChar (a a' : Char) : Prop := a' = a ∨ Opening.of a = .other ∧ a' = ' '

theorem SpacedChar.eq_of_ne_space {a a' : Char} (h : SpacedChar a a') (ha : a' ≠ ' ') : a = a' := by
  rcases h with rfl | ⟨_, rfl⟩
  · rfl
  · exact absurd rfl ha

/-- A class that has no space gets no new character. -/
theorem SpacedChar.notMem {p : Char → Bool} {a a' : Char} (h : SpacedChar a a')
    (hp : p ' ' = false) (ha : p a = false) : p a' = false := by
  rcases h with rfl | ⟨_, rfl⟩
  · exact ha
  · exact hp

theorem SpacedChar.eq_lineFeed_iff {a a' : Char} (h : SpacedChar a a') : a' = '\n' ↔ a = '\n' := by
  rcases h with rfl | ⟨hother, rfl⟩
  · exact Iff.rfl
  · refine iff_of_false (by decide) ?_
    rintro rfl
    exact absurd hother (by decide)

theorem count_lineFeed_of_spaced {s s' : List Char} (h : List.Forall₂ SpacedChar s s') :
    s'.count '\n' = s.count '\n' := by
  induction h with
  | nil => rfl
  | cons ha _ ih =>
    rw [List.count_cons, List.count_cons, ih]
    simp only [beq_iff_eq, ha.eq_lineFeed_iff]

/-- A match stops before the spaces as well. -/
theorem Rule.Stops.of_spaced {r : Rule} {s t t' : List Char} (h : r.Stops s t)
    (ht : List.Forall₂ SpacedChar t t') : r.Stops s t' := by
  cases ht with
  | nil => exact h
  | @cons a a' u u' ha hu =>
    have hclass : ∀ p : Char → Bool, p ' ' = false → (∀ c ∈ (a :: u).head?, p c = false) →
        ∀ c ∈ (a' :: u').head?, p c = false := by
      intro p hp hpa c hc
      rw [← Option.some.inj hc]
      exact ha.notMem hp (hpa a rfl)
    cases r with
    | operator k =>
      refine ⟨fun hs hc => h.1 hs ?_, fun hs hc => h.2 hs ?_⟩
      · obtain rfl : a' = '=' := Option.some.inj hc
        rw [ha.eq_of_ne_space (by decide)]
        rfl
      · obtain rfl : a' = '/' := Option.some.inj hc
        rw [ha.eq_of_ne_space (by decide)]
        rfl
    | number =>
      refine ⟨hclass Char.isDigit (by decide) h.1, fun hs d v hv => ?_⟩
      obtain ⟨rfl, rfl⟩ := List.cons.inj hv
      obtain rfl := ha.eq_of_ne_space (by decide)
      cases hu with
      | @cons b _ w _ hb _ =>
        exact hb.notMem (p := Char.isDigit) (by decide) (h.2 hs b w rfl)
    | word => exact hclass isWordPart (by decide) h
    | string => trivial
    | blank => trivial
    | comment =>
      intro c hc
      rw [← Option.some.inj hc]
      exact ha.eq_lineFeed_iff.mpr (h a rfl)

/-! ## The segments of the new text -/

namespace Segment

/-- A space in place of a stray. -/
def blanked : Segment → Segment
  | matched r s => matched r s
  | stray _ => matched .blank [' ']

theorem Next.valid {g : Segment} {text : List Char} (h : g.Next text) : g.Valid := by
  obtain ⟨rest, rfl⟩ := h.beginning
  exact (next_append_iff.mp h).1

theorem spaced_text_blanked {g : Segment} (h : g.Valid) :
    List.Forall₂ SpacedChar g.text g.blanked.text := by
  cases g with
  | matched r s => exact List.forall₂_same.mpr fun _ _ => Or.inl rfl
  | stray a => exact .cons (Or.inr ⟨h, rfl⟩) .nil

theorem Next.blanked {g : Segment} {t t' : List Char} (h : g.Next (g.text ++ t))
    (ht : List.Forall₂ SpacedChar t t') : g.blanked.Next (g.blanked.text ++ t') := by
  obtain ⟨hvalid, hstops⟩ := next_append_iff.mp h
  cases g with
  | matched r s => exact next_append_iff.mpr ⟨hvalid, Rule.Stops.of_spaced hstops ht⟩
  | stray a =>
    have hspace : (matched .blank [' ']).Valid := Rule.mem_blank.mpr ⟨' ', by decide, rfl⟩
    exact next_append_iff.mpr ⟨hspace, trivial⟩

theorem token?_blanked (line : Nat) (g : Segment) : g.blanked.token? line = g.token? line := by
  cases g with
  | matched r s => rfl
  | stray a => rfl

theorem error?_blanked (line : Nat) (g : Segment) : g.blanked.error? line = none := by
  cases g with
  | matched r s => rfl
  | stray a => rfl

theorem tokens_blanked {gs : List Segment} (h : ∀ g ∈ gs, g.Valid) (line : Nat) :
    tokens line (gs.map blanked) = tokens line gs := by
  induction gs generalizing line with
  | nil => rfl
  | cons g gs ih =>
    obtain ⟨hg, hgs⟩ := List.forall_mem_cons.mp h
    rw [List.map_cons, tokens_cons, tokens_cons, token?_blanked, ih hgs,
      count_lineFeed_of_spaced (spaced_text_blanked hg)]

theorem errors_blanked (line : Nat) (gs : List Segment) : errors line (gs.map blanked) = [] := by
  induction gs generalizing line with
  | nil => rfl
  | cons g gs ih =>
    rw [List.map_cons, errors_cons, error?_blanked, ih]
    rfl

end Segment

namespace Cutting

variable {text left : List Char} {gs : List Segment}

theorem valid (h : Cutting text gs left) : ∀ g ∈ gs, g.Valid := by
  intro g hg
  obtain ⟨_, hnext⟩ := h.exists_next g hg
  exact hnext.valid

theorem spaced (h : Cutting text gs left) :
    List.Forall₂ SpacedChar text ((gs.map Segment.blanked).flatMap Segment.text ++ left) := by
  induction h with
  | finished => exact .nil
  | openString _ => exact List.forall₂_same.mpr fun _ _ => Or.inl rfl
  | segment hg _ ih =>
    rw [List.map_cons, List.flatMap_cons, List.append_assoc]
    exact List.rel_append (Segment.spaced_text_blanked hg.valid) ih

/-- **The cutting of the new text** has a blank for each stray, and the same otherwise. -/
theorem blanked (h : Cutting text gs left) :
    Cutting ((gs.map Segment.blanked).flatMap Segment.text ++ left) (gs.map Segment.blanked)
      left := by
  induction h with
  | finished => exact .finished
  | openString hn => exact .openString hn
  | segment hg hrest ih =>
    rw [List.map_cons, List.flatMap_cons, List.append_assoc]
    exact .segment (hg.blanked hrest.spaced) ih

end Cutting

/-! ## The new text is the text of its segments -/

theorem strayBehind_cons_iff {g : Segment} {gs : List Segment} {i : Nat} :
    StrayBehind (g :: gs) i ↔
      (∃ a, g = .stray a ∧ i = 0) ∨ ∃ j, i = j + g.text.length ∧ StrayBehind gs j := by
  refine ⟨?_, ?_⟩
  · intro h
    obtain ⟨gs₁, a, gs₂, hgs, rfl⟩ := h
    cases gs₁ with
    | nil =>
      obtain ⟨rfl, rfl⟩ := List.cons.inj hgs
      exact Or.inl ⟨a, rfl, rfl⟩
    | cons g' gs₁ =>
      obtain ⟨rfl, rfl⟩ := List.cons.inj hgs
      refine Or.inr ⟨_, ?_, gs₁, a, gs₂, rfl, rfl⟩
      rw [List.flatMap_cons, List.length_append, Nat.add_comm]
  · intro h
    rcases h with ⟨a, rfl, rfl⟩ | ⟨j, rfl, gs₁, a, gs₂, rfl, rfl⟩
    · exact ⟨[], a, gs, rfl, rfl⟩
    · refine ⟨g :: gs₁, a, gs₂, rfl, ?_⟩
      rw [List.flatMap_cons, List.length_append, Nat.add_comm]

/-- A segment is replaced as a whole, and only if it is a stray. -/
theorem mapIdx_text {g : Segment} {gs : List Segment} (p : Nat → Bool)
    (hp : ∀ i, p i = true ↔ StrayBehind (g :: gs) i) :
    g.text.mapIdx (fun i a => if p i then ' ' else a) = g.blanked.text := by
  cases g with
  | matched r s =>
    refine List.ext_getElem (by simp [Segment.text, Segment.blanked]) fun i hi _ => ?_
    have hs : ¬ StrayBehind (.matched r s :: gs) i := by
      rw [strayBehind_cons_iff]
      rintro (⟨a, ha, _⟩ | ⟨j, rfl, _⟩)
      · exact absurd ha (by simp)
      · rw [List.length_mapIdx] at hi
        exact absurd hi (Nat.not_lt.mpr (Nat.le_add_left _ _))
    rw [List.getElem_mapIdx, if_neg (mt (hp i).mp hs)]
    rfl
  | stray a =>
    have hzero : p 0 = true := (hp 0).mpr (strayBehind_cons_iff.mpr (Or.inl ⟨a, rfl, rfl⟩))
    simp [Segment.text, Segment.blanked, hzero]

theorem mapIdx_flatMap_text {gs : List Segment} (hgs : ∀ g ∈ gs, g.text ≠ []) (left : List Char)
    (p : Nat → Bool) (hp : ∀ i, p i = true ↔ StrayBehind gs i) :
    (gs.flatMap Segment.text ++ left).mapIdx (fun i a => if p i then ' ' else a) =
      (gs.map Segment.blanked).flatMap Segment.text ++ left := by
  induction gs generalizing p with
  | nil =>
    have hnone : ∀ i, p i = false := by
      intro i
      rw [← Bool.not_eq_true, hp]
      rintro ⟨gs₁, a, gs₂, h, _⟩
      exact absurd h (by simp)
    rw [List.flatMap_nil, List.nil_append, List.map_nil, List.flatMap_nil, List.nil_append]
    exact List.ext_getElem (by simp) fun i _ _ => by simp [hnone]
  | cons g gs ih =>
    obtain ⟨hg, hgs⟩ := List.forall_mem_cons.mp hgs
    have hlater : ∀ i, p (i + g.text.length) = true ↔ StrayBehind gs i := by
      intro i
      rw [hp, strayBehind_cons_iff]
      refine ⟨?_, fun h => Or.inr ⟨i, rfl, h⟩⟩
      rintro (⟨_, _, h⟩ | ⟨j, h, hj⟩)
      · exact absurd (List.length_pos_of_ne_nil hg) (by omega)
      · rwa [Nat.add_right_cancel h]
    rw [List.flatMap_cons, List.append_assoc, List.mapIdx_append, mapIdx_text p hp,
      ih hgs (fun i => p (i + g.text.length)) hlater, List.map_cons, List.flatMap_cons,
      List.append_assoc]

theorem toList_blanked {source : String} {gs : List Segment} {left : List Char}
    (h : Cutting source.toList gs left) :
    (blanked source).toList = (gs.map Segment.blanked).flatMap Segment.text ++ left := by
  have hgs : ∀ g ∈ gs, g.text ≠ [] := by
    intro g hg
    obtain ⟨_, hnext⟩ := h.exists_next g hg
    exact hnext.text_ne_nil
  have hp : ∀ i, decide (RecordedAt source i) = true ↔ StrayBehind gs i := by
    intro i
    rw [decide_eq_true_iff, recordedAt_iff h]
  have hmap := mapIdx_flatMap_text hgs left (fun i => decide (RecordedAt source i)) hp
  rw [h.flatMap_append] at hmap
  rw [blanked, String.toList_ofList, ← hmap]
  simp only [decide_eq_true_eq]

/--
**An unexpected character is as good as a blank.** With a space for every character that has been
recorded, a scan fails in the same way, or yields the same tokens and has nothing to record.
-/
theorem scan_blanked (source : String) :
    scan (blanked source) = (scan source).map fun s => { s with errors := [] } := by
  obtain ⟨gs, left, h⟩ := exists_cutting source.toList
  have hblanked := h.blanked
  rw [← toList_blanked h] at hblanked
  have hlines : (blanked source).toList.count '\n' = source.toList.count '\n' := by
    rw [toList_blanked h]
    exact count_lineFeed_of_spaced h.spaced
  rw [scan_eq_of_cutting hblanked, scan_eq_of_cutting h, Segment.tokens_blanked h.valid,
    Segment.errors_blanked, hlines]
  split
  · rfl
  · rfl

end Lox

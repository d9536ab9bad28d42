import Lox.Proofs.Segmentation

/-!
# Every line is the line of its place

A lexer counts lines as it goes, and stamps its count on what it answers. Here the count is compared
with the text: the line of a place is one more than the line feeds before it, `lineAt`, and this is
what the lexer has counted after any number of steps, beyond the end and after a string that was
never closed too. What a step answers or records is on the line where it begins, however many lines
it goes on for; only the fault that ends a scan is on the last line.

A step either meets the end, or reads a segment, or reads all that is left. `Lexer.IsStep` says so
once, and what a step answers and records is read off these three cases. The lexer itself does not
keep the places of its faults, so the invariant goes along with a history of them: the places where
the steps began that have recorded one.
-/

namespace Lox

/-- The number of the line that a place is on. -/
def lineAt {source : String} (p : source.Pos) : Nat :=
  1 + (source.sliceTo p).copy.toList.count '\n'

/-- At this place stands a character that no rule matches. -/
def IsStray {source : String} (p : source.Pos) : Prop :=
  ∃ a, (Segment.stray a).Next (source.sliceFrom p).copy.toList

namespace Cursor

variable {source : String} {c d : Cursor source}

theorem lineAt_pos (c : Cursor source) : lineAt c.pos = 1 + c.consumed.count '\n' := rfl

theorem lineAt_pos_le (c : Cursor source) : lineAt c.pos ≤ 1 + source.toList.count '\n' := by
  rw [lineAt_pos, ← c.consumed_append_rest, List.count_append]
  omega

theorem lineAt_pos_of_rest_nil (h : c.rest = []) : lineAt c.pos = 1 + source.toList.count '\n' := by
  have hc := c.consumed_append_rest
  rw [h, List.append_nil] at hc
  rw [lineAt_pos, hc]

theorem Reads.line_eq_lineAt {s : List Char} (h : c.Reads d s) (hc : c.line = lineAt c.pos) :
    d.line = lineAt d.pos := by
  rw [h.line_eq, lineAt_pos, h.consumed_eq, List.count_append, hc, lineAt_pos, Nat.add_assoc]

theorem Reads.pos_lt {s : List Char} (h : c.Reads d s) (hs : s ≠ []) : c.pos < d.pos := by
  refine String.Pos.lt_of_le_of_ne h.pos_le fun hpos => hs ?_
  have hd : d.consumed = c.consumed := by rw [consumed, consumed, hpos]
  rw [h.consumed_eq] at hd
  exact List.append_right_eq_self.mp hd

theorem Reads.rest_eq_nil (h : c.Reads d c.rest) : d.rest = [] :=
  List.append_right_eq_self.mp h.rest_eq.symm

end Cursor

namespace Lexer

variable {source : String}

/-! ## What a step does -/

/-- The cases of a step from `l`: its answer, and the lexer after it. -/
inductive IsStep (l : Lexer source) : Stepped source → Prop
  | atEnd : l.cursor.rest = [] → IsStep l (.ok none, l)
  | segment {g : Segment} {l' : Lexer source} : g.Next l.cursor.rest →
      l.cursor.Reads l'.cursor g.text →
      l'.errors.toList = l.errors.toList ++ (g.error? l.cursor.line).toList →
      IsStep l (.ok (g.token? l.cursor.line), l')
  | openString {d : Cursor source} : l.cursor.rest ≠ [] → l.cursor.Reads d l.cursor.rest →
      IsStep l (.error (.unterminatedString d.line), { l with cursor := d })

theorem isStep_step (l : Lexer source) : l.IsStep l.step := by
  rw [step]
  cases hp : l.cursor.piece? with
  | none => exact .atEnd (Cursor.piece?_eq_none_iff.mp hp)
  | some r =>
    obtain ⟨o, d⟩ := r
    dsimp only
    cases Cursor.isPiece_of_piece? hp with
    | segment g hg hr =>
      rw [g.result_outcome]
      refine .segment hg hr ?_
      rw [toList_errors_after_outcome]
    | openString hc _ hr =>
      have hne : l.cursor.rest ≠ [] := hc ▸ List.cons_ne_nil _ _
      exact .openString hne hr

/-- A step reads the segment that can be cut where the lexer stands. -/
theorem step_of_next {l : Lexer source} {g : Segment} (h : g.Next l.cursor.rest) :
    l.step.1 = .ok (g.token? l.cursor.line) ∧ l.cursor.Reads l.step.2.cursor g.text ∧
      l.step.2.errors.toList = l.errors.toList ++ (g.error? l.cursor.line).toList := by
  obtain ⟨d, hp, hr⟩ := Cursor.piece?_of_next h
  rw [step, hp]
  refine ⟨g.result_outcome _, hr, ?_⟩
  rw [toList_errors_after_outcome]

/-- A stray character is read alone, and is recorded. -/
theorem step_of_stray {l : Lexer source} {a : Char} (h : (Segment.stray a).Next l.cursor.rest) :
    l.cursor.Reads l.step.2.cursor [a] ∧
      l.step.2.errors = l.errors.push (.unexpectedCharacter l.cursor.line) := by
  obtain ⟨_, hr, herrors⟩ := step_of_next h
  refine ⟨hr, Array.toList_inj.mp ?_⟩
  rw [herrors, Array.toList_push]
  rfl

/-- Nothing is recorded where no stray character stands. -/
theorem errors_step_of_not_isStray {l : Lexer source} (h : ¬ IsStray l.cursor.pos) :
    l.step.2.errors = l.errors := by
  have hstep := l.isStep_step
  generalize l.step = r at hstep
  cases hstep with
  | atEnd _ => rfl
  | @segment g l' hg _ herrors =>
    cases g with
    | matched r s => exact Array.toList_inj.mp (by simpa [Segment.error?] using herrors)
    | stray a => exact absurd ⟨a, hg⟩ h
  | openString _ _ => rfl

/-- A step reads some characters, or none at the end. -/
theorem exists_reads_step (l : Lexer source) :
    ∃ s, l.cursor.Reads l.step.2.cursor s ∧ (l.cursor.rest ≠ [] → s ≠ []) := by
  have hstep := l.isStep_step
  generalize l.step = r at hstep
  cases hstep with
  | atEnd hrest => exact ⟨[], .nil _, fun hne => absurd hrest hne⟩
  | segment hg hr _ => exact ⟨_, hr, fun _ => hg.text_ne_nil⟩
  | openString hne hr => exact ⟨_, hr, fun _ => hne⟩

def afterSteps (l : Lexer source) : Nat → Lexer source
  | 0 => l
  | n + 1 => l.step.2.afterSteps n

theorem afterSteps_succ (l : Lexer source) (n : Nat) :
    l.afterSteps (n + 1) = (l.afterSteps n).step.2 := by
  induction n generalizing l with
  | zero => rfl
  | succ n ih => exact ih l.step.2

theorem exists_reads_afterSteps (l : Lexer source) (n : Nat) :
    ∃ s, l.cursor.Reads (l.afterSteps n).cursor s := by
  induction n with
  | zero => exact ⟨[], .nil _⟩
  | succ n ih =>
    obtain ⟨s, hs⟩ := ih
    obtain ⟨t, ht, -⟩ := (l.afterSteps n).exists_reads_step
    rw [afterSteps_succ]
    exact ⟨s ++ t, hs.trans ht⟩

/-- Each of the next steps is the step of the lexer that the steps before it have led to. -/
theorem steps_eq_map (l : Lexer source) (n : Nat) :
    l.steps n = (List.range n).map fun i => (l.afterSteps i).step := by
  induction n generalizing l with
  | zero => rfl
  | succ n ih =>
    rw [steps, ih, List.range_succ_eq_map, List.map_cons, List.map_map]
    rfl

/-! ## The invariant -/

/-- The place where the step from `l` begins, if it records a fault. -/
def recordedPlace? (l : Lexer source) : Option source.Pos :=
  if l.step.2.errors = l.errors then none else some l.cursor.pos

/-- The places where those of the next steps begin that record a fault. -/
def recordedPlaces (l : Lexer source) (n : Nat) : List source.Pos :=
  (List.range n).filterMap fun i => (l.afterSteps i).recordedPlace?

theorem recordedPlaces_succ (l : Lexer source) (n : Nat) :
    l.recordedPlaces (n + 1) =
      l.recordedPlaces n ++ (l.afterSteps n).recordedPlace?.toList := by
  rw [recordedPlaces, List.range_succ, List.filterMap_append, recordedPlaces]
  cases h : (l.afterSteps n).recordedPlace? <;> simp [h]

/-- The lexer, and what it has recorded at the places `ps`, are on the lines of their places. -/
structure LinesTracked (l : Lexer source) (ps : List source.Pos) : Prop where
  line_eq : l.line = lineAt l.cursor.pos
  /-- There is one fault for each of the places, on its line. -/
  errors_eq : l.errors.toList = ps.map fun p => .unexpectedCharacter (lineAt p)
  /-- The faults are in the order of the text. -/
  sorted : ps.Pairwise (· < ·)
  /-- They belong to stray characters that have been read. -/
  passed : ∀ p ∈ ps, p < l.cursor.pos ∧ IsStray p

/-- What the next step answers and records is on the line of its place. -/
structure StepTracked (l : Lexer source) : Prop where
  /-- A token is what is read by the step, and is on the line where that begins. -/
  token : ∀ t, l.step.1 = .ok (some t) →
    t.lexeme = l.step.2.cursor.textFrom l.cursor.pos ∧ t.line = lineAt l.cursor.pos
  /-- The fault that ends a scan is on the last line. -/
  fault : ∀ e, l.step.1 = .error e → e = .unterminatedString (1 + source.toList.count '\n')
  /-- A stray character is read alone, and one fault is recorded on its line. -/
  stray : ∀ a, (Segment.stray a).Next l.cursor.rest → l.cursor.Reads l.step.2.cursor [a] ∧
    l.step.2.errors = l.errors.push (.unexpectedCharacter (lineAt l.cursor.pos))
  /-- Nothing else is recorded. -/
  not_stray : (∀ a, ¬ (Segment.stray a).Next l.cursor.rest) → l.step.2.errors = l.errors

theorem linesTracked_start (source : String) : (start source).LinesTracked [] := by
  have hline : (start source).line = lineAt (start source).cursor.pos := by
    rw [Cursor.lineAt_pos, start, Cursor.consumed_start]
    rfl
  exact ⟨hline, rfl, .nil, by simp⟩

theorem stepTracked_of_line_eq {l : Lexer source} (h : l.line = lineAt l.cursor.pos) :
    l.StepTracked where
  token t ht := by
    have hstep := l.isStep_step
    generalize l.step = r at ht hstep
    cases hstep with
    | atEnd _ => exact absurd ht (by simp)
    | segment _ hreads _ =>
      obtain ⟨k, _, rfl⟩ := Option.map_eq_some_iff.mp (Except.ok.inj ht)
      exact ⟨hreads.textFrom_eq.symm, h⟩
    | openString _ _ => exact absurd ht (by simp)
  fault e he := by
    have hstep := l.isStep_step
    generalize l.step = r at he hstep
    cases hstep with
    | atEnd _ => exact absurd he (by simp)
    | segment _ _ _ => exact absurd he (by simp)
    | openString _ hreads =>
      rw [← Except.error.inj he, ← Cursor.lineAt_pos_of_rest_nil hreads.rest_eq_nil,
        hreads.line_eq_lineAt h]
  stray a ha := by
    rw [← h]
    exact step_of_stray ha
  not_stray hn := errors_step_of_not_isStray fun ⟨a, ha⟩ => hn a ha

/-- **Preserved by every step.** The history is one place longer if the step records a fault. -/
theorem LinesTracked.step {l : Lexer source} {ps : List source.Pos} (h : l.LinesTracked ps) :
    l.step.2.LinesTracked (ps ++ l.recordedPlace?.toList) := by
  obtain ⟨s, hr, _⟩ := l.exists_reads_step
  have hline := hr.line_eq_lineAt h.line_eq
  have hpassed : ∀ p ∈ ps, p < l.step.2.cursor.pos ∧ IsStray p := fun p hp =>
    ⟨String.Pos.lt_of_lt_of_le (h.passed p hp).1 hr.pos_le, (h.passed p hp).2⟩
  by_cases hstray : IsStray l.cursor.pos
  · obtain ⟨a, ha⟩ := hstray
    obtain ⟨hreads, herrors⟩ := (stepTracked_of_line_eq h.line_eq).stray a ha
    -- one more place, where the step began and behind all the others
    have hplace : l.recordedPlace? = some l.cursor.pos := by simp [recordedPlace?, herrors]
    rw [hplace, Option.toList_some]
    refine ⟨hline, ?_, ?_, ?_⟩
    · rw [herrors, Array.toList_push, h.errors_eq, List.map_append, List.map_singleton]
    · rw [List.pairwise_append]
      refine ⟨h.sorted, List.pairwise_singleton _ _, fun p hp q hq => ?_⟩
      rw [List.mem_singleton.mp hq]
      exact (h.passed p hp).1
    · intro p hp
      rcases List.mem_append.mp hp with hp | hp
      · exact hpassed p hp
      · rw [List.mem_singleton.mp hp]
        exact ⟨hreads.pos_lt (List.cons_ne_nil _ _), a, ha⟩
  · have herrors := errors_step_of_not_isStray hstray
    have hplace : l.recordedPlace? = none := if_pos herrors
    rw [hplace, Option.toList_none, List.append_nil]
    exact ⟨hline, by rw [herrors, h.errors_eq], h.sorted, hpassed⟩

/-- No line is counted beyond the last. -/
theorem LinesTracked.line_le {l : Lexer source} {ps : List source.Pos} (h : l.LinesTracked ps) :
    l.line ≤ 1 + source.toList.count '\n' := by
  rw [h.line_eq]
  exact l.cursor.lineAt_pos_le

/-- From the start on, the history is that of the steps that have been made. -/
theorem linesTracked_afterSteps (source : String) (n : Nat) :
    ((start source).afterSteps n).LinesTracked ((start source).recordedPlaces n) := by
  induction n with
  | zero => exact linesTracked_start source
  | succ n ih =>
    rw [afterSteps_succ, recordedPlaces_succ]
    exact ih.step

end Lexer

/-! ## Lines do not go back -/

namespace Segment

theorem le_of_mem_numbered {line : Nat} {gs : List Segment} {p : Nat × Segment}
    (h : p ∈ numbered line gs) : line ≤ p.1 ∧ p.1 ≤ line + (gs.flatMap text).count '\n' := by
  induction gs generalizing line with
  | nil => exact absurd h List.not_mem_nil
  | cons g gs ih =>
    rw [List.flatMap_cons, List.count_append]
    rcases List.mem_cons.mp h with rfl | h
    · exact ⟨Nat.le_refl _, Nat.le_add_right _ _⟩
    · have := ih h
      omega

theorem pairwise_numbered (line : Nat) (gs : List Segment) :
    (numbered line gs).Pairwise fun p q => p.1 ≤ q.1 := by
  induction gs generalizing line with
  | nil => exact .nil
  | cons g gs ih =>
    refine .cons (fun q hq => ?_) (ih _)
    have := (le_of_mem_numbered hq).1
    show line ≤ q.1
    omega

theorem line_of_token? {line : Nat} {g : Segment} {t : Token} (h : g.token? line = some t) :
    t.line = line := by
  obtain ⟨k, _, rfl⟩ := Option.map_eq_some_iff.mp h
  rfl

theorem line_of_error? {line : Nat} {g : Segment} {e : ScanError} (h : g.error? line = some e) :
    e.line = line := by
  cases g with
  | matched r s => exact absurd h (by simp [error?])
  | stray a => rw [← Option.some.inj h]; rfl

theorem pairwise_tokens (line : Nat) (gs : List Segment) :
    (tokens line gs).Pairwise fun t u => t.line ≤ u.line := by
  refine (pairwise_numbered line gs).filterMap _ fun p q hpq t ht u hu => ?_
  rw [line_of_token? ht, line_of_token? hu]
  exact hpq

theorem pairwise_errors (line : Nat) (gs : List Segment) :
    (errors line gs).Pairwise fun e f => e.line ≤ f.line := by
  refine (pairwise_numbered line gs).filterMap _ fun p q hpq e he f hf => ?_
  rw [line_of_error? he, line_of_error? hf]
  exact hpq

theorem line_le_of_mem_tokens {line : Nat} {gs : List Segment} {t : Token}
    (h : t ∈ tokens line gs) : t.line ≤ line + (gs.flatMap text).count '\n' := by
  obtain ⟨p, hp, ht⟩ := List.mem_filterMap.mp h
  rw [line_of_token? ht]
  exact (le_of_mem_numbered hp).2

end Segment

/-- The lines of a scan that succeeds, in the order of the text. -/
structure Scanned.LinesOrdered (s : Scanned) (last : Nat) : Prop where
  getLast?_tokens : s.tokens.getLast? = some (.endOfText last)
  tokens : s.tokens.Pairwise fun t u => t.line ≤ u.line
  errors : s.errors.Pairwise fun e f => e.line ≤ f.line

/-- What a scan yields is ordered by lines, from the first to the last of the text. -/
theorem linesOrdered_of_scan {source : String} {s : Scanned} (h : scan source = .ok s) :
    s.LinesOrdered (1 + source.toList.count '\n') := by
  obtain ⟨gs, hcut, htokens, herrors⟩ := exists_cutting_of_scan h
  have htext := hcut.flatMap_append
  rw [List.append_nil] at htext
  refine ⟨by simp [htokens], ?_, herrors ▸ Segment.pairwise_errors 1 gs⟩
  -- the token for the end is on the last line, and no other token is on a later one
  rw [htokens, List.pairwise_append]
  refine ⟨Segment.pairwise_tokens 1 gs, List.pairwise_singleton _ _, fun t ht u hu => ?_⟩
  rw [List.mem_singleton.mp hu, ← htext]
  exact Segment.line_le_of_mem_tokens ht

/--
**Every line is the line of its place.** After any number of steps, the lexer is on the line of its
place, and has recorded one fault for each step that read a stray character, on the line of that
character. What the next step answers and records is on the line of its place too. The lines of a
scan that succeeds are in order and end with the last one.
-/
theorem lines_tracked (source : String) :
    (∀ n, ((Lexer.start source).afterSteps n).LinesTracked
        ((Lexer.start source).recordedPlaces n) ∧
      ((Lexer.start source).afterSteps n).StepTracked ∧
      ((Lexer.start source).afterSteps n).line ≤ 1 + source.toList.count '\n') ∧
    ∀ s, scan source = .ok s → s.LinesOrdered (1 + source.toList.count '\n') := by
  refine ⟨fun n => ?_, fun s => linesOrdered_of_scan⟩
  have h := Lexer.linesTracked_afterSteps source n
  exact ⟨h, Lexer.stepTracked_of_line_eq h.line_eq, h.line_le⟩

-- no step begins at the character in the comment, and its line is not recorded
example : ((Lexer.start "//@\n@").afterSteps 3).errors = #[.unexpectedCharacter 2] := by cbv

end Lox

import Lox.Proofs.Stepping
import Lox.Scan.Log

/-!
# The log of a scan

What a scan tells about itself is an account of the cutting of its text: one event for each segment
that is a token or a stray character, in their order, and one more for how the scan came to its end.
The log also tells of a scan that fails, whose tokens nobody gets to see. It tells the truth there
too: a string that is never closed begins at the last quote of the text, and what was reported
before it is what a scan of the text before that quote reports and yields.

That cutting off the text at the quote does not change the segments before it is `Cutting.cut_off`:
a longest match stays one when less text follows it.
-/

namespace Lox

/-- The event of a token. -/
def Event.ofToken (t : Token) : Event := .token t.kind t.line t.lexeme

/-- The event of a fault that is passed over. -/
def Event.ofError (e : ScanError) : Event := .unexpected e.line

namespace Segment

/-- The event of a segment that starts on `line`. Blanks and comments have none. -/
def event? (line : Nat) (g : Segment) : Option Event :=
  match g.token? line with
  | some t => some (.ofToken t)
  | none => (g.error? line).map .ofError

/-- The events of segments, the first of which starts on `line`. -/
def events (line : Nat) (gs : List Segment) : List Event :=
  (numbered line gs).filterMap fun p => p.2.event? p.1

@[simp] theorem events_nil (line : Nat) : events line [] = [] := rfl

theorem events_cons (line : Nat) (g : Segment) (gs : List Segment) :
    events line (g :: gs) = (g.event? line).toList ++ events (line + g.text.count '\n') gs := by
  rw [events, numbered, List.filterMap_cons]
  cases g.event? line with
  | none => rfl
  | some ev => rfl

/-- No segment is a token and a fault. -/
theorem token?_eq_none_or (line : Nat) (g : Segment) :
    g.token? line = none ∨ g.error? line = none := by
  cases g with
  | matched r s => exact Or.inr rfl
  | stray a => exact Or.inl rfl

/-- The events of the more important kind are those of the faults, the others those of the tokens. -/
theorem filter_events (line : Nat) (gs : List Segment) :
    (events line gs).filter (fun ev => ev.importance = .trace) =
        (tokens line gs).map Event.ofToken ∧
      (events line gs).filter (fun ev => ev.importance = .debug) =
        (errors line gs).map Event.ofError := by
  induction gs generalizing line with
  | nil => exact ⟨rfl, rfl⟩
  | cons g gs ih =>
    obtain ⟨htrace, hdebug⟩ := ih (line + g.text.count '\n')
    rw [events_cons, tokens_cons, errors_cons, List.filter_append, List.filter_append, htrace,
      hdebug, List.map_append, List.map_append, event?]
    cases ht : g.token? line with
    | none =>
      cases g.error? line with
      | none => exact ⟨rfl, rfl⟩
      | some e => exact ⟨rfl, rfl⟩
    | some t =>
      rcases token?_eq_none_or line g with hn | hn
      · exact absurd (ht.symm.trans hn) (by simp)
      · rw [hn]
        exact ⟨rfl, rfl⟩

end Segment

/-! ## The loop follows the cutting -/

namespace Lexer

variable {source : String}

theorem logAfter_of_rest_nil {l : Lexer source} (h : l.cursor.rest = []) (tokens : Nat)
    (events : Array Event) :
    l.logAfter tokens events = events.push (.finished (tokens + 1) l.errors.size) := by
  have hp := Cursor.piece?_eq_none_iff.mpr h
  rw [logAfter]
  split
  · rfl
  · next hs => exact absurd (hp.symm.trans hs) (by simp)

/-- One turn of the loop, where a piece can be read. -/
theorem logAfter_of_piece? {l : Lexer source} {o : Outcome} {c : Cursor source} (tokens : Nat)
    (events : Array Event) :
    l.cursor.piece? = some (o, c) →
    l.logAfter tokens events = match o with
      | .token t => (l.after o c).logAfter (tokens + 1) (events.push (.ofToken t))
      | .skipped => (l.after o c).logAfter tokens events
      | .unexpected line => (l.after o c).logAfter tokens (events.push (.unexpected line))
      | .unterminated line startLine => events.push (.unterminated line startLine) := by
  intro h
  rw [logAfter]
  split
  · next hs => exact absurd (h.symm.trans hs) (by simp)
  · next hs =>
    obtain ⟨rfl, rfl⟩ := Prod.mk.inj (Option.some.inj (h.symm.trans hs))
    cases o with
    | token t => rfl
    | skipped => rfl
    | unexpected line => rfl
    | unterminated line startLine => rfl

/-- One turn of the loop, where a segment can be cut. -/
theorem logAfter_of_next {l : Lexer source} {g : Segment} (h : g.Next l.cursor.rest)
    (tokens : Nat) (events : Array Event) :
    ∃ (l' : Lexer source) (events' : Array Event),
      l.logAfter tokens events =
        l'.logAfter (tokens + (g.token? l.cursor.line).toList.length) events' ∧
      l.cursor.Reads l'.cursor g.text ∧
      events'.toList = events.toList ++ (g.event? l.cursor.line).toList ∧
      l'.errors.toList = l.errors.toList ++ (g.error? l.cursor.line).toList := by
  obtain ⟨d, hp, hr⟩ := Cursor.piece?_of_next h
  have herr := l.toList_errors_after_outcome g l.cursor.line d
  refine ⟨l.after (g.outcome l.cursor.line) d, events ++ (g.event? l.cursor.line).toList, ?_, hr,
    by simp, herr⟩
  rw [logAfter_of_piece? _ _ hp, Segment.event?]
  generalize ho : g.outcome l.cursor.line = o
  rw [Segment.outcome] at ho
  cases ht : g.token? l.cursor.line with
  | some t =>
    rw [ht] at ho
    subst ho
    simp
  | none =>
    rw [ht] at ho
    cases he : g.error? l.cursor.line with
    | some e =>
      rw [he] at ho
      subst ho
      simp [Event.ofError]
    | none =>
      rw [he] at ho
      subst ho
      simp

/--
The loop, from any lexer on: the events of the cutting, and then how it ends. A scan that comes to
the end sums up; one that does not names the lines where the open string ends and begins.
-/
theorem logAfter_of_cutting {text left : List Char} {gs : List Segment}
    (h : Cutting text gs left) :
    ∀ (l : Lexer source) (n : Nat) (events : Array Event), l.cursor.rest = text →
      (left = [] → (l.logAfter n events).toList =
        events.toList ++ Segment.events l.cursor.line gs ++
          [.finished (n + (Segment.tokens l.cursor.line gs).length + 1)
            (l.errors.size + (Segment.errors l.cursor.line gs).length)]) ∧
      (left ≠ [] → (l.logAfter n events).toList =
        events.toList ++ Segment.events l.cursor.line gs ++
          [.unterminated (l.cursor.line + text.count '\n')
            (l.cursor.line + (gs.flatMap Segment.text).count '\n')]) := by
  induction h with
  | finished =>
    intro l n events hl
    refine ⟨fun _ => ?_, fun hne => absurd rfl hne⟩
    rw [logAfter_of_rest_nil hl]
    simp
  | @openString text hn =>
    intro l n events hl
    refine ⟨fun hnil => absurd hnil (by simp), fun _ => ?_⟩
    obtain ⟨d, hp, hr⟩ := Cursor.piece?_of_openString hl (noMatch_quote_iff.mp hn)
    rw [logAfter_of_piece? _ _ hp, hr.line_eq, hl]
    simp
  | @segment g rest left gs hg _ ih =>
    -- one turn leads to a lexer that stands before the rest, with the segment reported
    intro l n events hl
    rw [← hl] at hg
    obtain ⟨l', events', hturn, hr, hevents, herrors⟩ := logAfter_of_next hg n events
    have hrest : l'.cursor.rest = rest := hr.rest_of_append hl
    have hsize : l'.errors.size = l.errors.size + (g.error? l.cursor.line).toList.length := by
      rw [← Array.length_toList, herrors, List.length_append, Array.length_toList]
    obtain ⟨hend, hopen⟩ := ih l' (n + (g.token? l.cursor.line).toList.length) events' hrest
    rw [hr.line_eq, hevents, hsize] at hend
    rw [hr.line_eq, hevents] at hopen
    rw [hturn, Segment.events_cons, Segment.tokens_cons, Segment.errors_cons, List.length_append,
      List.length_append, List.count_append, List.flatMap_cons, List.count_append]
    refine ⟨fun hnil => ?_, fun hne => ?_⟩
    · rw [hend hnil]
      simp only [List.append_assoc, Nat.add_assoc]
    · rw [hopen hne]
      simp only [List.append_assoc, Nat.add_assoc]

end Lexer

/-! ## The log of a text -/

/-- The log of a text, with what is reported between its first two and its last two events. -/
def Logged (source : String) (events : List Event) (last : Event) : Prop :=
  scanLog source = .opened source.utf8ByteSize :: .entered :: events ++ [last, .exited]

theorem logged_of_cutting {source : String} {gs : List Segment} (h : Cutting source.toList gs []) :
    Logged source (Segment.events 1 gs)
      (.finished ((Segment.tokens 1 gs).length + 1) (Segment.errors 1 gs).length) := by
  have hlog := (Lexer.logAfter_of_cutting h (.start source) 0
    #[.opened source.utf8ByteSize, .entered] (Cursor.rest_start source)).1 rfl
  rw [Logged, scanLog, Array.toList_push, hlog]
  simp [Lexer.start, Cursor.start]

theorem logged_of_cutting_openString {source : String} {gs : List Segment} {left : List Char}
    (h : Cutting source.toList gs left) (hne : left ≠ []) :
    Logged source (Segment.events 1 gs)
      (.unterminated (1 + source.toList.count '\n')
        (1 + (gs.flatMap Segment.text).count '\n')) := by
  have hlog := (Lexer.logAfter_of_cutting h (.start source) 0
    #[.opened source.utf8ByteSize, .entered] (Cursor.rest_start source)).2 hne
  rw [Logged, scanLog, Array.toList_push, hlog]
  simp [Lexer.start, Cursor.start]

/-! ## Events are in the order of the text -/

/-- The event of the token that a step answers with, or of the fault that it records. -/
inductive Lexer.StepReports {source : String} (l : Lexer source) : Event → Prop
  | token {t : Token} : l.step.1 = .ok (some t) → StepReports l (.ofToken t)
  | fault {e : ScanError} : l.step.2.errors = l.errors.push e → StepReports l (.ofError e)

/-- A step that begins at this place reports `ev`. -/
def IsReported {source : String} (p : source.Pos) (ev : Event) : Prop :=
  ∃ n, ((Lexer.start source).afterSteps n).cursor.pos = p ∧
    ((Lexer.start source).afterSteps n).StepReports ev

/-- The events belong to places of the text, each behind the one before. -/
def ReportedInOrder (source : String) (events : List Event) : Prop :=
  ∃ ps : List source.Pos, ps.Pairwise (· < ·) ∧ List.Forall₂ IsReported ps events

theorem Lexer.stepReports_of_next {source : String} {l : Lexer source} {g : Segment} {ev : Event}
    (h : g.Next l.cursor.rest) (hev : g.event? l.cursor.line = some ev) : l.StepReports ev := by
  obtain ⟨hanswer, _, herrors⟩ := step_of_next h
  rw [Segment.event?] at hev
  cases ht : g.token? l.cursor.line with
  | some t =>
    rw [ht] at hanswer hev
    rw [← Option.some.inj hev]
    exact .token hanswer
  | none =>
    rw [ht] at hev
    obtain ⟨e, he, rfl⟩ := Option.map_eq_some_iff.mp hev
    refine .fault (Array.toList_inj.mp ?_)
    rw [herrors, he, Array.toList_push]
    rfl

/-- Where the segments of a cutting begin, from the step on that stands before the first of them. -/
theorem exists_places {source : String} {text left : List Char} {gs : List Segment}
    (h : Cutting text gs left) :
    ∀ n, ((Lexer.start source).afterSteps n).cursor.rest = text →
      ∃ ps : List source.Pos, ps.Pairwise (· < ·) ∧
        (∀ p ∈ ps, ((Lexer.start source).afterSteps n).cursor.pos ≤ p) ∧
        List.Forall₂ IsReported ps
          (Segment.events ((Lexer.start source).afterSteps n).cursor.line gs) := by
  induction h with
  | finished => exact fun n _ => ⟨[], .nil, by simp, .nil⟩
  | openString _ => exact fun n _ => ⟨[], .nil, by simp, .nil⟩
  | @segment g rest left gs hg _ ih =>
    intro n hn
    rw [← hn] at hg
    have hr := (Lexer.step_of_next hg).2.1
    have hrest : ((Lexer.start source).afterSteps n).step.2.cursor.rest = rest :=
      hr.rest_of_append hn
    have hlt := hr.pos_lt hg.text_ne_nil
    rw [← Lexer.afterSteps_succ] at hrest hr hlt
    obtain ⟨ps, hsorted, hps, hreported⟩ := ih (n + 1) hrest
    have hbehind : ∀ p ∈ ps, ((Lexer.start source).afterSteps n).cursor.pos < p := fun p hp =>
      String.Pos.lt_of_lt_of_le hlt (hps p hp)
    rw [hr.line_eq] at hreported
    rw [Segment.events_cons]
    cases hev : g.event? ((Lexer.start source).afterSteps n).cursor.line with
    | none => exact ⟨ps, hsorted, fun p hp => String.Pos.le_of_lt (hbehind p hp), hreported⟩
    | some ev =>
      refine ⟨_ :: ps, .cons hbehind hsorted, fun p hp => ?_, .cons ⟨n, rfl, ?_⟩ hreported⟩
      · rcases List.mem_cons.mp hp with rfl | hp
        · exact String.Pos.le_refl _
        · exact String.Pos.le_of_lt (hbehind p hp)
      · exact Lexer.stepReports_of_next hg hev

theorem reportedInOrder_of_cutting {source : String} {gs : List Segment} {left : List Char}
    (h : Cutting source.toList gs left) : ReportedInOrder source (Segment.events 1 gs) := by
  obtain ⟨ps, hsorted, _, hreported⟩ := exists_places h 0 (Cursor.rest_start source)
  exact ⟨ps, hsorted, hreported⟩

/-! ## The account -/

/-- What is reported of a scan that succeeds, and how it sums up. -/
structure Scanned.Accounted (s : Scanned) (events : List Event) (last : Event) : Prop where
  /-- The token for the end of the text is the last one, and is not reported. -/
  trace : events.filter (fun ev => ev.importance = .trace) = s.tokens.dropLast.map .ofToken
  debug : events.filter (fun ev => ev.importance = .debug) = s.errors.map .ofError
  last : last = .finished s.tokens.length s.errors.length

theorem accounted_of_cutting {source : String} {gs : List Segment}
    (h : Cutting source.toList gs []) :
    ∃ s, scan source = .ok s ∧
      s.tokens.getLast? = some (.endOfText (1 + source.toList.count '\n')) ∧
      s.Accounted (Segment.events 1 gs)
        (.finished ((Segment.tokens 1 gs).length + 1) (Segment.errors 1 gs).length) := by
  obtain ⟨htrace, hdebug⟩ := Segment.filter_events 1 gs
  refine ⟨_, scan_of_cutting h, by simp, ?_, hdebug, by simp⟩
  rw [htrace, List.dropLast_concat]

/-- A text has one last quote. -/
theorem eq_of_append_quote_eq {p p' q q' : List Char} (hq : '"' ∉ q) (hq' : '"' ∉ q')
    (h : p ++ '"' :: q = p' ++ '"' :: q') : p = p' ∧ q = q' := by
  rcases List.append_eq_append_iff.mp h with ⟨r, rfl, hr⟩ | ⟨r, rfl, hr⟩
  · cases r with
    | nil => exact ⟨(List.append_nil p).symm, (List.cons.inj hr).2⟩
    | cons b r => exact absurd (by rw [(List.cons.inj hr).2]; simp) hq
  · cases r with
    | nil => exact ⟨List.append_nil p', ((List.cons.inj hr).2).symm⟩
    | cons b r => exact absurd (by rw [(List.cons.inj hr).2]; simp) hq'

/--
Where the string that is never closed opens: `source` is `p`, a quote and `q`, and a step that
begins behind `p` is answered with the fault `e`.
-/
structure OpensAt (source p q : String) (e : ScanError) : Prop where
  source_eq : source = p ++ "\"" ++ q
  quote_notMem : '"' ∉ q.toList
  step : ∃ n, ((Lexer.start source).afterSteps n).position = p.utf8ByteSize ∧
    ((Lexer.start source).afterSteps n).step.1 = .error e

/-- No other quote has no quote behind it. -/
theorem OpensAt.unique {source p p' q q' : String} {e : ScanError} (h : OpensAt source p q e)
    (h' : source = p' ++ "\"" ++ q') (hq' : '"' ∉ q'.toList) : p' = p ∧ q' = q := by
  have hs := congrArg String.toList (h'.symm.trans h.source_eq)
  simp only [String.toList_append, List.append_assoc] at hs
  obtain ⟨hp, hq⟩ := eq_of_append_quote_eq hq' h.quote_notMem hs
  exact ⟨String.toList_inj.mp hp, String.toList_inj.mp hq⟩

theorem opensAt_of_cutting {source : String} {gs : List Segment} {q : List Char}
    (h : Cutting source.toList gs ('"' :: q)) (hq : '"' ∉ q) {e : ScanError}
    (he : scan source = .error e) :
    OpensAt source (String.ofList (gs.flatMap Segment.text)) (String.ofList q) e := by
  obtain ⟨hrest, hconsumed⟩ :=
    Lexer.afterSteps_of_cutting h (.start source) (Cursor.rest_start source)
  obtain ⟨e', he'⟩ := Lexer.step_of_openString hrest hq
  have hscan : scan source = .error e' := Lexer.finish_of_afterSteps_error he'
  obtain rfl : e = e' := Except.error.inj (he.symm.trans hscan)
  refine ⟨?_, by rwa [String.toList_ofList], gs.length, ?_, he'⟩
  · apply String.toList_inj.mp
    simp [← h.flatMap_append]
  · rw [Lexer.position, Cursor.position_eq, hconsumed]
    simp [Lexer.start]

/--
**The log of a scan is a faithful account of it.** Its events are in the order of the text. Those of
a scan that succeeds are its tokens and its faults, and it sums them up. A scan that fails reports
what a scan of the text before the open string reports and yields, and then where that string begins
and where the text ends.
-/
theorem scanLog_faithful (source : String) :
    ∃ events last, Logged source events last ∧ ReportedInOrder source events ∧
      (∀ s, scan source = .ok s → s.Accounted events last) ∧
      (∀ e, scan source = .error e → ∃ p q, OpensAt source p q e ∧
        (∀ p' q', source = p' ++ "\"" ++ q' → '"' ∉ q'.toList → p' = p ∧ q' = q) ∧
        ∃ s startLine last', scan p = .ok s ∧
          s.tokens.getLast? = some (.endOfText startLine) ∧
          Logged p events last' ∧ s.Accounted events last' ∧
          last = .unterminated e.line startLine) := by
  obtain ⟨gs, left, h⟩ := exists_cutting source.toList
  by_cases hleft : left = []
  · subst hleft
    refine ⟨_, _, logged_of_cutting h, reportedInOrder_of_cutting h, fun s hs => ?_, fun e he => ?_⟩
    · obtain ⟨s', hs', _, haccount⟩ := accounted_of_cutting h
      obtain rfl := Except.ok.inj (hs.symm.trans hs')
      exact haccount
    · rw [scan_of_cutting h] at he
      exact absurd he (by simp)
  · refine ⟨_, _, logged_of_cutting_openString h hleft, reportedInOrder_of_cutting h,
      fun s hs => ?_, fun e he => ?_⟩
    · rw [scan_of_cutting_openString h hleft] at hs
      exact absurd hs (by simp)
    · obtain ⟨q, rfl, hq⟩ := h.left_eq hleft
      -- the text before the quote has the same segments and comes to its end
      have hbefore : Cutting (String.ofList (gs.flatMap Segment.text)).toList gs [] := by
        rw [String.toList_ofList]
        exact h.cut_off
      obtain ⟨s, hs, hend, haccount⟩ := accounted_of_cutting hbefore
      have hopens := opensAt_of_cutting h hq he
      refine ⟨_, _, hopens, fun p' q' => hopens.unique, s, _, _, hs, hend,
        logged_of_cutting hbefore, haccount, ?_⟩
      rw [scan_of_cutting_openString h hleft] at he
      rw [← Except.error.inj he, String.toList_ofList]
      rfl

end Lox

import Lox.Proofs.LineByLine
import Lox.Proofs.Stepping
import Mathlib.Data.List.Forall2

/-!
# Where a step ends

A lexer that has made some steps stands between two segments of its text. What it has read is a row
of segments, and here such a row is looked at together with what follows it: `Leading gs rest` says
that the segments are cut one after the other when `rest` stands behind them. A row may be continued
by a cutting of what follows, so a text can be changed behind the row, or the row itself, without
going through the other part again.

What follows may be exchanged for another text as long as the last segment stops before that too.
All segments but the last see it only behind a point, where it must not begin with a new digit.
-/

namespace Lox

/-- The segments are cut one after the other, with `rest` behind the last of them. -/
inductive Leading : List Segment → List Char → Prop where
  | nil {rest : List Char} : Leading [] rest
  | cons {g : Segment} {gs : List Segment} {rest : List Char} :
      g.Next (g.text ++ (gs.flatMap Segment.text ++ rest)) → Leading gs rest →
      Leading (g :: gs) rest

namespace Leading

theorem append {gs hs : List Segment} {rest : List Char}
    (h : Leading gs (hs.flatMap Segment.text ++ rest)) (h' : Leading hs rest) :
    Leading (gs ++ hs) rest := by
  generalize ht : hs.flatMap Segment.text ++ rest = t at h
  induction h with
  | nil => exact h'
  | cons hg _ ih =>
    refine .cons ?_ (ih ht)
    show Segment.Next (_ ++ ((_ ++ hs).flatMap Segment.text ++ rest)) _
    rw [List.flatMap_append, List.append_assoc, ht]
    exact hg

theorem of_append {gs hs : List Segment} {rest : List Char} (h : Leading (gs ++ hs) rest) :
    Leading gs (hs.flatMap Segment.text ++ rest) ∧ Leading hs rest := by
  induction gs with
  | nil => exact ⟨.nil, h⟩
  | cons g gs ih =>
    rw [List.cons_append] at h
    cases h with
    | cons hg h =>
      obtain ⟨hgs, hhs⟩ := ih h
      rw [List.flatMap_append, List.append_assoc] at hg
      exact ⟨.cons hg hgs, hhs⟩

/-- A row of segments and the cutting of what follows make the cutting of the whole. -/
theorem cutting {gs hs : List Segment} {rest left : List Char} (h : Leading gs rest)
    (h' : Cutting rest hs left) :
    Cutting (gs.flatMap Segment.text ++ rest) (gs ++ hs) left := by
  induction h with
  | nil => exact h'
  | cons hg _ ih =>
    rw [List.flatMap_cons, List.append_assoc]
    exact .segment hg (ih h')

/-- **Another text may follow** if the last segment stops before it, and it brings no new digit. -/
theorem of_stops {gs : List Segment} {t t' : List Char} (h : Leading gs t)
    (hlast : ∀ g ∈ gs.getLast?, g.Stops t → g.Stops t')
    (hdigit : ∀ d ∈ t'.head?, d.isDigit = true → d ∈ t.head?) : Leading gs t' := by
  induction h with
  | nil => exact .nil
  | @cons g gs t hg _ ih =>
    cases gs with
    | nil =>
      obtain ⟨hvalid, hstops⟩ := Segment.next_append_iff.mp hg
      exact .cons (Segment.next_append_iff.mpr ⟨hvalid, hlast g rfl hstops⟩) .nil
    | cons g' gs =>
      have hrow : Leading (g' :: gs) t' := ih (by rwa [List.getLast?_cons_cons] at hlast) hdigit
      refine .cons ?_ hrow
      -- behind `g` comes the same character as before
      have hne : g'.text ≠ [] := by
        cases hrow with
        | cons hg' _ => exact hg'.text_ne_nil
      obtain ⟨a, s, hs⟩ := List.exists_cons_of_ne_nil hne
      rw [List.flatMap_cons, hs, List.cons_append, List.cons_append] at hg ⊢
      refine hg.of_cons fun _ d hd hdd => ?_
      generalize s ++ gs.flatMap Segment.text = u at hd ⊢
      cases u with
      | nil => exact hdigit d hd hdd
      | cons b u => exact hd

/-- What follows may change behind its first character, unless that is a point. -/
theorem of_cons {gs : List Segment} {a : Char} {t t' : List Char} (h : Leading gs (a :: t))
    (ha : a ≠ '.') : Leading gs (a :: t') := by
  refine h.of_stops (fun g _ hg => ?_) fun d hd _ => hd
  cases g with
  | matched r s => exact Rule.Stops.of_cons hg fun hpoint => absurd hpoint ha
  | stray b => trivial

/-- The end of a line may follow. -/
theorem of_endOfLine {gs : List Segment} {t t' : List Char} (h : Leading gs t)
    (ht : ∀ c ∈ t'.head?, c = '\n') : Leading gs t' := by
  refine h.of_stops (fun g _ _ => ?_) fun d hd hdigit => ?_
  · cases g with
    | matched r s => exact r.stops_of_endOfLine s ht
    | stray b => trivial
  · rw [ht d hd] at hdigit
    exact absurd hdigit (by decide)

end Leading

theorem Cutting.leading {text left : List Char} {gs : List Segment} (h : Cutting text gs left) :
    Leading gs left := by
  induction h with
  | finished => exact .nil
  | openString _ => exact .nil
  | segment hg hrest ih =>
    rw [← hrest.flatMap_append] at hg
    exact .cons hg ih

/-! ## Texts with the same end -/

/-- The same token, `k` lines further down, or up if `k` is negative. -/
structure Token.Moved (k : Int) (t t' : Token) : Prop where
  kind_eq : t'.kind = t.kind
  lexeme_eq : t'.lexeme = t.lexeme
  literal_eq : t'.literal = t.literal
  line_eq : (t'.line : Int) = t.line + k

/-- The same fault, `k` lines further down, or up if `k` is negative. -/
inductive ScanError.Moved (k : Int) : ScanError → ScanError → Prop
  | unexpectedCharacter {line line' : Nat} : (line' : Int) = line + k →
      Moved k (.unexpectedCharacter line) (.unexpectedCharacter line')
  | unterminatedString {line line' : Nat} : (line' : Int) = line + k →
      Moved k (.unterminatedString line) (.unterminatedString line')

/--
The results of two scans that begin with the same tokens and faults. Then the one has `mid` where
the other has `mid'`, and all that comes behind is the same but moved by `k` lines.
-/
structure MovedBehind (k : Int) (tokens : List Token) (errors : List ScanError)
    (mid mid' : List Token) (r r' : Except ScanError Scanned) : Prop where
  /-- Two tokens or faults that correspond are the same but for their lines. -/
  ok : ∀ s, r = .ok s → ∃ ts ts' es es',
    s = { tokens := tokens ++ mid ++ ts, errors := errors ++ es } ∧
    r' = .ok { tokens := tokens ++ mid' ++ ts', errors := errors ++ es' } ∧
    List.Forall₂ (Token.Moved k) ts ts' ∧ List.Forall₂ (ScanError.Moved k) es es'
  /-- If the one scan fails then so does the other, and its fault is the same further down. -/
  error : ∀ e, r = .error e → ∃ e', r' = .error e' ∧ e.Moved k e'

theorem Token.moved_below {m m' : Nat} {k : Int} (hk : k = m' - m) (t : Token) :
    Token.Moved k (t.below m) (t.below m') := by
  refine ⟨rfl, rfl, rfl, ?_⟩
  simp only [below]
  omega

theorem ScanError.moved_below {m m' : Nat} {k : Int} (hk : k = m' - m) (e : ScanError) :
    ScanError.Moved k (e.below m) (e.below m') := by
  cases e with
  | unexpectedCharacter line => exact .unexpectedCharacter (by omega)
  | unterminatedString line => exact .unterminatedString (by omega)

theorem forall₂_map_map {α β : Type} {R : β → β → Prop} {f g : α → β} (h : ∀ a, R (f a) (g a))
    (as : List α) : List.Forall₂ R (as.map f) (as.map g) := by
  rw [List.forall₂_map_left_iff, List.forall₂_map_right_iff, List.forall₂_same]
  exact fun a _ => h a

/-- The scan of a text, from its cutting. -/
theorem scan_eq_of_cutting {source : String} {gs : List Segment} {left : List Char}
    (h : Cutting source.toList gs left) :
    scan source = if left = [] then .ok
        { tokens := Segment.tokens 1 gs ++ [.endOfText (1 + source.toList.count '\n')]
          errors := Segment.errors 1 gs }
      else .error (.unterminatedString (1 + source.toList.count '\n')) := by
  split
  · next hleft => exact scan_of_cutting (hleft ▸ h)
  · next hleft => exact scan_of_cutting_openString h hleft

/--
**Texts with the same end.** When two texts are cut into different segments at first and into the
same ones from then on, what the scans make of the latter is moved by as many lines as the former
differ in.
-/
theorem Cutting.movedBehind {source source' : String} {gs gs' hs : List Segment}
    {left : List Char} (h : Cutting source.toList (gs ++ hs) left)
    (h' : Cutting source'.toList (gs' ++ hs) left) {tokens mid mid' : List Token}
    {errors : List ScanError} {k : Int} (ht : Segment.tokens 1 gs = tokens ++ mid)
    (ht' : Segment.tokens 1 gs' = tokens ++ mid') (he : Segment.errors 1 gs = errors)
    (he' : Segment.errors 1 gs' = errors)
    (hk : k = (gs'.flatMap Segment.text).count '\n' - (gs.flatMap Segment.text).count '\n') :
    MovedBehind k tokens errors mid mid' (scan source) (scan source') := by
  have hlines : ∀ {s : String} {fs : List Segment}, Cutting s.toList (fs ++ hs) left →
      1 + s.toList.count '\n' = (1 + (hs.flatMap Segment.text ++ left).count '\n') +
        (fs.flatMap Segment.text).count '\n' := by
    intro s fs hcut
    rw [← hcut.flatMap_append, List.flatMap_append, List.append_assoc, List.count_append]
    omega
  rw [scan_eq_of_cutting h, scan_eq_of_cutting h', hlines h, hlines h', Segment.tokens_append,
    Segment.tokens_append, Segment.errors_append, Segment.errors_append, Segment.tokens_add,
    Segment.tokens_add, Segment.errors_add, Segment.errors_add, ht, ht', he, he']
  -- from here on only the numbers of line feeds matter
  generalize (gs.flatMap Segment.text).count '\n' = m at hk ⊢
  generalize (gs'.flatMap Segment.text).count '\n' = m' at hk ⊢
  generalize 1 + (hs.flatMap Segment.text ++ left).count '\n' = last
  have hend : ∀ i, Token.endOfText (last + i) = (Token.endOfText last).below i := fun _ => rfl
  rw [hend, hend]
  by_cases hleft : left = []
  · rw [if_pos hleft, if_pos hleft]
    refine ⟨fun s hok => ?_, by simp⟩
    obtain rfl := Except.ok.inj hok
    refine ⟨(Segment.tokens 1 hs ++ [Token.endOfText last]).map (Token.below m), _,
      (Segment.errors 1 hs).map (ScanError.below m), _, ?_, ?_,
      forall₂_map_map (Token.moved_below hk) _, forall₂_map_map (ScanError.moved_below hk) _⟩
    · rw [List.map_append, List.append_assoc]
      rfl
    · rw [List.map_append, List.append_assoc]
      rfl
  · rw [if_neg hleft, if_neg hleft]
    refine ⟨by simp, fun e herr => ?_⟩
    obtain rfl := Except.error.inj herr
    exact ⟨_, rfl, ScanError.moved_below hk (.unterminatedString last)⟩

/-! ## What steps have read -/

/-- The place of a cursor splits the text as its number of bytes says. -/
theorem Cursor.split_of_position {source u : String} {c : Cursor source} {rest : List Char}
    (hs : source.toList = u.toList ++ rest) (hp : c.position = u.utf8ByteSize) :
    c.consumed = u.toList ∧ c.rest = rest := by
  have hsize : ∀ {s t w : List Char}, s = t ++ w →
      (String.ofList s).utf8ByteSize = (String.ofList t).utf8ByteSize → w = [] := by
    rintro _ t w rfl h
    rw [String.ofList_append, String.utf8ByteSize_append] at h
    have hw : (String.ofList w).utf8ByteSize = 0 := by omega
    rw [String.utf8ByteSize_eq_zero_iff] at hw
    rw [← String.toList_ofList (l := w), hw]
    rfl
  rw [c.position_eq] at hp
  have hu : (String.ofList u.toList).utf8ByteSize = u.utf8ByteSize := by
    rw [String.ofList_toList]
  rw [← hu] at hp
  rcases List.append_eq_append_iff.mp (c.consumed_append_rest.trans hs) with
    ⟨w, hw, hrest⟩ | ⟨w, hw, hrest⟩
  · obtain rfl := hsize hw hp.symm
    exact ⟨by simpa using hw.symm, by simpa using hrest⟩
  · obtain rfl := hsize hw hp
    exact ⟨by simpa using hw, by simpa using hrest.symm⟩

namespace Lexer

variable {source : String}

theorem rest_cursor_start (source : String) : (start source).cursor.rest = source.toList := by
  rw [start, Cursor.rest_start]

theorem consumed_cursor_start (source : String) : (start source).cursor.consumed = [] := by
  rw [start, Cursor.consumed_start]

theorem unbroken_iff {l : Lexer source} {n : Nat} :
    l.Unbroken n ↔ ((l.steps n).all fun r => r.1.isOk) = true := by
  rw [List.all_eq_true]
  refine forall₂_congr fun r _ => ?_
  cases r.1 with
  | ok t => simp [Except.isOk, Except.toBool]
  | error e => simp [Except.isOk, Except.toBool]

/-- The next `n` steps read these segments, and answer and record what they are. -/
structure StepsRead (l : Lexer source) (n : Nat) (gs : List Segment) : Prop where
  leading : Leading gs (l.afterSteps n).cursor.rest
  reads : l.cursor.Reads (l.afterSteps n).cursor (gs.flatMap Segment.text)
  tokens_eq : l.stepTokens n = Segment.tokens l.line gs
  errors_eq : (l.afterSteps n).errors.toList = l.errors.toList ++ Segment.errors l.line gs

/-- Steps that change nothing and answer with no token have read nothing. -/
theorem stepsRead_nil {l : Lexer source} {n : Nat} (h : l.afterSteps n = l)
    (htokens : l.stepTokens n = []) : l.StepsRead n [] where
  leading := .nil
  reads := by
    rw [h]
    exact .nil _
  tokens_eq := htokens
  errors_eq := by rw [h, Segment.errors_nil, List.append_nil]

theorem stepTokens_of_rest_nil {l : Lexer source} (h : l.cursor.rest = []) (n : Nat) :
    l.stepTokens n = [] := by
  have hstep := step_of_rest_nil h
  induction n with
  | zero => rfl
  | succ n ih =>
    rw [stepTokens_succ (t := none) (by rw [hstep]), hstep]
    exact ih

/-- A step that reads a segment, and the steps behind it. -/
theorem StepsRead.of_next {l : Lexer source} {g : Segment} {n : Nat} {gs : List Segment}
    (hg : g.Next l.cursor.rest) (h : l.step.2.StepsRead n gs) : l.StepsRead (n + 1) (g :: gs) := by
  obtain ⟨hanswer, hreads, herrors⟩ := step_of_next hg
  have hline : l.step.2.line = l.line + g.text.count '\n' := hreads.line_eq
  refine ⟨.cons ?_ h.leading, ?_, ?_, ?_⟩
  · rw [afterSteps, ← h.reads.rest_eq, ← hreads.rest_eq]
    exact hg
  · rw [List.flatMap_cons]
    exact hreads.trans h.reads
  · rw [stepTokens_succ hanswer, h.tokens_eq, Segment.tokens_cons, hline]
    rfl
  · rw [afterSteps, h.errors_eq, herrors, Segment.errors_cons, hline, List.append_assoc]
    rfl

/-- **As long as no step meets a string that is never closed, steps read segments.** -/
theorem exists_stepsRead {l : Lexer source} {n : Nat} (h : l.Unbroken n) :
    ∃ gs, l.StepsRead n gs := by
  induction n generalizing l with
  | zero => exact ⟨[], stepsRead_nil rfl rfl⟩
  | succ n ih =>
    obtain ⟨gs, hgs⟩ := ih h.tail
    obtain ⟨t, ht⟩ := h.head
    have hstep := l.isStep_step
    generalize hr : l.step = r at hstep
    cases hstep with
    | atEnd hnil =>
      exact ⟨[], stepsRead_nil (afterSteps_of_rest_nil hnil _) (stepTokens_of_rest_nil hnil _)⟩
    | segment hg _ _ => exact ⟨_, .of_next hg hgs⟩
    | openString _ _ =>
      rw [hr] at ht
      exact absurd ht (by simp)

/-- When a step meets a string that is never closed, the pass fails and nothing is left. -/
theorem exists_fault_of_not_unbroken {l : Lexer source} {n : Nat} (h : ¬ l.Unbroken n) :
    ∃ e, l.finish = .error e ∧ (l.afterSteps n).cursor.rest = [] := by
  rw [Unbroken, steps_eq_map] at h
  push Not at h
  obtain ⟨r, hr, e, he⟩ := h
  obtain ⟨i, hi, rfl⟩ := List.mem_map.mp hr
  refine ⟨e, finish_of_afterSteps_error he, ?_⟩
  rw [afterSteps_of_step_error he (List.mem_range.mp hi)]
  exact (step_error_cases he).1

/-- The segments up to the place that the steps lead to. -/
theorem exists_leading {u : String} {rest : List Char} {n : Nat}
    (hs : source.toList = u.toList ++ rest) (hn : (start source).Unbroken n)
    (hp : ((start source).afterSteps n).position = u.utf8ByteSize) :
    ∃ gs, Leading gs rest ∧ gs.flatMap Segment.text = u.toList ∧
      (start source).stepTokens n = Segment.tokens 1 gs ∧
      ((start source).afterSteps n).errors.toList = Segment.errors 1 gs := by
  obtain ⟨gs, hleading, hreads, htokens, herrors⟩ := exists_stepsRead hn
  obtain ⟨hconsumed, hrest⟩ := Cursor.split_of_position hs hp
  have htext := hreads.consumed_eq
  rw [hconsumed, consumed_cursor_start, List.nil_append] at htext
  rw [hrest] at hleading
  have hline : (start source).line = 1 := rfl
  have hnone : (start source).errors.toList = [] := rfl
  rw [hline] at htokens
  rw [hline, hnone, List.nil_append] at herrors
  exact ⟨gs, hleading, htext.symm, htokens, herrors⟩

end Lexer

end Lox

import Lox.Proofs.Piece

/-!
# A scan is the cutting of its text

The longest-match rules and the lexer agree on every text. Each text has a cutting, since a piece of
it is a segment; and a scan makes of a text what its cutting says: the tokens of the segments in
their order and then the token for the end, and a fault for every character that no rule matches.
When the cutting ends at a quote that is never closed, the scan fails.

The loop is followed for any lexer, wherever it stands and whatever it has recorded, and the scan
of a text is the case of a fresh one.
-/

namespace Lox

/-! ## Each text has a cutting -/

/-- As long as something is left, a segment can be cut, or else a quote is not closed. -/
theorem exists_next_or_openString {text : List Char} (hne : text ≠ []) :
    (∃ g : Segment, g.Next text) ∨ ∃ t, text = '"' :: t ∧ '"' ∉ t := by
  have hrest : (Cursor.start (String.ofList text)).rest = text := by
    rw [Cursor.rest_start, String.toList_ofList]
  cases hp : (Cursor.start (String.ofList text)).piece? with
  | none => exact absurd (hrest ▸ Cursor.piece?_eq_none_iff.mp hp) hne
  | some r =>
    obtain ⟨o, d⟩ := r
    cases Cursor.isPiece_of_piece? hp with
    | segment g hg _ => exact Or.inl ⟨g, hrest ▸ hg⟩
    | openString hc hq _ => exact Or.inr ⟨_, hrest ▸ hc, hq⟩

theorem exists_cutting (text : List Char) : ∃ gs left, Cutting text gs left := by
  induction hn : text.length using Nat.strongRecOn generalizing text with
  | ind n ih =>
    by_cases hne : text = []
    · exact ⟨[], [], hne ▸ .finished⟩
    · rcases exists_next_or_openString hne with ⟨g, hg⟩ | ⟨t, rfl, hq⟩
      · obtain ⟨rest, rfl⟩ := hg.beginning
        -- a segment is not empty, so less is left behind it
        have hlt : rest.length < n := by
          have := List.length_pos_of_ne_nil hg.text_ne_nil
          rw [← hn, List.length_append]
          omega
        obtain ⟨gs, left, hcut⟩ := ih rest.length hlt rest rfl
        exact ⟨g :: gs, left, .segment hg hcut⟩
      · exact ⟨[], '"' :: t, .openString (noMatch_quote_iff.mpr hq)⟩

/-! ## The loop follows the cutting -/

namespace Segment

theorem result_outcome (line : Nat) (g : Segment) :
    (g.outcome line).result = .ok (g.token? line) := by
  cases g with
  | matched r s => cases r <;> rfl
  | stray a => rfl

theorem recorded?_outcome (line : Nat) (g : Segment) :
    (g.outcome line).recorded? = g.error? line := by
  cases g with
  | matched r s => cases r <;> rfl
  | stray a => rfl

end Segment

namespace Lexer

variable {source : String}

theorem toList_errors_after (l : Lexer source) (o : Outcome) (c : Cursor source) :
    (l.after o c).errors.toList = l.errors.toList ++ o.recorded?.toList := by
  unfold after
  cases o.recorded? with
  | none => simp
  | some e => simp

/-- The fault of a segment comes behind those that are recorded already. -/
theorem toList_errors_after_outcome (l : Lexer source) (g : Segment) (line : Nat)
    (c : Cursor source) :
    (l.after (g.outcome line) c).errors.toList = l.errors.toList ++ (g.error? line).toList := by
  rw [toList_errors_after, g.recorded?_outcome]

theorem finishAfter_of_rest_nil {l : Lexer source} (h : l.cursor.rest = []) (done : Array Token) :
    l.finishAfter done =
      .ok { tokens := (done.push (.endOfText l.line)).toList, errors := l.errors.toList } := by
  have hp := Cursor.piece?_eq_none_iff.mpr h
  rw [finishAfter]
  split
  · rfl
  · next hs => exact absurd (hp.symm.trans hs) (by simp)

/-- One turn of the loop, where a piece can be read. -/
theorem finishAfter_of_piece? {l : Lexer source} {o : Outcome} {c : Cursor source}
    (h : l.cursor.piece? = some (o, c)) (done : Array Token) :
    l.finishAfter done = match o.result with
      | .error e => .error e
      | .ok (some t) => (l.after o c).finishAfter (done.push t)
      | .ok none => (l.after o c).finishAfter done := by
  rw [finishAfter]
  split
  · next hs => exact absurd (h.symm.trans hs) (by simp)
  · next hs =>
    obtain ⟨rfl, rfl⟩ := Prod.mk.inj (Option.some.inj (h.symm.trans hs))
    rfl

/-- One turn of the loop, where a segment can be cut. -/
theorem finishAfter_of_next {l : Lexer source} {g : Segment} (h : g.Next l.cursor.rest)
    (done : Array Token) :
    ∃ (l' : Lexer source) (done' : Array Token), l.finishAfter done = l'.finishAfter done' ∧
      l.cursor.Reads l'.cursor g.text ∧
      done'.toList = done.toList ++ (g.token? l.cursor.line).toList ∧
      l'.errors.toList = l.errors.toList ++ (g.error? l.cursor.line).toList := by
  obtain ⟨d, hp, hr⟩ := Cursor.piece?_of_next h
  have herr := l.toList_errors_after_outcome g l.cursor.line d
  rw [finishAfter_of_piece? hp, g.result_outcome]
  cases ht : g.token? l.cursor.line with
  | some t => exact ⟨_, _, rfl, hr, by simp, herr⟩
  | none => exact ⟨_, _, rfl, hr, by simp, herr⟩

/--
The loop, from any lexer on. The text that is left, its line and what has been recorded are all that
matters: the tokens and faults of the cutting come behind those that are there already.
-/
theorem finishAfter_of_cutting {text left : List Char} {gs : List Segment}
    (h : Cutting text gs left) :
    ∀ (l : Lexer source) (done : Array Token), l.cursor.rest = text →
      (left = [] → l.finishAfter done = .ok
        { tokens := done.toList ++ (Segment.tokens l.cursor.line gs ++
            [.endOfText (l.cursor.line + text.count '\n')])
          errors := l.errors.toList ++ Segment.errors l.cursor.line gs }) ∧
      (left ≠ [] →
        l.finishAfter done = .error (.unterminatedString (l.cursor.line + text.count '\n'))) := by
  induction h with
  | finished =>
    intro l done hl
    refine ⟨fun _ => ?_, fun hne => absurd rfl hne⟩
    rw [finishAfter_of_rest_nil hl]
    simp [line]
  | @openString text hn =>
    intro l done hl
    refine ⟨fun hnil => absurd hnil (by simp), fun _ => ?_⟩
    obtain ⟨d, hp, hr⟩ := Cursor.piece?_of_openString hl (noMatch_quote_iff.mp hn)
    rw [finishAfter_of_piece? hp, ← hl, ← hr.line_eq]
    rfl
  | @segment g rest left gs hg _ ih =>
    -- one turn leads to a lexer that stands before the rest, with the segment recorded
    intro l done hl
    rw [← hl] at hg
    obtain ⟨l', done', hstep, hr, htokens, herrors⟩ := finishAfter_of_next hg done
    have hrest : l'.cursor.rest = rest := hr.rest_of_append hl
    obtain ⟨hok, herr⟩ := ih l' done' hrest
    rw [hr.line_eq, htokens, herrors] at hok
    rw [hr.line_eq] at herr
    rw [hstep, List.count_append, ← Nat.add_assoc]
    refine ⟨fun hnil => ?_, herr⟩
    rw [hok hnil, Segment.tokens_cons, Segment.errors_cons]
    simp only [List.append_assoc]

end Lexer

/-- What a scan makes of a text whose cutting comes to the end. -/
theorem scan_of_cutting {source : String} {gs : List Segment}
    (h : Cutting source.toList gs []) :
    scan source = .ok
      { tokens := Segment.tokens 1 gs ++ [.endOfText (1 + source.toList.count '\n')]
        errors := Segment.errors 1 gs } := by
  have hstart :=
    (Lexer.finishAfter_of_cutting h (.start source) #[] (Cursor.rest_start source)).1 rfl
  simpa [scan, Lexer.finish, Lexer.start, Cursor.start] using hstart

/-- What a scan makes of a text whose cutting does not. -/
theorem scan_of_cutting_openString {source : String} {gs : List Segment} {left : List Char}
    (h : Cutting source.toList gs left) (hne : left ≠ []) :
    scan source = .error (.unterminatedString (1 + source.toList.count '\n')) :=
  (Lexer.finishAfter_of_cutting h (.start source) #[] (Cursor.rest_start source)).2 hne

/-- A text that one rule matches from the beginning to the end is one segment. -/
theorem scan_of_mem {r : Rule} {s : List Char} (h : s ∈ r.language) :
    scan (String.ofList s) = .ok
      { tokens := ((Segment.matched r s).token? 1).toList ++ [.endOfText (1 + s.count '\n')]
        errors := [] } := by
  have hnext : (Segment.matched r s).Next ((Segment.matched r s).text ++ []) :=
    (Rule.longestMatch_iff_stops h).mpr (Rule.stops_nil r s)
  have hcut : Cutting (String.ofList s).toList [.matched r s] [] := by
    have hsegment := Cutting.segment hnext .finished
    rw [List.append_nil] at hsegment
    rw [String.toList_ofList]
    exact hsegment
  rw [scan_of_cutting hcut, String.toList_ofList, Segment.tokens_cons, Segment.errors_cons]
  simp only [Segment.tokens_nil, Segment.errors_nil, List.append_nil]
  rfl

/-- A scan that succeeds comes from a cutting to the end. -/
theorem exists_cutting_of_scan {source : String} {s : Scanned} (h : scan source = .ok s) :
    ∃ gs, Cutting source.toList gs [] ∧
      s.tokens = Segment.tokens 1 gs ++ [.endOfText (1 + source.toList.count '\n')] ∧
      s.errors = Segment.errors 1 gs := by
  obtain ⟨gs, left, hcut⟩ := exists_cutting source.toList
  by_cases hleft : left = []
  · subst hleft
    rw [scan_of_cutting hcut] at h
    obtain rfl := Except.ok.inj h
    exact ⟨gs, hcut, rfl, rfl⟩
  · rw [scan_of_cutting_openString hcut hleft] at h
    exact absurd h (by simp)

/-- A token of a scan is a segment of the text, or else the one for the end. -/
theorem mem_tokens_of_scan {source : String} {s : Scanned} (h : scan source = .ok s) {t : Token}
    (ht : t ∈ s.tokens) :
    (∃ (g : Segment) (line : Nat) (text : List Char), g.Next text ∧ g.token? line = some t) ∨
      ∃ line, t = .endOfText line := by
  obtain ⟨gs, hcut, htokens, -⟩ := exists_cutting_of_scan h
  rw [htokens] at ht
  rcases List.mem_append.mp ht with ht | ht
  · obtain ⟨g, hg, line, hgt⟩ := Segment.exists_of_mem_tokens ht
    obtain ⟨text, hnext⟩ := hcut.exists_next g hg
    exact .inl ⟨g, line, text, hnext, hgt⟩
  · exact .inr ⟨_, List.mem_singleton.mp ht⟩

/--
**A scan cuts a text by longest matches.** Each text has one cutting. When it comes to the end, the
scan succeeds with the tokens of the segments and the token for the end, and with a fault for every
stray character; when it comes to a quote that is not closed, the scan fails.
-/
theorem scan_longest_matches (source : String) :
    ∃ gs left, Cutting source.toList gs left ∧
      (∀ gs' left', Cutting source.toList gs' left' → gs' = gs ∧ left' = left) ∧
      (left = [] → scan source = .ok
        { tokens := Segment.tokens 1 gs ++ [.endOfText (1 + source.toList.count '\n')]
          errors := Segment.errors 1 gs }) ∧
      (left ≠ [] →
        scan source = .error (.unterminatedString (1 + source.toList.count '\n'))) := by
  obtain ⟨gs, left, h⟩ := exists_cutting source.toList
  refine ⟨gs, left, h, fun gs' left' h' => h'.unique h, ?_, scan_of_cutting_openString h⟩
  rintro rfl
  exact scan_of_cutting h

end Lox

import Lox.Proofs.NumberText
import Lox.Proofs.Reading
import Lox.Proofs.Segment

/-!
# A piece is the next segment

The lexer picks a sub-lexer by the first character and reads as far as that one goes. Here each of
them is shown to stop where the longest match stops, so that a piece is always the segment that the
rules would cut, or else a string that is never closed, which takes all that is left.
-/

namespace Lox

/-- What a step makes of a segment that starts on `line`. -/
def Segment.outcome (line : Nat) (g : Segment) : Outcome :=
  match g.token? line with
  | some t => .token t
  | none =>
    match g.error? line with
    | some e => .unexpected e.line
    | none => .skipped

namespace Cursor

variable {source : String}

/-- The answers that the rules allow for a piece from `c` to `d`. -/
inductive IsPiece (c d : Cursor source) : Outcome → Prop where
  | segment (g : Segment) : g.Next c.rest → c.Reads d g.text → IsPiece c d (g.outcome c.line)
  | openString {text : List Char} : c.rest = '"' :: text → '"' ∉ text → c.Reads d c.rest →
      IsPiece c d (.unterminated d.line c.line)

/-- A match that stops where the cursor stands is the next segment. -/
theorem isPiece_of_stops {c d : Cursor source} {r : Rule} {s : List Char}
    (hm : s ∈ r.language) (hs : r.Stops s d.rest) (hr : c.Reads d s) :
    IsPiece c d ((Segment.matched r s).outcome c.line) := by
  refine .segment (.matched r s) ?_ hr
  show LongestMatch r s c.rest
  rw [hr.rest_eq]
  exact (Rule.longestMatch_iff_stops hm).mpr hs

theorem tokenTo_eq {c d : Cursor source} {s : List Char} (h : c.Reads d s) (kind : Kind)
    (literal : Option Literal) :
    c.tokenTo d kind literal =
      .token { kind, lexeme := String.ofList s, literal, line := c.line } := by
  rw [tokenTo, h.textFrom_eq]

/-! ## Operators and comments -/

section

variable {start c : Cursor source} {a : Char}

theorem isPiece_single {k : Kind} (hn : start.next? = some (a, c))
    (hf : (Opening.single k).Fits a) : IsPiece start c (start.tokenTo c k) := by
  have hr := reads_of_next? hn
  rw [tokenTo_eq hr]
  refine isPiece_of_stops (r := .operator k) hf.1 ⟨?_, ?_⟩ hr
  · intro hs
    exact absurd hf.2 (by simp at hs ⊢; tauto)
  · intro hs
    exact absurd hf.2 (by simp at hs ⊢; tauto)

theorem isPiece_operator {k k' : Kind} (hn : start.next? = some (a, c))
    (hf : (Opening.pair k k').Fits a) :
    IsPiece start (start.operator c k k').2 (start.operator c k k').1 := by
  have ha : [a] ∈ [['!'], ['='], ['<'], ['>']] := Rule.mem_alone_of_withEqual hf.2
  rcases c.matchChar_cases '=' with ⟨d, hc, hd⟩ | ⟨hc, hne⟩
  · have hr : start.Reads d [a, '='] := (reads_of_next? hn).trans hd
    rw [operator, hc]
    dsimp only
    rw [tokenTo_eq hr]
    exact isPiece_of_stops (r := .operator k') hf.2 ⟨by simp, by simp⟩ hr
  · have hr := reads_of_next? hn
    rw [operator, hc]
    dsimp only
    rw [tokenTo_eq hr]
    refine isPiece_of_stops (r := .operator k) hf.1 ⟨fun _ => hne, ?_⟩ hr
    intro hs
    rw [hs] at ha
    exact absurd ha (by decide)

theorem isPiece_slash (hn : start.next? = some ('/', c)) :
    IsPiece start (start.slash c).2 (start.slash c).1 := by
  rcases c.matchChar_cases '/' with ⟨d, hc, hd⟩ | ⟨hc, hne⟩
  · have hr := ((reads_of_next? hn).trans hd).trans (reads_advanceWhile (fun a => a ≠ '\n') d)
    rw [slash, hc]
    refine isPiece_of_stops (r := .comment) ?_ ?_ hr
    · refine Rule.mem_comment.mpr ⟨_, ?_, rfl⟩
      intro hmem
      exact absurd (List.mem_takeWhile_imp hmem) (by simp)
    · intro b hb
      simpa using head?_rest_advanceWhile hb
  · have hr := reads_of_next? hn
    rw [slash, hc]
    dsimp only
    rw [tokenTo_eq hr]
    refine isPiece_of_stops (r := .operator .slash) ?_ ⟨?_, fun _ => hne⟩ hr
    · show (['/'], Kind.slash) ∈ operators
      decide
    · exact fun h => absurd h (by decide)

/-! ## Words and strings -/

theorem isPiece_word (hn : start.next? = some (a, c)) (ha : isWordStart a = true) :
    IsPiece start (start.word c).2 (start.word c).1 := by
  have hr := (reads_of_next? hn).trans (reads_advanceWhile isWordPart c)
  rw [word]
  dsimp only
  rw [tokenTo_eq hr, hr.textFrom_eq, Kind.ofWord]
  refine isPiece_of_stops (r := .word) ?_ ?_ hr
  · exact Rule.mem_word.mpr ⟨a, _, ha, fun b => List.mem_takeWhile_imp, rfl⟩
  · intro b hb
    exact head?_rest_advanceWhile hb

theorem isPiece_string (hn : start.next? = some ('"', c)) :
    IsPiece start (start.string c).2 (start.string c).1 := by
  have hbody := reads_advanceWhile (fun a => a ≠ '"') c
  have hquote : '"' ∉ c.rest.takeWhile fun a => a ≠ '"' := fun hmem =>
    absurd (List.mem_takeWhile_imp hmem) (by simp)
  rw [string]
  cases hl : (c.advanceWhile fun a => a ≠ '"').next? with
  | some r =>
    obtain ⟨b, d⟩ := r
    -- the run can only have ended at a quote
    obtain rfl : b = '"' := by
      have hhead := head?_rest_advanceWhile
        (show (c.advanceWhile fun a => a ≠ '"').rest.head? = some b by
          rw [rest_of_next?_eq_some hl, List.head?_cons])
      simpa using hhead
    have hr := ((reads_of_next? hn).trans hbody).trans (reads_of_next? hl)
    dsimp only
    rw [tokenTo_eq hr, hbody.textFrom_eq]
    have hp := isPiece_of_stops (r := .string) (Rule.mem_string.mpr ⟨_, hquote, rfl⟩) trivial hr
    simpa [Segment.outcome, Segment.token?, Segment.kind?, Segment.literal?, Segment.text] using hp
  | none =>
    have hrest := next?_eq_none_iff.mp hl
    have hall : c.rest.takeWhile (fun a => a ≠ '"') = c.rest := by
      have h := hbody.rest_eq
      rw [hrest, List.append_nil] at h
      exact h.symm
    rw [hall] at hbody hquote
    dsimp only
    refine .openString (rest_of_next?_eq_some hn) hquote ?_
    rw [rest_of_next?_eq_some hn]
    exact (reads_of_next? hn).trans hbody

/-! ## Numbers -/

/-- A point comes next and a digit behind it, as one can also see in what is left. -/
theorem atFraction_iff {c : Cursor source} :
    c.atFraction = true ↔ ∃ d t, c.rest = '.' :: d :: t ∧ d.isDigit = true := by
  rw [atFraction, current_eq]
  cases hn : c.next? with
  | none => simp [next?_eq_none_iff.mp hn, nothing]
  | some r =>
    obtain ⟨b, e⟩ := r
    rw [rest_of_next?_eq_some hn]
    by_cases hb : b = '.'
    · subst hb
      rw [peek_one hn (by decide), current_eq]
      cases e.rest with
      | nil => simp [nothing]
      | cons d t => simp
    · simp [hb]

/-- The text of a number is always read, so nothing is put in the place of its value. -/
theorem isPiece_numberTo {start stop : Cursor source} {s : List Char}
    (hm : s ∈ Rule.number.language) (hs : Rule.number.Stops s stop.rest)
    (hr : start.Reads stop s) : IsPiece start stop (start.numberTo stop) := by
  rw [numberTo, tokenTo_eq hr, hr.textFrom_eq, Binary64.ofText?_of_mem_number hm]
  exact isPiece_of_stops hm hs hr

theorem isPiece_number (hn : start.next? = some (a, c)) (ha : a.isDigit = true) :
    IsPiece start (start.number c).2 (start.number c).1 := by
  have hwhole := (reads_of_next? hn).trans (reads_advanceWhile Char.isDigit c)
  have hdigits : ∀ b ∈ [a] ++ c.rest.takeWhile Char.isDigit, b.isDigit = true := by
    intro b hb
    rcases List.mem_append.mp hb with hb | hb
    · rw [List.mem_singleton.mp hb]; exact ha
    · exact List.mem_takeWhile_imp hb
  have hmem : [a] ++ c.rest.takeWhile Char.isDigit ∈ Rule.digits :=
    Rule.mem_digits.mpr ⟨by simp, hdigits⟩
  rw [number]
  cases hf : (c.advanceWhile Char.isDigit).atFraction with
  | false =>
    refine isPiece_numberTo (Rule.mem_number.mpr ⟨_, hmem, Or.inl rfl⟩) ⟨?_, ?_⟩ hwhole
    · intro b hb
      exact head?_rest_advanceWhile hb
    · intro _ d t ht
      by_contra hd
      exact absurd (atFraction_iff.mpr ⟨d, t, ht, by simpa using hd⟩) (by simp [hf])
  | true =>
    obtain ⟨d, t, hrest, hd⟩ := atFraction_iff.mp hf
    obtain ⟨point, hpoint, hpr⟩ := exists_next?_of_rest hrest
    rw [advance_of_next? hpoint]
    have hr := (hwhole.trans (reads_of_next? hpoint)).trans (reads_advanceWhile Char.isDigit point)
    rw [List.append_assoc] at hr
    have hfr : point.rest.takeWhile Char.isDigit ∈ Rule.digits := by
      refine Rule.mem_digits.mpr ⟨?_, fun b => List.mem_takeWhile_imp⟩
      rw [hpr, List.takeWhile_cons_of_pos hd]
      exact List.cons_ne_nil _ _
    refine isPiece_numberTo (Rule.mem_number.mpr ⟨_, hmem, Or.inr ⟨_, hfr, rfl⟩⟩) ⟨?_, ?_⟩ hr
    · intro b hb
      exact head?_rest_advanceWhile hb
    · intro hs
      exact absurd (by simp) hs

end

/-! ## Every piece -/

theorem isPiece_pieceOf {start c : Cursor source} {a : Char} (hn : start.next? = some (a, c)) :
    IsPiece start (pieceOf (.of a) start c).2 (pieceOf (.of a) start c).1 := by
  have hf := Opening.fits_of a
  cases ho : Opening.of a with
  | single k => exact isPiece_single hn (ho ▸ hf)
  | pair k k' => exact isPiece_operator hn (ho ▸ hf)
  | slash =>
    obtain rfl : a = '/' := Opening.of_eq_iff.mp ho
    exact isPiece_slash hn
  | blank =>
    rw [ho] at hf
    exact isPiece_of_stops (r := .blank) ⟨a, hf, rfl⟩ trivial (reads_of_next? hn)
  | quote =>
    obtain rfl : a = '"' := Opening.of_eq_iff.mp ho
    exact isPiece_string hn
  | digit => exact isPiece_number hn (Opening.of_eq_iff.mp ho)
  | wordStart => exact isPiece_word hn (Opening.of_eq_iff.mp ho)
  | other =>
    have hr := reads_of_next? hn
    have hne : ∀ b, Opening.of b ≠ .other → a ≠ b := fun b hb hab => hb (hab ▸ ho)
    have hline : c.line = start.line := by
      rw [hr.line_eq, List.count_singleton]
      simp [hne '\n' (by decide)]
    show IsPiece start c (.unexpected c.line)
    rw [hline]
    refine .segment (.stray a) ⟨?_, ?_, hne '"' (by decide)⟩ hr
    · rw [hr.rest_eq]
      exact noMatch_of_other ho
    · rw [hr.rest_eq, List.singleton_append, List.head?_cons]

theorem isPiece_of_piece? {c d : Cursor source} {o : Outcome} (h : c.piece? = some (o, d)) :
    IsPiece c d o := by
  unfold piece? at h
  split at h
  · next a e hn =>
    have hp := isPiece_pieceOf hn
    rw [Option.some.inj h] at hp
    exact hp
  · simp at h

theorem piece?_eq_none_iff {c : Cursor source} : c.piece? = none ↔ c.rest = [] := by
  rw [← next?_eq_none_iff, piece?]
  cases c.next? with
  | none => simp
  | some r => simp

theorem piece?_of_next {c : Cursor source} {g : Segment} (h : g.Next c.rest) :
    ∃ d, c.piece? = some (g.outcome c.line, d) ∧ c.Reads d g.text := by
  cases hp : c.piece? with
  | none =>
    -- a segment is not empty, so something is left
    rw [piece?_eq_none_iff.mp hp] at h
    exact absurd (List.prefix_nil.mp h.beginning) h.text_ne_nil
  | some r =>
    obtain ⟨o, d⟩ := r
    cases isPiece_of_piece? hp with
    | segment g' hg' hr =>
      obtain rfl := hg'.unique h
      exact ⟨d, rfl, hr⟩
    | openString hc hq _ =>
      rw [hc] at h
      exact absurd h.not_openString hq

theorem piece?_of_openString {c : Cursor source} {text : List Char} (h : c.rest = '"' :: text)
    (hq : '"' ∉ text) :
    ∃ d, c.piece? = some (.unterminated d.line c.line, d) ∧ c.Reads d c.rest := by
  cases hp : c.piece? with
  | none => rw [piece?_eq_none_iff.mp hp] at h; exact absurd h (by simp)
  | some r =>
    obtain ⟨o, d⟩ := r
    cases isPiece_of_piece? hp with
    | segment g hg _ =>
      rw [h] at hg
      exact absurd hg.not_openString hq
    | openString _ _ hr => exact ⟨d, rfl, hr⟩

end Cursor

end Lox

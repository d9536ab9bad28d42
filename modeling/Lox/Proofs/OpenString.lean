import Lox.Proofs.Segmentation
import Mathlib.Computability.DFA

/-!
# When a scan fails

A scan fails exactly when a string is never closed, and an automaton with four states that knows
nothing of tokens can tell: it only follows quotes, slashes and line feeds.

The automaton and the scan are compared segment by segment. Behind a segment the automaton need not
be back in its first state. A division leaves it where a second slash would open a comment, and a
comment leaves it before the end of its line. But a segment is a longest match, so what follows it
is no second slash, or else is that line feed, and then it makes no difference that the automaton
was not back: `Phase.Settled` is this invariant.
-/

namespace Lox

/-- What the automaton takes the characters to belong to. -/
inductive Phase where
  | code
  | slash
  | comment
  | string
deriving DecidableEq

/-- The phase after one more character. -/
def Phase.step : Phase → Char → Phase
  | code, c => if c = '"' then string else if c = '/' then slash else code
  | slash, c => if c = '/' then comment else if c = '"' then string else code
  | comment, c => if c = '\n' then code else comment
  | string, c => if c = '"' then code else string

/-- The automaton over the characters of a text. It accepts when a string is still open. -/
def phases : DFA Char Phase where
  step := Phase.step
  start := .code
  accept := {.string}

/-! ## Runs that stay in one phase -/

/-- A text of characters that do not lead out of a phase does not lead out of it. -/
theorem evalFrom_eq_self {q : Phase} {s : List Char} (h : ∀ c ∈ s, q.step c = q) :
    phases.evalFrom q s = q := by
  induction s with
  | nil => rfl
  | cons c s ih =>
    obtain ⟨hc, hs⟩ := List.forall_mem_cons.mp h
    rw [DFA.evalFrom_cons]
    show phases.evalFrom (q.step c) s = q
    rw [hc, ih hs]

theorem evalFrom_code {s : List Char} (h : ∀ c ∈ s, c ≠ '"' ∧ c ≠ '/') :
    phases.evalFrom .code s = .code := by
  refine evalFrom_eq_self fun c hc => ?_
  obtain ⟨hq, hs⟩ := h c hc
  rw [Phase.step, if_neg hq, if_neg hs]

/-- The same for the characters of a class that has neither the quote nor the slash. -/
theorem evalFrom_code_of_class {p : Char → Bool} {s : List Char} (hquote : p '"' = false)
    (hslash : p '/' = false) (h : ∀ c ∈ s, p c = true) : phases.evalFrom .code s = .code := by
  refine evalFrom_code fun c hc => ⟨?_, ?_⟩
  · intro he
    rw [← he, h c hc] at hquote
    exact absurd hquote (by simp)
  · intro he
    rw [← he, h c hc] at hslash
    exact absurd hslash (by simp)

theorem evalFrom_string {s : List Char} (h : '"' ∉ s) : phases.evalFrom .string s = .string := by
  refine evalFrom_eq_self fun c hc => ?_
  have hq : c ≠ '"' := fun hq => h (hq ▸ hc)
  rw [Phase.step, if_neg hq]

theorem evalFrom_comment {s : List Char} (h : '\n' ∉ s) :
    phases.evalFrom .comment s = .comment := by
  refine evalFrom_eq_self fun c hc => ?_
  have hn : c ≠ '\n' := fun hn => h (hn ▸ hc)
  rw [Phase.step, if_neg hn]

/-! ## Behind a segment the automaton is as good as back -/

/-- With this text ahead, the phase is as good as the first one. -/
def Phase.Settled : Phase → List Char → Prop
  | code, _ => True
  | slash, rest => rest.head? ≠ some '/'
  | comment, rest => ∀ c ∈ rest.head?, c = '\n'
  | string, _ => False

theorem Phase.Settled.evalFrom_eq_string_iff {q : Phase} {rest : List Char} (h : q.Settled rest) :
    phases.evalFrom q rest = .string ↔ phases.evalFrom .code rest = .string := by
  cases rest with
  | nil =>
    cases q with
    | string => exact h.elim
    | _ => simp
  | cons c rest =>
    -- one more character, and the two runs are the same
    have hstep : q.step c = Phase.code.step c := by
      cases q with
      | code => rfl
      | slash =>
        have hc : c ≠ '/' := fun hc => h (hc ▸ rfl)
        rw [step, step, if_neg hc, if_neg hc]
      | comment =>
        obtain rfl : c = '\n' := h c rfl
        rfl
      | string => exact h.elim
    show phases.evalFrom (q.step c) rest = _ ↔ phases.evalFrom (Phase.code.step c) rest = _
    rw [hstep]

theorem evalFrom_operator {s : List Char} {k : Kind} (h : (s, k) ∈ operators) :
    s = ['/'] ∨ phases.evalFrom .code s = .code := by
  have hall : ∀ p ∈ operators, p.1 = ['/'] ∨ phases.evalFrom .code p.1 = .code := by decide
  exact hall (s, k) h

theorem evalFrom_number {s : List Char} (h : s ∈ Rule.number.language) :
    phases.evalFrom .code s = .code := by
  have hdigits : ∀ t ∈ Rule.digits, phases.evalFrom .code t = .code := fun t ht =>
    evalFrom_code_of_class (p := Char.isDigit) (by decide) (by decide) (Rule.mem_digits.mp ht).2
  rcases Rule.mem_number.mp h with ⟨whole, hw, rfl | ⟨fraction, hf, rfl⟩⟩
  · exact hdigits s hw
  · rw [DFA.evalFrom_of_append, hdigits whole hw]
    exact hdigits fraction hf

theorem evalFrom_word {s : List Char} (h : s ∈ Rule.word.language) :
    phases.evalFrom .code s = .code := by
  obtain ⟨a, t, ha, ht, rfl⟩ := Rule.mem_word.mp h
  have hpart : isWordPart a = true := by simp [isWordPart, ha]
  exact evalFrom_code_of_class (p := isWordPart) (by decide) (by decide)
    (List.forall_mem_cons.mpr ⟨hpart, ht⟩)

theorem evalFrom_blank {s : List Char} (h : s ∈ Rule.blank.language) :
    phases.evalFrom .code s = .code := by
  obtain ⟨c, hc, rfl⟩ := Rule.mem_blank.mp h
  exact evalFrom_code_of_class (p := fun c => [' ', '\t', '\r', '\n'].contains c) (by decide)
    (by decide) (by simpa using hc)

theorem Segment.Next.settled {g : Segment} {rest : List Char} (h : g.Next (g.text ++ rest)) :
    (phases.evalFrom .code g.text).Settled rest := by
  cases g with
  | matched r s =>
    have hm : s ∈ r.language := LongestMatch.mem h
    have hs : r.Stops s rest := (Rule.longestMatch_iff_stops hm).mp h
    show (phases.evalFrom .code s).Settled rest
    cases r with
    | operator k =>
      rcases evalFrom_operator hm with rfl | hcode
      · exact hs.2 rfl
      · rw [hcode]
        trivial
    | number =>
      rw [evalFrom_number hm]
      trivial
    | word =>
      rw [evalFrom_word hm]
      trivial
    | string =>
      obtain ⟨body, hb, rfl⟩ := Rule.mem_string.mp hm
      show (phases.evalFrom .string (body ++ ['"'])).Settled rest
      rw [DFA.evalFrom_of_append, evalFrom_string hb]
      trivial
    | blank =>
      rw [evalFrom_blank hm]
      trivial
    | comment =>
      obtain ⟨body, hb, rfl⟩ := Rule.mem_comment.mp hm
      show (phases.evalFrom .comment body).Settled rest
      rw [evalFrom_comment hb]
      exact hs
  | stray a =>
    obtain ⟨hn, _, hq⟩ := h
    -- a slash would be an operator
    have hslash : (['/'], Kind.slash) ∈ operators := by decide
    have ha : a ≠ '/' := by
      intro h
      subst h
      exact hn (.operator .slash) ['/'] ⟨rest, rfl⟩ hslash
    show (phases.evalFrom .code [a]).Settled rest
    rw [evalFrom_code (by simp [hq, ha])]
    trivial

/-- Over a whole cutting, the automaton ends in a string exactly when a string is left. -/
theorem Cutting.evalFrom_eq_string_iff {text left : List Char} {gs : List Segment}
    (h : Cutting text gs left) : phases.evalFrom .code text = .string ↔ left ≠ [] := by
  induction h with
  | finished => simp
  | @openString text hn =>
    refine ⟨fun _ => List.cons_ne_nil _ _, fun _ => ?_⟩
    exact evalFrom_string (noMatch_quote_iff.mp hn)
  | segment hg _ ih =>
    -- behind the segment the automaton may as well start anew
    rw [DFA.evalFrom_of_append, hg.settled.evalFrom_eq_string_iff, ih]

/--
**A scan fails exactly when a string is still open at the end.** The fault is on the last line,
however many faults were passed over before.
-/
theorem scan_eq_error_iff (source : String) (e : ScanError) :
    scan source = .error e ↔
      phases.eval source.toList = .string ∧
        e = .unterminatedString (1 + source.toList.count '\n') := by
  obtain ⟨gs, left, h⟩ := exists_cutting source.toList
  show _ ↔ phases.evalFrom .code source.toList = .string ∧ _
  rw [h.evalFrom_eq_string_iff]
  by_cases hleft : left = []
  · subst hleft
    rw [scan_of_cutting h]
    simp
  · rw [scan_of_cutting_openString h hleft, Except.error.injEq]
    exact ⟨fun he => ⟨hleft, he.symm⟩, fun he => he.2.symm⟩

-- a quote in a comment opens nothing, one behind a slash does
example : phases.eval ['/', '/', '"', '\n', '/', '"'] = .string := by decide

end Lox

import Lox.Lexer.Basic
import Lox.Proofs.LongestMatch

/-!
# Cutting a text into segments

The specification of a whole scan. A text is cut from the left: each time the longest match of any
rule is taken, or a single character when no rule matches there. A quote that is not closed is the
one place where the cutting cannot go on. What a segment means, as a token or as a fault, depends
on its rule, its text and its line alone, and is said here without reference to a lexer.

A cutting is unique, because the next segment is.
-/

namespace Lox

/-- The rule that matches the tokens of a kind. -/
def Kind.rule? : Kind → Option Rule
  | identifier => some .word
  | keyword _ => some .word
  | string => some .string
  | number => some .number
  | eof => none
  | k => some (.operator k)

theorem Kind.rule?_of_ofReserved? {s : String} {k : Kind} (h : ofReserved? s = some k) :
    k.rule? = some .word := by
  have hall : ∀ p ∈ reserved, p.2.rule? = some .word := by decide
  exact hall (s, k) (mem_reserved_of_ofReserved? h)

/-- A segment of a text: what a rule matches, or one character where none does. -/
inductive Segment where
  | matched (rule : Rule) (text : List Char)
  | stray (char : Char)
deriving DecidableEq

namespace Segment

def text : Segment → List Char
  | matched _ s => s
  | stray a => [a]

/--
The kind of token that a segment is: a word is looked up among the reserved ones, and is an
identifier if it is none of them. Blanks, comments and strays are no tokens.
-/
def kind? : Segment → Option Kind
  | matched (.operator k) _ => some k
  | matched .number _ => some .number
  | matched .word s => some ((Kind.ofReserved? (String.ofList s)).getD .identifier)
  | matched .string _ => some .string
  | matched .blank _ => none
  | matched .comment _ => none
  | stray _ => none

/-- The value that a segment denotes: of a number its decimal, of a string what is quoted. -/
def literal? : Segment → Option Literal
  | matched .number s => some (.number (.ofNumeral
      (.ofParts (s.takeWhile Char.isDigit) ((s.dropWhile Char.isDigit).drop 1))))
  | matched .string s => some (.string (String.ofList (s.drop 1).dropLast))
  | _ => none

/-- The token that a segment is, when it starts on `line`. -/
def token? (line : Nat) (g : Segment) : Option Token :=
  g.kind?.map fun kind => { kind, lexeme := String.ofList g.text, literal := g.literal?, line }

/-- The fault of a segment that starts on `line`. -/
def error? (line : Nat) : Segment → Option ScanError
  | matched _ _ => none
  | stray _ => some (.unexpectedCharacter line)

/-- Segments with the lines that they start on, the first of them on `line`. -/
def numbered (line : Nat) : List Segment → List (Nat × Segment)
  | [] => []
  | g :: gs => (line, g) :: numbered (line + g.text.count '\n') gs

/-- The tokens of segments, the first of which starts on `line`. -/
def tokens (line : Nat) (gs : List Segment) : List Token :=
  (numbered line gs).filterMap fun p => p.2.token? p.1

/-- The faults of segments, the first of which starts on `line`. -/
def errors (line : Nat) (gs : List Segment) : List ScanError :=
  (numbered line gs).filterMap fun p => p.2.error? p.1

theorem map_snd_numbered (line : Nat) (gs : List Segment) :
    (numbered line gs).map Prod.snd = gs := by
  induction gs generalizing line with
  | nil => rfl
  | cons g gs ih => rw [numbered, List.map_cons, ih]

@[simp] theorem tokens_nil (line : Nat) : tokens line [] = [] := rfl

@[simp] theorem errors_nil (line : Nat) : errors line [] = [] := rfl

theorem tokens_cons (line : Nat) (g : Segment) (gs : List Segment) :
    tokens line (g :: gs) = (g.token? line).toList ++ tokens (line + g.text.count '\n') gs := by
  rw [tokens, numbered, List.filterMap_cons]
  cases g.token? line with
  | none => rfl
  | some t => rfl

theorem errors_cons (line : Nat) (g : Segment) (gs : List Segment) :
    errors line (g :: gs) = (g.error? line).toList ++ errors (line + g.text.count '\n') gs := by
  rw [errors, numbered, List.filterMap_cons]
  cases g.error? line with
  | none => rfl
  | some e => rfl

theorem exists_of_mem_tokens {line : Nat} {gs : List Segment} {t : Token}
    (h : t ∈ tokens line gs) : ∃ g ∈ gs, ∃ l, g.token? l = some t := by
  obtain ⟨p, hp, ht⟩ := List.mem_filterMap.mp h
  refine ⟨p.2, ?_, p.1, ht⟩
  rw [← map_snd_numbered line gs]
  exact List.mem_map_of_mem hp

/-- The segment that is cut from the left of a text. -/
def Next (text : List Char) : Segment → Prop
  | matched r s => LongestMatch r s text
  | stray a => NoMatch text ∧ text.head? = some a ∧ a ≠ '"'

theorem Next.unique {text : List Char} {g g' : Segment} (h : g.Next text) (h' : g'.Next text) :
    g = g' := by
  cases g with
  | matched r s =>
    cases g' with
    | matched r' s' =>
      obtain ⟨rfl, rfl⟩ := LongestMatch.unique h h'
      rfl
    | stray a => exact absurd h'.1 h.not_noMatch
  | stray a =>
    cases g' with
    | matched r' s' => exact absurd h.1 h'.not_noMatch
    | stray a' =>
      obtain ⟨_, ha, _⟩ := h
      obtain ⟨_, ha', _⟩ := h'
      rw [Option.some.inj (ha.symm.trans ha')]

theorem Next.text_ne_nil {text : List Char} {g : Segment} (h : g.Next text) : g.text ≠ [] := by
  cases g with
  | matched r s => exact fun hs => Rule.nil_notMem r (hs ▸ h.mem)
  | stray a => exact List.cons_ne_nil a []

theorem Next.beginning {text : List Char} {g : Segment} (h : g.Next text) : g.text <+: text := by
  cases g with
  | matched r s => exact LongestMatch.beginning h
  | stray a =>
    obtain ⟨_, ha, _⟩ := h
    obtain ⟨t, rfl⟩ := List.head?_eq_some_iff.mp ha
    exact ⟨t, rfl⟩

/-- A segment that is a token was matched by the rule for tokens of its kind. -/
theorem Next.exists_mem_of_kind? {text : List Char} {g : Segment} (h : g.Next text) {k : Kind}
    (hk : g.kind? = some k) : ∃ r, k.rule? = some r ∧ ∃ s ∈ r.language, g = .matched r s := by
  cases g with
  | stray a => exact absurd hk (by simp [kind?])
  | matched r s =>
    refine ⟨r, ?_, s, LongestMatch.mem h, rfl⟩
    cases r with
    | operator k' =>
      have hall : ∀ p ∈ operators, p.2.rule? = some (.operator p.2) := by decide
      obtain rfl := Option.some.inj hk
      exact hall (s, k') (LongestMatch.mem h)
    | number =>
      obtain rfl := Option.some.inj hk
      rfl
    | word =>
      obtain rfl := Option.some.inj hk
      cases hfind : Kind.ofReserved? (String.ofList s) with
      | none => rfl
      | some k => exact Kind.rule?_of_ofReserved? hfind
    | string =>
      obtain rfl := Option.some.inj hk
      rfl
    | blank => exact absurd hk (by simp [kind?])
    | comment => exact absurd hk (by simp [kind?])

/-- A segment that is a number token was matched by the rule for numbers. -/
theorem Next.mem_number {text : List Char} {g : Segment} (h : g.Next text) {line : Nat} {t : Token}
    (ht : g.token? line = some t) (hk : t.kind = .number) :
    ∃ s ∈ Rule.number.language, g = .matched .number s := by
  obtain ⟨k, hkind, rfl⟩ := Option.map_eq_some_iff.mp ht
  obtain rfl : k = .number := hk
  obtain ⟨r, hr, hs⟩ := h.exists_mem_of_kind? hkind
  obtain rfl := Option.some.inj hr
  exact hs

/-- What is cut off behind a segment does not change it. -/
theorem Next.of_append {g : Segment} {rest cut : List Char}
    (h : g.Next (g.text ++ (rest ++ cut))) : g.Next (g.text ++ rest) := by
  cases g with
  | matched r s => exact LongestMatch.of_append h
  | stray a =>
    obtain ⟨hn, ha, hne⟩ := h
    rw [← List.append_assoc] at hn
    exact ⟨hn.of_append, rfl, hne⟩

/-- There is no next segment where a quote is not closed. -/
theorem Next.not_openString {text : List Char} {g : Segment} (h : g.Next ('"' :: text)) :
    '"' ∈ text := by
  by_contra hq
  have hn : NoMatch ('"' :: text) := noMatch_quote_iff.mpr hq
  cases g with
  | matched r s => exact h.not_noMatch hn
  | stray a =>
    obtain ⟨_, ha, hne⟩ := h
    exact hne (Option.some.inj ha).symm

end Segment

/--
`Cutting text gs left`: cut from the left, `text` is the segments `gs` and then `left`. Nothing is
left, or else a string that is never closed.
-/
inductive Cutting : List Char → List Segment → List Char → Prop where
  | finished : Cutting [] [] []
  | openString {text : List Char} :
      NoMatch ('"' :: text) → Cutting ('"' :: text) [] ('"' :: text)
  | segment {g : Segment} {rest left : List Char} {gs : List Segment} :
      g.Next (g.text ++ rest) → Cutting rest gs left → Cutting (g.text ++ rest) (g :: gs) left

namespace Cutting

/-- Nothing is lost or moved. -/
theorem flatMap_append {text left : List Char} {gs : List Segment} (h : Cutting text gs left) :
    gs.flatMap Segment.text ++ left = text := by
  induction h with
  | finished => rfl
  | openString _ => rfl
  | segment _ _ ih => rw [List.flatMap_cons, List.append_assoc, ih]

/-- Every segment was the next one at some place. -/
theorem exists_next {text left : List Char} {gs : List Segment} (h : Cutting text gs left) :
    ∀ g ∈ gs, ∃ t, g.Next t := by
  induction h with
  | finished => simp
  | openString _ => simp
  | segment hg _ ih => exact List.forall_mem_cons.mpr ⟨⟨_, hg⟩, ih⟩

/-- The text up to what is left is cut into the same segments. -/
theorem cut_off {text left : List Char} {gs : List Segment} (h : Cutting text gs left) :
    Cutting (gs.flatMap Segment.text) gs [] := by
  induction h with
  | finished => exact .finished
  | openString _ => exact .finished
  | segment hg hrest ih =>
    rw [← hrest.flatMap_append] at hg
    exact .segment hg.of_append ih

/-- What is left begins with a quote that is never closed. -/
theorem left_eq {text left : List Char} {gs : List Segment} (h : Cutting text gs left)
    (hne : left ≠ []) : ∃ q, left = '"' :: q ∧ '"' ∉ q := by
  induction h with
  | finished => exact absurd rfl hne
  | @openString q hn => exact ⟨q, rfl, noMatch_quote_iff.mp hn⟩
  | segment _ _ ih => exact ih hne

/-- There is one way to cut a text. -/
theorem unique {text left left' : List Char} {gs gs' : List Segment} (h : Cutting text gs left)
    (h' : Cutting text gs' left') : gs = gs' ∧ left = left' := by
  induction h generalizing gs' with
  | finished =>
    generalize ht : ([] : List Char) = text at h'
    cases h' with
    | finished => exact ⟨rfl, rfl⟩
    | openString _ => exact absurd ht (by simp)
    | segment hg _ => exact absurd (List.append_eq_nil_iff.mp ht.symm).1 hg.text_ne_nil
  | @openString text hn =>
    generalize ht : '"' :: text = text' at h'
    cases h' with
    | finished => exact absurd ht (by simp)
    | openString _ => exact ⟨rfl, rfl⟩
    | segment hg _ =>
      -- nothing can be cut where a quote is not closed
      rw [← ht] at hg
      exact absurd hg.not_openString (noMatch_quote_iff.mp hn)
  | @segment g rest left gs hg _ ih =>
    generalize ht : g.text ++ rest = text at h'
    cases h' with
    | finished => exact absurd (List.append_eq_nil_iff.mp ht).1 hg.text_ne_nil
    | openString hn =>
      rw [ht] at hg
      exact absurd hg.not_openString (noMatch_quote_iff.mp hn)
    | segment hg' hrest =>
      rw [ht] at hg
      obtain rfl := hg.unique hg'
      obtain rfl := List.append_cancel_left ht
      obtain ⟨rfl, rfl⟩ := ih hrest
      exact ⟨rfl, rfl⟩

end Cutting

end Lox

import Lox.Proofs.Segment

/-!
# What a segment sees of the text behind it

Whether a segment is the next one depends on its own text and on very little of what follows. A
match looks at one character behind it, and at a second one only where a point comes first: a digit
behind the point would belong to a number. At the end of a line everything stops. A stray character
looks at nothing.

These are the facts with which a segment is carried over from one text to another.
-/

namespace Lox

namespace Rule

/-- At the end of a line, or of the text, every match stops. -/
theorem stops_of_endOfLine (r : Rule) (s : List Char) {rest : List Char}
    (h : ∀ c ∈ rest.head?, c = '\n') : r.Stops s rest := by
  have hclass : ∀ p : Char → Bool, p '\n' = false → ∀ c ∈ rest.head?, p c = false := by
    intro p hp c hc
    rw [h c hc, hp]
  cases r with
  | operator k =>
    exact ⟨fun _ hc => absurd (h _ hc) (by decide), fun _ hc => absurd (h _ hc) (by decide)⟩
  | number =>
    refine ⟨hclass Char.isDigit (by decide), ?_⟩
    rintro _ d t rfl
    exact absurd (h '.' rfl) (by decide)
  | word => exact hclass isWordPart (by decide)
  | string => trivial
  | blank => trivial
  | comment => exact h

/-- Before a blank every match stops, but a comment only before a line feed. -/
theorem stops_of_blank {r : Rule} {c : Char} (s rest : List Char)
    (hc : c ∈ [' ', '\t', '\r', '\n']) (hr : r = .comment → c = '\n') : r.Stops s (c :: rest) := by
  have hblank : ∀ a ∈ [' ', '\t', '\r', '\n'],
      a ≠ '=' ∧ a ≠ '/' ∧ a ≠ '.' ∧ a.isDigit = false ∧ isWordPart a = false := by
    simp [isWordPart, isWordStart]
  obtain ⟨hequal, hslash, hpoint, hdigit, hword⟩ := hblank c hc
  cases r with
  | operator k =>
    exact ⟨fun _ h => hequal (Option.some.inj h), fun _ h => hslash (Option.some.inj h)⟩
  | number =>
    refine ⟨fun a ha => ?_, fun _ d t h => absurd (List.cons.inj h).1 hpoint⟩
    rw [← Option.some.inj ha]
    exact hdigit
  | word =>
    intro a ha
    rw [← Option.some.inj ha]
    exact hword
  | string => trivial
  | blank => trivial
  | comment =>
    intro a ha
    rw [← Option.some.inj ha]
    exact hr rfl

/-- The character behind the next one matters only if it is a digit behind a point. -/
theorem Stops.of_cons {r : Rule} {s t t' : List Char} {a : Char} (h : r.Stops s (a :: t))
    (ht : a = '.' → ∀ d ∈ t'.head?, d.isDigit = true → d ∈ t.head?) : r.Stops s (a :: t') := by
  cases r with
  | number =>
    refine ⟨h.1, fun hs d u hu => ?_⟩
    obtain ⟨rfl, rfl⟩ := List.cons.inj hu
    by_contra hd
    obtain ⟨u', rfl⟩ := List.head?_eq_some_iff.mp (ht rfl d rfl (by simpa using hd))
    exact hd (h.2 hs d u' rfl)
  | operator k => exact h
  | word => exact h
  | string => trivial
  | blank => trivial
  | comment => exact h

end Rule

namespace Segment

/-- The segment is one on its own: a rule matches it, or its character promises nothing. -/
def Valid : Segment → Prop
  | matched r s => s ∈ r.language
  | stray a => Opening.of a = .other

/-- What follows the segment does not continue it. -/
def Stops : Segment → List Char → Prop
  | matched r s, rest => r.Stops s rest
  | stray _, _ => True

/-- A character that is no quote is matched alone unless it promises nothing. -/
theorem exists_singleton_mem {a : Char} (hother : Opening.of a ≠ .other) (hquote : a ≠ '"') :
    ∃ r : Rule, [a] ∈ r.language := by
  suffices h : ∃ r, (Opening.of a).Tail r [] by
    obtain ⟨r, hr⟩ := h
    exact ⟨r, Rule.mem_of_tail hr⟩
  cases ho : Opening.of a with
  | single k => exact ⟨.operator k, rfl, rfl⟩
  | pair k k' => exact ⟨.operator k, Or.inl ⟨rfl, rfl⟩⟩
  | slash => exact ⟨.operator .slash, Or.inl ⟨rfl, rfl⟩⟩
  | blank => exact ⟨.blank, rfl, rfl⟩
  | quote => exact absurd (Opening.of_eq_iff.mp ho) hquote
  | digit => exact ⟨.number, rfl, Or.inl rfl⟩
  | wordStart => exact ⟨.word, rfl, fun c hc => absurd hc List.not_mem_nil⟩
  | other => exact absurd ho hother

/-- A segment is the next one if it is one on its own and what follows does not continue it. -/
theorem next_append_iff {g : Segment} {rest : List Char} :
    g.Next (g.text ++ rest) ↔ g.Valid ∧ g.Stops rest := by
  cases g with
  | matched r s =>
    refine ⟨fun h => ?_, fun h => (Rule.longestMatch_iff_stops h.1).mpr h.2⟩
    have hm : s ∈ r.language := LongestMatch.mem h
    exact ⟨hm, (Rule.longestMatch_iff_stops hm).mp h⟩
  | stray a =>
    refine ⟨fun h => ⟨?_, trivial⟩, fun h => ⟨noMatch_of_other h.1, rfl, ?_⟩⟩
    · obtain ⟨hn, _, hquote⟩ := h
      by_contra ho
      obtain ⟨r, hr⟩ := exists_singleton_mem ho hquote
      exact hn r [a] ⟨rest, rfl⟩ hr
    · rintro rfl
      exact absurd (show Opening.of '"' = .other from h.1) (by decide)

/-- A segment stays the next one when the text behind it ends a line. -/
theorem Next.of_endOfLine {g : Segment} {rest rest' : List Char} (h : g.Next (g.text ++ rest))
    (hrest : ∀ c ∈ rest'.head?, c = '\n') : g.Next (g.text ++ rest') := by
  obtain ⟨hvalid, _⟩ := next_append_iff.mp h
  refine next_append_iff.mpr ⟨hvalid, ?_⟩
  cases g with
  | matched r s => exact r.stops_of_endOfLine s hrest
  | stray a => trivial

/-- A segment stays the next one when the same character follows, and no new digit after a point. -/
theorem Next.of_cons {g : Segment} {a : Char} {t t' : List Char} (h : g.Next (g.text ++ a :: t))
    (ht : a = '.' → ∀ d ∈ t'.head?, d.isDigit = true → d ∈ t.head?) :
    g.Next (g.text ++ a :: t') := by
  obtain ⟨hvalid, hstops⟩ := next_append_iff.mp h
  refine next_append_iff.mpr ⟨hvalid, ?_⟩
  cases g with
  | matched r s => exact Rule.Stops.of_cons hstops ht
  | stray b => trivial

end Segment

end Lox

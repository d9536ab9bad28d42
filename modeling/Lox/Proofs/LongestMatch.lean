import Lox.Proofs.Opening

/-!
# Longest matches, and where they stop

The longest match at the beginning of a text is defined over all beginnings and all rules. To check
one, it is enough to look at what comes right behind it: `Rule.Stops` asks for at most two
characters, and `longestMatch_iff_stops` says that this is the same thing. The point of a number is
the one place where a second character matters.
-/

namespace Lox

/-- The rule `r` matches `s`, and no rule matches a longer beginning of `text`. -/
structure LongestMatch (r : Rule) (s text : List Char) : Prop where
  mem : s ∈ r.language
  /-- What is matched is a beginning of the text. -/
  beginning : s <+: text
  longest : ∀ (r' : Rule) (s' : List Char), s' <+: text → s' ∈ r'.language → s'.length ≤ s.length

def NoMatch (text : List Char) : Prop :=
  ∀ (r : Rule) (s : List Char), s <+: text → s ∉ r.language

theorem LongestMatch.unique {r r' : Rule} {s s' text : List Char}
    (h : LongestMatch r s text) (h' : LongestMatch r' s' text) : r = r' ∧ s = s' := by
  have hle : s.length ≤ s'.length := h'.longest r s h.beginning h.mem
  have hge : s'.length ≤ s.length := h.longest r' s' h'.beginning h'.mem
  have hs : s = s' :=
    (List.prefix_of_prefix_length_le h.beginning h'.beginning hle).eq_of_length_le hge
  subst hs
  exact ⟨Rule.eq_of_mem h.mem h'.mem, rfl⟩

theorem LongestMatch.not_noMatch {r : Rule} {s text : List Char} (h : LongestMatch r s text) :
    ¬ NoMatch text := fun hn => hn r s h.beginning h.mem

/-- What is matched cannot be continued by what follows it. -/
theorem LongestMatch.append_notMem {r : Rule} {s t rest : List Char}
    (h : LongestMatch r s (s ++ (t ++ rest))) (ht : t ≠ []) (r' : Rule) :
    s ++ t ∉ r'.language := by
  intro hm
  have hle := h.longest r' (s ++ t) ⟨rest, List.append_assoc s t rest⟩ hm
  rw [List.length_append] at hle
  have := List.length_pos_of_ne_nil ht
  omega

/-- Less text behind a match makes nothing longer. -/
theorem LongestMatch.of_append {r : Rule} {s rest cut : List Char}
    (h : LongestMatch r s (s ++ (rest ++ cut))) : LongestMatch r s (s ++ rest) := by
  refine ⟨h.mem, ⟨rest, rfl⟩, fun r' s' hs' hm => ?_⟩
  refine h.longest r' s' ?_ hm
  rw [← List.append_assoc]
  exact hs'.trans (List.prefix_append _ _)

theorem NoMatch.of_append {text cut : List Char} (h : NoMatch (text ++ cut)) : NoMatch text :=
  fun r s hs => h r s (hs.trans (List.prefix_append _ _))

/-! ## Texts that no rule opens -/

/-- A character that promises nothing is matched by no rule, whatever follows. -/
theorem noMatch_of_other {a : Char} {text : List Char} (h : Opening.of a = .other) :
    NoMatch (a :: text) := by
  intro r s hs hm
  obtain ⟨b, t, rfl⟩ := Rule.exists_cons_of_mem hm
  obtain ⟨rfl, _⟩ := List.cons_prefix_cons.mp hs
  have ht := Rule.tail_of_mem hm
  rw [h] at ht
  exact ht

/-- A quote that is not closed is matched by no rule. -/
theorem noMatch_quote_iff {text : List Char} : NoMatch ('"' :: text) ↔ '"' ∉ text := by
  refine ⟨?_, ?_⟩
  · intro h hq
    obtain ⟨body, rest, rfl, hb⟩ := List.eq_append_cons_of_mem hq
    refine h .string ('"' :: (body ++ ['"'])) ⟨rest, by simp⟩ ?_
    exact Rule.mem_string.mpr ⟨body, hb, rfl⟩
  · intro h r s hs hm
    obtain ⟨b, t, rfl⟩ := Rule.exists_cons_of_mem hm
    obtain ⟨rfl, hpre⟩ := List.cons_prefix_cons.mp hs
    obtain ⟨_, body, _, rfl⟩ := Rule.tail_of_mem hm
    exact h (hpre.subset (by simp))

/-! ## Where a match stops -/

namespace Rule

/-- What follows a text that a rule matches does not continue it. -/
def Stops : Rule → List Char → List Char → Prop
  | operator _, s, rest => (s ∈ [['!'], ['='], ['<'], ['>']] → rest.head? ≠ some '=') ∧
      (s = ['/'] → rest.head? ≠ some '/')
  | number, s, rest => (∀ c ∈ rest.head?, c.isDigit = false) ∧
      ('.' ∉ s → ∀ d t, rest = '.' :: d :: t → d.isDigit = false)
  | word, _, rest => ∀ c ∈ rest.head?, isWordPart c = false
  | string, _, _ => True
  | blank, _, _ => True
  | comment, _, rest => ∀ c ∈ rest.head?, c = '\n'

theorem stops_nil (r : Rule) (s : List Char) : r.Stops s [] := by
  cases r <;> simp [Stops]

theorem mem_alone_of_withEqual {a : Char} {k : Kind} (h : ([a, '='], k) ∈ operators) :
    [a] ∈ [['!'], ['='], ['<'], ['>']] := by
  simp [operators] at h ⊢
  tauto

section Continued

/-! What has stopped is not continued by what its first character allows, one promise at a time. -/

variable {r r' : Rule} {a b : Char} {u t rest : List Char}

/-- An equals sign could follow, but only behind the first character. -/
theorem Stops.not_tail_pair {k k' : Kind} (h : (Opening.pair k k').Tail r u)
    (ha : ([a, '='], k') ∈ operators) (hs : r.Stops (a :: u) (b :: (t ++ rest))) :
    ¬ (Opening.pair k k').Tail r' (u ++ b :: t) := by
  intro h'
  rcases h with ⟨rfl, rfl⟩ | ⟨rfl, rfl⟩
  · rcases h' with ⟨_, ht⟩ | ⟨_, ht⟩
    · exact absurd ht (by simp)
    · obtain ⟨rfl, rfl⟩ := List.cons.inj ht
      exact hs.1 (mem_alone_of_withEqual ha) rfl
  · rcases h' with ⟨_, ht⟩ | ⟨_, ht⟩ <;> exact absurd ht (by simp)

/-- A second slash could follow, or a comment could go on behind its line. -/
theorem Stops.not_tail_slash (h : Opening.slash.Tail r u)
    (hs : r.Stops ('/' :: u) (b :: (t ++ rest))) : ¬ Opening.slash.Tail r' (u ++ b :: t) := by
  intro h'
  rcases h with ⟨rfl, rfl⟩ | ⟨rfl, body, _, rfl⟩
  · rcases h' with ⟨_, ht⟩ | ⟨_, body, _, ht⟩
    · exact absurd ht (by simp)
    · obtain ⟨rfl, rfl⟩ := List.cons.inj ht
      exact hs.2 rfl rfl
  · rcases h' with ⟨_, ht⟩ | ⟨_, body', hb', ht⟩
    · exact absurd ht (by simp)
    · obtain rfl : b = '\n' := hs b rfl
      refine hb' ?_
      rw [← (List.cons.inj ht).2]
      simp

/-- The first of two closing quotes would lie inside the string. -/
theorem not_tail_quote (h : Opening.quote.Tail r u) : ¬ Opening.quote.Tail r' (u ++ b :: t) := by
  rintro ⟨_, body', hb', ht⟩
  obtain ⟨_, body, _, rfl⟩ := h
  have hbody : (body ++ ['"']) ++ (b :: t).dropLast = body' := by
    rw [← List.dropLast_append_of_ne_nil (List.cons_ne_nil b t), ht, List.dropLast_concat]
  refine hb' ?_
  rw [← hbody]
  simp

/-- More digits could follow, or a point and a digit if there is no point yet. -/
theorem Stops.not_tail_digit (ha : a.isDigit = true) (h : Opening.digit.Tail r u)
    (hs : r.Stops (a :: u) (b :: (t ++ rest))) : ¬ Opening.digit.Tail r' (u ++ b :: t) := by
  rintro ⟨_, ht⟩
  obtain ⟨rfl, hu⟩ := h
  have hb : b.isDigit = false := hs.1 b rfl
  rcases hu with hu | ⟨fraction, _, hu⟩
  · -- no fraction yet
    have hall := List.dropWhile_eq_nil_iff.mp hu
    rw [List.dropWhile_append_of_pos hall, List.dropWhile_cons_of_neg (by simp [hb])] at ht
    rcases ht with ht | ⟨fraction', hfr', ht⟩
    · exact absurd ht (by simp)
    · obtain ⟨rfl, rfl⟩ := List.cons.inj ht
      obtain ⟨hne, hdigits⟩ := mem_digits.mp hfr'
      obtain ⟨d, v, rfl⟩ := List.exists_cons_of_ne_nil hne
      have hwhole : ∀ c ∈ a :: u, c.isDigit = true := List.forall_mem_cons.mpr ⟨ha, hall⟩
      have hpoint : '.' ∉ a :: u := fun hp => absurd (hwhole '.' hp) (by decide)
      exact absurd (hdigits d (by simp)) (by simp [hs.2 hpoint d (v ++ rest) rfl])
  · -- there is one, and the digits would have to go on
    rw [List.dropWhile_append, hu] at ht
    rcases ht with ht | ⟨fraction', hfr', ht⟩
    · exact absurd ht (by simp)
    · have hmem : b ∈ fraction' := by
        rw [← (List.cons.inj ht).2]
        simp
      exact absurd ((mem_digits.mp hfr').2 b hmem) (by simp [hb])

end Continued

/-- Behind a match that stops, no rule matches more. -/
theorem Stops.append_notMem {r r' : Rule} {s t rest : List Char} {b : Char} (h : s ∈ r.language)
    (hs : r.Stops s (b :: (t ++ rest))) : s ++ b :: t ∉ r'.language := by
  intro h'
  obtain ⟨a, u, rfl⟩ := exists_cons_of_mem h
  have hf := Opening.fits_of a
  replace h := mem_language_cons.mp h
  replace h' : (Opening.of a).Tail r' (u ++ b :: t) := mem_language_cons.mp h'
  generalize Opening.of a = o at h h' hf
  cases o with
  | single k => exact absurd h'.2 (by simp)
  | pair k k' => exact hs.not_tail_pair h hf.2 h'
  | slash =>
    obtain rfl : a = '/' := hf
    exact hs.not_tail_slash h h'
  | blank => exact absurd h'.2 (by simp)
  | quote => exact not_tail_quote h h'
  | digit => exact hs.not_tail_digit hf h h'
  | wordStart =>
    obtain ⟨rfl, _⟩ := h
    exact absurd (h'.2 b (by simp)) (by simp [hs b rfl])
  | other => exact h.elim

/-! ## What would continue a match -/

theorem exists_mem_append_equal {s : List Char} (h : s ∈ [['!'], ['='], ['<'], ['>']]) :
    ∃ k, s ++ ['='] ∈ (operator k).language := by
  simp only [List.mem_cons, List.not_mem_nil, or_false] at h
  rcases h with rfl | rfl | rfl | rfl
  · exact ⟨.bangEqual, by show (['!', '='], Kind.bangEqual) ∈ operators; decide⟩
  · exact ⟨.equalEqual, by show (['=', '='], Kind.equalEqual) ∈ operators; decide⟩
  · exact ⟨.lessEqual, by show (['<', '='], Kind.lessEqual) ∈ operators; decide⟩
  · exact ⟨.greaterEqual, by show (['>', '='], Kind.greaterEqual) ∈ operators; decide⟩

theorem mem_digits_concat {s : List Char} {c : Char} (h : s ∈ digits) (hc : c.isDigit = true) :
    s ++ [c] ∈ digits := by
  obtain ⟨_, hall⟩ := mem_digits.mp h
  refine mem_digits.mpr ⟨by simp, fun d hd => ?_⟩
  rcases List.mem_append.mp hd with hd | hd
  · exact hall d hd
  · rw [List.mem_singleton.mp hd]; exact hc

theorem mem_number_concat {s : List Char} {c : Char} (h : s ∈ number.language)
    (hc : c.isDigit = true) : s ++ [c] ∈ number.language := by
  obtain ⟨whole, hw, rfl | ⟨fraction, hf, rfl⟩⟩ := mem_number.mp h
  · exact mem_number.mpr ⟨s ++ [c], mem_digits_concat hw hc, Or.inl rfl⟩
  · exact mem_number.mpr ⟨whole, hw, Or.inr ⟨fraction ++ [c], mem_digits_concat hf hc, by simp⟩⟩

theorem mem_number_point {s : List Char} {d : Char} (h : s ∈ number.language) (hs : '.' ∉ s)
    (hd : d.isDigit = true) : s ++ ['.', d] ∈ number.language := by
  obtain ⟨whole, hw, rfl | ⟨fraction, _, rfl⟩⟩ := mem_number.mp h
  · exact mem_number.mpr ⟨s, hw, Or.inr ⟨[d], mem_digits.mpr ⟨by simp, by simpa using hd⟩, rfl⟩⟩
  · exact absurd hs (by simp)

theorem stops_of_longestMatch {r : Rule} {s rest : List Char}
    (h : LongestMatch r s (s ++ rest)) : r.Stops s rest := by
  have key : ∀ c, rest.head? = some c → ∀ r' : Rule, s ++ [c] ∉ r'.language := by
    intro c hc r'
    obtain ⟨t, rfl⟩ := List.head?_eq_some_iff.mp hc
    exact LongestMatch.append_notMem (t := [c]) h (by simp) r'
  cases r with
  | operator k =>
    refine ⟨?_, ?_⟩
    · intro hs hc
      obtain ⟨k', hk'⟩ := exists_mem_append_equal hs
      exact key '=' hc (.operator k') hk'
    · rintro rfl hc
      exact key '/' hc .comment (mem_comment.mpr ⟨[], by simp, rfl⟩)
  | number =>
    refine ⟨?_, ?_⟩
    · intro c hc
      by_contra hd
      exact key c hc .number (mem_number_concat h.mem (by simpa using hd))
    · rintro hs d t rfl
      by_contra hd
      refine LongestMatch.append_notMem (t := ['.', d]) h (by simp) .number ?_
      exact mem_number_point h.mem hs (by simpa using hd)
  | word =>
    intro c hc
    by_contra hd
    obtain ⟨a, t, ha, ht, rfl⟩ := mem_word.mp h.mem
    refine key c hc .word (mem_word.mpr ⟨a, t ++ [c], ha, fun b hb => ?_, rfl⟩)
    rcases List.mem_append.mp hb with hb | hb
    · exact ht b hb
    · rw [List.mem_singleton.mp hb]; simpa using hd
  | string => trivial
  | blank => trivial
  | comment =>
    intro c hc
    by_contra hn
    obtain ⟨body, hb, rfl⟩ := mem_comment.mp h.mem
    refine key c hc .comment (mem_comment.mpr ⟨body ++ [c], ?_, rfl⟩)
    simp [hb, Ne.symm hn]

/-- One look behind a match tells whether it is the longest. -/
theorem longestMatch_iff_stops {r : Rule} {s rest : List Char} (h : s ∈ r.language) :
    LongestMatch r s (s ++ rest) ↔ r.Stops s rest := by
  refine ⟨stops_of_longestMatch, fun hs => ⟨h, List.prefix_append s rest, ?_⟩⟩
  intro r' s' hpre hm
  by_contra hlt
  -- a longer match would be this one with more behind it
  obtain ⟨t, rfl⟩ :=
    List.prefix_of_prefix_length_le (List.prefix_append s rest) hpre (by omega)
  obtain ⟨rest', hrest⟩ := (List.prefix_append_right_inj s).mp hpre
  cases t with
  | nil => simp at hlt
  | cons b t =>
    subst hrest
    exact Stops.append_notMem h hs hm

end Rule

end Lox

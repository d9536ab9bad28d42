import Lox.Proofs.NumberLiterals
import Lox.Proofs.Numerals
import Lox.Proofs.Shortest

/-!
# A printed number scans back

The number that a token denotes is shown by its shortest decimal, written without a power of ten and
without a point behind a whole number. As a program, what is shown is one number token, and it
denotes the same double, whether the decimal has zeros to fill it up to the point or hundreds of
them behind it. Infinity is the one number that is not shown by digits, and its name is a word like
any other.
-/

namespace Lox

/-! ## Numerals without a power of ten are numbers of a program -/

namespace Numeral

variable {n : Numeral}

/-- Without a sign and a power of ten, a numeral is its digits and perhaps a point. -/
theorem chars_of_plain (hsign : n.negative = false) (hexp : n.exponent = none) :
    n.chars = n.whole ++ n.fractionChars := by
  rw [chars_eq, hsign, hexp, if_neg (by simp), List.nil_append, exponentChars, List.append_nil]

theorem whole_mem_digits (n : Numeral) : n.whole ∈ Rule.digits :=
  Rule.mem_digits.mpr ⟨n.whole_ne_nil, fun _ => isDigit_of_mem_whole⟩

theorem fraction_mem_digits (h : n.places ≠ 0) : n.fraction ∈ Rule.digits :=
  Rule.mem_digits.mpr ⟨fraction_ne_nil h, fun _ => isDigit_of_mem_fraction⟩

theorem chars_mem_number (hsign : n.negative = false) (hexp : n.exponent = none) :
    n.chars ∈ Rule.number.language := by
  rw [chars_of_plain hsign hexp, fractionChars]
  by_cases hz : n.places = 0
  · rw [if_pos hz, List.append_nil]
    exact Rule.mem_number.mpr ⟨n.whole, n.whole_mem_digits, .inl rfl⟩
  · rw [if_neg hz]
    exact Rule.mem_number.mpr
      ⟨n.whole, n.whole_mem_digits, .inr ⟨n.fraction, fraction_mem_digits hz, rfl⟩⟩

theorem numberParts_chars (hsign : n.negative = false) (hexp : n.exponent = none) :
    numberParts n.chars = (n.whole, n.fraction) := by
  have hwhole : ∀ c ∈ n.whole, c.isDigit = true := fun _ => isDigit_of_mem_whole
  rw [chars_of_plain hsign hexp, fractionChars]
  by_cases hz : n.places = 0
  · have hnil : n.fraction = [] := List.eq_nil_of_length_eq_zero (n.length_fraction.trans hz)
    rw [if_pos hz, List.append_nil, numberParts_digits hwhole, hnil]
  · rw [if_neg hz, numberParts_point hwhole]

/-- What the characters spell is the numeral itself. -/
theorem ofParts_numberParts (hsign : n.negative = false) (hexp : n.exponent = none) :
    ofParts (numberParts n.chars).1 (numberParts n.chars).2 = n := by
  rw [numberParts_chars hsign hexp, ofParts_whole_fraction]
  obtain ⟨negative, coefficient, places, exponent⟩ := n
  obtain rfl : negative = false := hsign
  obtain rfl : exponent = none := hexp
  rfl

end Numeral

/-- A number holds no line break. -/
theorem count_newline_of_mem_number {s : List Char} (h : s ∈ Rule.number.language) :
    s.count '\n' = 0 := by
  rw [List.count_eq_zero]
  intro hmem
  obtain ⟨whole, hw, hs⟩ := Rule.mem_number.mp h
  have hdigit : ∀ ds ∈ Rule.digits, '\n' ∉ ds := by
    intro ds hds hc
    exact absurd ((Rule.mem_digits.mp hds).2 _ hc) (by decide)
  rcases hs with rfl | ⟨fraction, hf, rfl⟩
  · exact hdigit _ hw hmem
  · rcases List.mem_append.mp hmem with hmem | hmem
    · exact hdigit _ hw hmem
    · rcases List.mem_cons.mp hmem with hmem | hmem
      · exact absurd hmem (by decide)
      · exact hdigit _ hf hmem

/-! ## Shown numbers -/

namespace Literal

/-- No power of ten is shown. -/
theorem numeral_style (x : Binary64) :
    (x.numeral style).negative = x.negative ∧ (x.numeral style).exponent = none := by
  have hpositional : ∀ d : Decimal, (d.positional 0).exponent = none := by
    intro d
    unfold Decimal.positional
    cases d.exponent with
    | ofNat k => rfl
    | negSucc k => rfl
  exact ⟨rfl, hpositional _⟩

theorem shown_of_isFinite {x : Binary64} (h : x.isFinite = true) :
    (number x).shown = String.ofList (x.numeral style).chars := by
  have hlt : x.magnitude < Binary64.infinity := of_decide_eq_true h
  have hnan : ¬ x.isNaN = true := by
    intro hn
    have : Binary64.infinity < x.magnitude := of_decide_eq_true hn
    omega
  have hinf : ¬ x.isInfinite = true := by
    intro hi
    have : x.magnitude = Binary64.infinity := of_decide_eq_true hi
    omega
  show numberText x = _
  rw [numberText, if_neg hnan, if_neg hinf, Numeral.text]

theorem shown_of_isInfinite {x : Binary64} (h : x.isInfinite = true) (hsign : x.negative = false) :
    (number x).shown = "inf" := by
  have hnan : ¬ x.isNaN = true := by
    intro hn
    have : Binary64.infinity < x.magnitude := of_decide_eq_true hn
    have : x.magnitude = Binary64.infinity := of_decide_eq_true h
    omega
  show numberText x = _
  rw [numberText, if_neg hnan, if_pos h, if_neg (by simp [hsign])]

end Literal

/-- The digits and the point are those of a shortest decimal, and there are no zeros to spare. -/
structure Binary64.ShortestText (x : Binary64) (s : List Char) : Prop where
  spells : ∃ d, SpellsNumber s d.value ∧ IsShortest x.magnitude d
  /-- A zero in front stands alone before the point. -/
  front : ∀ c t, s = '0' :: c :: t → c = '.'
  /-- Behind a point there are digits that do not end in a zero. -/
  back : '.' ∈ s → s.getLast? ≠ some '0'

/-- Of the digits behind the point none is a zero at the end. -/
theorem Literal.numeral_mod_ten {x : Binary64} (h : x.isFinite = true)
    (hplaces : (x.numeral style).places ≠ 0) : (x.numeral style).coefficient % 10 ≠ 0 := by
  have hlt : x.magnitude < Binary64.infinity := of_decide_eq_true h
  have hpositional : ∀ d : Decimal, (d.positional 0).places ≠ 0 →
      d.exponent ≠ 0 ∧ (d.positional 0).coefficient = d.coefficient := by
    intro d hd
    unfold Decimal.positional at hd ⊢
    cases he : d.exponent with
    | ofNat k =>
      rw [he] at hd
      exact absurd rfl hd
    | negSucc k =>
      dsimp only
      rw [Nat.zero_sub, Nat.pow_eq, Nat.pow_zero, Nat.mul_one]
      exact ⟨by simp, rfl⟩
  obtain ⟨hexp, hcoefficient⟩ := hpositional (Binary64.shortest style.tie x.magnitude) hplaces
  show ((Binary64.shortest style.tie x.magnitude).positional 0).coefficient % 10 ≠ 0
  rw [hcoefficient]
  refine Binary64.shortest_mod_ten style.tie ?_ hlt
  rcases Nat.eq_zero_or_pos x.magnitude with hz | hpos
  · rw [hz] at hexp
    exact absurd rfl hexp
  · exact hpos

theorem Literal.shortestText {x : Binary64} (h : x.isFinite = true) (hsign : x.negative = false) :
    x.ShortestText (number x).shown.toList := by
  obtain ⟨hnegative, hexp⟩ := numeral_style x
  rw [hsign] at hnegative
  rw [shown_of_isFinite h, String.toList_ofList]
  have hchars := Numeral.chars_of_plain hnegative hexp
  refine ⟨?_, ?_, ?_⟩
  · have hspells := spellsNumber_of_mem_number (Numeral.chars_mem_number hnegative hexp)
    rw [Numeral.ofParts_numberParts hnegative hexp, Binary64.value_numeral] at hspells
    exact ⟨_, hspells, Binary64.isShortest_shortest _ (of_decide_eq_true h)⟩
  · intro c t hs
    rw [hchars] at hs
    rcases (x.numeral style).whole_eq_zero_or with hzero | hhead
    · rw [hzero, Numeral.fractionChars] at hs
      split at hs
      · exact absurd hs (by simp)
      · exact (List.cons.inj (List.cons.inj hs).2).1.symm
    · rw [← List.head?_append_of_ne_nil _ (Numeral.whole_ne_nil _), hs] at hhead
      exact absurd rfl hhead
  · intro hpoint
    rw [hchars] at hpoint ⊢
    have hplaces : (x.numeral style).places ≠ 0 := by
      intro hzero
      rw [Numeral.fractionChars, if_pos hzero, List.append_nil] at hpoint
      exact absurd (Numeral.isDigit_of_mem_whole hpoint) (by decide)
    have hlast := Numeral.getLast?_fraction hplaces
    rw [Numeral.fractionChars, if_neg hplaces, ← List.singleton_append, ← List.append_assoc,
      List.getLast?_append, hlast]
    intro heq
    exact Digits.digitChar_ne_zero (numeral_mod_ten h hplaces) (Option.some.inj heq)

/-- What is shown of a number is scanned without a fault, and nothing is lost by it. -/
structure Binary64.ScansBack (x : Binary64) : Prop where
  isNaN : x.isNaN = false
  /-- Of a finite number a shortest decimal is shown that denotes it, without a power of ten. -/
  shortest : x.isFinite = true → x.ShortestText (Literal.number x).shown.toList
  /-- A finite number is one number token, of the whole text and of this number. -/
  finite : x.isFinite = true → scan (Literal.number x).shown = .ok
    { tokens := [⟨.number, (Literal.number x).shown, some (.number x), 1⟩, .endOfText 1]
      errors := [] }
  /-- Infinity is an identifier. -/
  infinite : x.isInfinite = true → (Literal.number x).shown = "inf" ∧ scan "inf" = .ok
    { tokens := [⟨.identifier, "inf", none, 1⟩, .endOfText 1]
      errors := [] }

theorem scan_shown_of_isFinite {x : Binary64} (h : x.isFinite = true) (hsign : x.negative = false) :
    scan (Literal.number x).shown = .ok
      { tokens := [⟨.number, (Literal.number x).shown, some (.number x), 1⟩, .endOfText 1]
        errors := [] } := by
  obtain ⟨hnegative, hexp⟩ := Literal.numeral_style x
  rw [hsign] at hnegative
  have hmem := Numeral.chars_mem_number hnegative hexp
  have hparts := Numeral.ofParts_numberParts hnegative hexp
  have hread : Binary64.ofNumeral (x.numeral Literal.style) = x := by
    ext1
    · rfl
    · exact Binary64.magnitudeOf_numeral Literal.style (of_decide_eq_true h)
  have hliteral : (Segment.matched .number (x.numeral Literal.style).chars).literal? =
      some (.number x) := by
    conv_rhs => rw [← hread, ← hparts]
    rfl
  rw [Literal.shown_of_isFinite h, scan_of_mem hmem, count_newline_of_mem_number hmem, ← hliteral]
  rfl

theorem scan_inf :
    scan "inf" = .ok
      { tokens := [⟨.identifier, "inf", none, 1⟩, .endOfText 1]
        errors := [] } := by
  have hmem : ['i', 'n', 'f'] ∈ Rule.word.language :=
    Rule.mem_word.mpr ⟨'i', ['n', 'f'], by decide, by simp [isWordPart, isWordStart], rfl⟩
  exact scan_of_mem hmem

theorem Binary64.scansBack {x : Binary64} (hnan : x.isNaN = false) (hsign : x.negative = false) :
    x.ScansBack where
  isNaN := hnan
  shortest h := Literal.shortestText h hsign
  finite h := scan_shown_of_isFinite h hsign
  infinite h := ⟨Literal.shown_of_isInfinite h hsign, scan_inf⟩

/--
**A printed number literal scans back to itself.** The double that a number token denotes is not
undefined. If it is finite, then a shortest decimal is shown of it, digits with perhaps a point and
without a power of ten, and this is scanned without a fault as one number token of this text and
this double, bit for bit. If it is infinite, then what is shown of it is scanned as one identifier.
-/
theorem shown_literal_scans_back {source : String} {t : Token} (h : TokenOf source t)
    (hk : t.kind = .number) : ∃ x, t.literal = some (.number x) ∧ x.ScansBack := by
  obtain ⟨g, line, text, hg, ht⟩ := h.exists_next (by rw [hk]; decide)
  obtain ⟨s, hs, rfl⟩ := hg.mem_number ht hk
  obtain ⟨d, hd⟩ := Segment.rounded_number hs ht
  exact ⟨_, hd.literal, Binary64.scansBack hd.isNaN hd.negative⟩

/-- A token whose number is shown with fewer zeros than it was written with. -/
def halfToken : Token where
  kind := .number
  lexeme := "00.50"
  literal := some (.number (.ofBits 0x3FE0000000000000))
  line := 1

/-- Zeros on both sides of the digits are not shown, and the number is the same without them. -/
theorem shown_literal_scans_back_halfToken :
    scan "00.50" = .ok { tokens := [halfToken, .endOfText 1], errors := [] } ∧
      ∃ x, halfToken.literal = some (.number x) ∧ x.ScansBack := by
  have hmem : "00.50".toList ∈ Rule.number.language :=
    Rule.mem_number.mpr ⟨['0', '0'], Rule.mem_digits.mpr (by simp),
      .inr ⟨['5', '0'], Rule.mem_digits.mpr (by simp), rfl⟩⟩
  have hscan : scan "00.50" = .ok { tokens := [halfToken, .endOfText 1], errors := [] } := by
    have h := scan_of_mem hmem
    rw [String.ofList_toList] at h
    rw [h]
    decide +kernel
  exact ⟨hscan, shown_literal_scans_back (.scanned hscan List.mem_cons_self) rfl⟩

end Lox

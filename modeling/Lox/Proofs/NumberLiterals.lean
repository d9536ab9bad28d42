import Lox.Proofs.Nearest
import Lox.Proofs.Segmentation

/-!
# Number literals are rounded correctly

The text of a number token spells an exact rational number, and the token denotes the double nearest
to it. This holds for numbers of any length, so neither a digit that stands far behind nor a run of
zeros in front makes a difference. The numbers below the normal ones are no exception, up to the
point below which a number is lost to zero, and from half a step behind the largest double on a
number is infinite.

Tokens come from a whole scan or from a single step, and a step may be taken wherever a lexer
stands. Both answer with the segment that is next, and only the text of this segment matters.
-/

namespace Lox

/-! ## The number that a text spells -/

/-- A run of digits, or two of them with a point between, spells a rational number. -/
inductive SpellsNumber : List Char → ℚ → Prop where
  | whole {ds : List Char} : ds ∈ Rule.digits → SpellsNumber ds (Nat.ofDigitChars 10 ds 0)
  | point {ds fs : List Char} : ds ∈ Rule.digits → fs ∈ Rule.digits →
      SpellsNumber (ds ++ '.' :: fs)
        (Nat.ofDigitChars 10 ds 0 + Nat.ofDigitChars 10 fs 0 / 10 ^ fs.length)

theorem SpellsNumber.nonneg {s : List Char} {q : ℚ} (h : SpellsNumber s q) : 0 ≤ q := by
  cases h with
  | whole _ => exact Nat.cast_nonneg _
  | point _ _ => positivity

/-- Of the digits behind a point the last one counts the power of ten that is their number. -/
theorem value_ofParts (whole fraction : List Char) :
    (Numeral.ofParts whole fraction).absolute.value =
      Nat.ofDigitChars 10 whole 0 + Nat.ofDigitChars 10 fraction 0 / 10 ^ fraction.length := by
  have hten : (10 : ℚ) ^ fraction.length ≠ 0 := pow_ne_zero _ (by norm_num)
  have hexp : (none : Option Int).getD 0 - fraction.length = -(fraction.length : Int) := by
    rw [Option.getD_none, Int.zero_sub]
  have hdigits : Nat.ofDigitChars 10 (whole ++ fraction) 0 =
      10 ^ fraction.length * Nat.ofDigitChars 10 whole 0 + Nat.ofDigitChars 10 fraction 0 := by
    rw [Nat.ofDigitChars_append, Nat.ofDigitChars_eq_ofDigitChars_zero]
  rw [Numeral.ofParts, Numeral.absolute, Decimal.value]
  dsimp only
  rw [hexp, zpow_neg, zpow_natCast, hdigits]
  push_cast
  field_simp

theorem spellsNumber_of_mem_number {s : List Char} (h : s ∈ Rule.number.language) :
    SpellsNumber s (Numeral.ofParts (numberParts s).1 (numberParts s).2).absolute.value := by
  obtain ⟨whole, hw, rfl | ⟨fraction, hf, rfl⟩⟩ := Rule.mem_number.mp h
  · have hparts := numberParts_digits (Rule.mem_digits.mp hw).2
    rw [hparts, value_ofParts]
    have hnone : (Nat.ofDigitChars 10 [] 0 : ℚ) / 10 ^ ([] : List Char).length = 0 := by simp
    rw [hnone, add_zero]
    exact .whole hw
  · rw [numberParts_point (Rule.mem_digits.mp hw).2, value_ofParts]
    exact .point hw hf

/-! ## The tokens of a text -/

/-- A token of a text: one that a scan yields, or one that a step of a lexer answers with. -/
inductive TokenOf (source : String) (t : Token) : Prop where
  | scanned {s : Scanned} : scan source = .ok s → t ∈ s.tokens → TokenOf source t
  | stepped {l : Lexer source} : l.step.1 = .ok (some t) → TokenOf source t

/-- A token that denotes something else than the end of the text is a segment of it. -/
theorem TokenOf.exists_next {source : String} {t : Token} (h : TokenOf source t)
    (heof : t.kind ≠ .eof) :
    ∃ (g : Segment) (line : Nat) (text : List Char), g.Next text ∧ g.token? line = some t := by
  cases h with
  | scanned hscan ht =>
    rcases mem_tokens_of_scan hscan ht with hsegment | ⟨line, rfl⟩
    · exact hsegment
    · exact absurd rfl heof
  | @stepped l hstep =>
    unfold Lexer.step at hstep
    cases hp : l.cursor.piece? with
    | none =>
      rw [hp] at hstep
      exact absurd hstep (by simp)
    | some r =>
      obtain ⟨o, c⟩ := r
      rw [hp] at hstep
      have ho : o.result = .ok (some t) := hstep
      cases Cursor.isPiece_of_piece? hp with
      | segment g hg _ =>
        rw [g.result_outcome] at ho
        exact ⟨g, l.cursor.line, _, hg, Except.ok.inj ho⟩
      | openString _ _ _ => exact absurd ho (by simp [Outcome.result])

/-! ## What a number token denotes -/

/--
A token denotes the double nearest to the number that its text spells. The text is read as a
double, and what is read is the nearest double, with no sign in front.
-/
structure Token.Rounded (t : Token) (q : ℚ) (x : Binary64) : Prop where
  spells : SpellsNumber t.lexeme.toList q
  literal : t.literal = some (.number x)
  /-- The text is one that can be read, so nothing else is put in its place. -/
  read : Binary64.ofText? t.lexeme = some x
  nearest : Binary64.IsNearest q x
  negative : x.negative = false

theorem Token.Rounded.isNaN {t : Token} {q : ℚ} {x : Binary64} (h : t.Rounded q x) :
    x.isNaN = false := h.nearest.isNaN

/-- No other double is nearest, but for a zero with a sign. -/
theorem Token.Rounded.unique {t : Token} {q : ℚ} {x y : Binary64} (h : t.Rounded q x)
    (hy : Binary64.IsNearest q y) (hsign : y.negative = false) : y = x :=
  hy.unique h.nearest (hsign.trans h.negative.symm)

theorem Segment.rounded_number {s : List Char} (h : s ∈ Rule.number.language) {line : Nat}
    {t : Token} (ht : (Segment.matched .number s).token? line = some t) :
    ∃ d : Decimal, t.Rounded d.value (.ofDecimal false d) := by
  obtain rfl := Option.some.inj ht
  refine ⟨(Numeral.ofParts (numberParts s).1 (numberParts s).2).absolute, ?_, rfl, ?_, ?_, rfl⟩
  · show SpellsNumber (String.ofList s).toList _
    rw [String.toList_ofList]
    exact spellsNumber_of_mem_number h
  · exact Binary64.ofText?_of_mem_number h
  · have hn := Binary64.isNearest_ofDecimal false
      (Numeral.ofParts (numberParts s).1 (numberParts s).2).absolute
    rw [Binary64.signed, if_neg (by simp), one_mul] at hn
    exact hn

/--
**Number literals are rounded correctly.** A number token of any text spells a rational number `q`
and denotes the double nearest to `q`: no other double is nearest and not negative. The text is
always one that can be read. The double is infinite from half a step behind the largest one on, it
is zero up to half of the least one, and it is neither undefined nor negative.
-/
theorem number_literal_nearest {source : String} {t : Token} (h : TokenOf source t)
    (hk : t.kind = .number) :
    ∃ q x, t.Rounded q x ∧ x.isNaN = false ∧
      (∀ y, Binary64.IsNearest q y → y.negative = false → y = x) ∧
      (x.isInfinite = true ↔ 2 ^ 1024 - 2 ^ 970 ≤ q) ∧ (x.bits = 0 ↔ q ≤ 1 / 2 ^ 1075) := by
  obtain ⟨g, line, text, hg, ht⟩ := h.exists_next (by rw [hk]; decide)
  obtain ⟨s, hs, rfl⟩ := hg.mem_number ht hk
  obtain ⟨d, hd⟩ := Segment.rounded_number hs ht
  refine ⟨d.value, .ofDecimal false d, hd, hd.isNaN, fun y hy => hd.unique hy, ?_, ?_⟩
  · rw [hd.nearest.isInfinite_iff, abs_of_nonneg hd.spells.nonneg]
  · have hbits : (Binary64.ofDecimal false d).bits = Binary64.magnitudeOf d := by
      simp [Binary64.bits, Binary64.ofDecimal]
    rw [hbits, Binary64.magnitudeOf_eq_zero_iff, Binary64.halfway_zero]

/-- A token whose number lies halfway between two doubles. -/
def tieToken : Token where
  kind := .number
  lexeme := "9007199254740993"
  literal := some (.number (.ofBits 0x4340000000000000))
  line := 1

/-- A whole number of 54 bits is rounded to the one with the even significand. -/
theorem number_literal_nearest_tieToken :
    scan "9007199254740993" = .ok { tokens := [tieToken, .endOfText 1], errors := [] } ∧
      ∃ q x, tieToken.Rounded q x ∧ x.isNaN = false ∧
        (∀ y, Binary64.IsNearest q y → y.negative = false → y = x) ∧
        (x.isInfinite = true ↔ 2 ^ 1024 - 2 ^ 970 ≤ q) ∧ (x.bits = 0 ↔ q ≤ 1 / 2 ^ 1075) := by
  have hmem : "9007199254740993".toList ∈ Rule.number.language :=
    Rule.mem_number.mpr ⟨_, Rule.mem_digits.mpr (by simp), .inl rfl⟩
  have hscan : scan "9007199254740993" =
      .ok { tokens := [tieToken, .endOfText 1], errors := [] } := by
    have h := scan_of_mem hmem
    rw [String.ofList_toList] at h
    rw [h]
    decide +kernel
  exact ⟨hscan, number_literal_nearest (.scanned hscan (by simp)) rfl⟩

end Lox

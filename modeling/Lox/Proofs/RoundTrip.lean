import Lox.Proofs.JsonText
import Lox.Proofs.Lines
import Lox.Proofs.Shortest
import Lox.Wire.Basic

/-!
# Tokens on the wire

What is written of a list of tokens is read back as this list, bit for bit and character for
character, with one exception: an infinity, and a pattern that is no number, are written as null,
and then nothing is read. The text is taken care of by `Json.read?_compact`, so what is left are
the values: a number is written with the shortest digits that read back, a kind by its name, and a
line as it is.

Of the tokens of a scan, those of kind number are the ones that denote a number, so they alone
decide whether the tokens can be read back.
-/

namespace Lox

/-! ## Numbers -/

namespace Decimal

/-- A number of at most 16 digits before the point grows by one zero at most. -/
theorem length_positional_le {d : Decimal} (h : d.leadingExponent ≤ 15) :
    (d.positional 1).absolute.length ≤ max 17 d.length := by
  have hlt : d.coefficient < 10 ^ d.length := (length_le_iff d.length_pos).mp (Nat.le_refl _)
  have hpos := d.length_pos
  obtain ⟨c, e⟩ := d
  cases e with
  | ofNat k =>
    have hsum : length ⟨c, .ofNat k⟩ + (k + 1) ≤ 17 := by
      simp only [leadingExponent, Int.ofNat_eq_natCast] at h ⊢
      omega
    have hsumPos : 0 < length ⟨c, .ofNat k⟩ + (k + 1) := by omega
    have hbound : c * 10 ^ (k + 1) < 10 ^ (length ⟨c, .ofNat k⟩ + (k + 1)) := by
      have hten : 0 < 10 ^ (k + 1) := Nat.pow_pos (by decide)
      rw [Nat.pow_add 10 (length ⟨c, .ofNat k⟩) (k + 1)]
      exact Nat.mul_lt_mul_of_pos_right hlt hten
    refine Nat.le_trans ((length_le_iff hsumPos).mpr hbound) ?_
    exact Nat.le_trans hsum (Nat.le_max_left _ _)
  | negSucc k =>
    have hzero : 1 - (k + 1) = 0 := by omega
    have habs : (positional ⟨c, .negSucc k⟩ 1).absolute.length = length ⟨c, .negSucc k⟩ := by
      simp only [positional, Numeral.absolute, length, hzero, Nat.pow_eq, Nat.pow_zero, Nat.mul_one]
    rw [habs]
    exact Nat.le_max_right _ _

end Decimal

namespace Binary64

/-- A written number has no more digits than are told apart. -/
theorem length_numeral_le {x : Binary64} (h : x.magnitude < infinity) :
    (x.numeral wireStyle).absolute.length ≤ wireDigits := by
  have hlength : (shortest wireStyle.tie x.magnitude).length ≤ wireDigits :=
    (length_shortest_le wireStyle.tie h).trans (by decide)
  rw [numeral]
  split
  · next hp =>
    have hleading : -5 ≤ (shortest wireStyle.tie x.magnitude).leadingExponent ∧
        (shortest wireStyle.tie x.magnitude).leadingExponent ≤ 15 := of_decide_eq_true hp
    refine Nat.le_trans (Decimal.length_positional_le hleading.2) ?_
    exact Nat.max_le.mpr ⟨by decide, hlength⟩
  · have habs := Decimal.absolute_scientific (shortest wireStyle.tie x.magnitude)
    exact Nat.le_trans (Nat.le_of_eq (congrArg Decimal.length habs)) hlength

/-- A double is read back bit for bit if it is finite, and else it is not read. -/
theorem ofJson?_toJson (x : Binary64) :
    ofJson? x.toJson = if x.isFinite then some x else none := by
  rw [toJson]
  split
  · next h =>
    have hfinite : x.magnitude < infinity := of_decide_eq_true h
    have hread : ofDecimal (x.numeral wireStyle).negative
        ((x.numeral wireStyle).abridged wireDigits) = x := by
      rw [Numeral.abridged_of_length_le (length_numeral_le hfinite)]
      ext1
      · rfl
      · show magnitudeOf _ = x.magnitude
        exact magnitudeOf_numeral wireStyle hfinite
    rw [ofJson?, hread]
    exact if_pos h
  · rfl

theorem isFinite_iff (x : Binary64) :
    x.isFinite = true ↔ x.isInfinite = false ∧ x.isNaN = false := by
  simp only [isFinite, isInfinite, isNaN, decide_eq_true_eq, decide_eq_false_iff_not]
  omega

end Binary64

/-! ## The parts of a token -/

theorem Kind.ofName?_name (k : Kind) : ofName? k.name = some k := by
  cases k with
  | keyword w => cases w <;> decide
  | _ => decide

namespace Literal

/-- The value is no number, or a finite one. -/
def isFinite : Literal → Bool
  | number x => x.isFinite
  | string _ => true

theorem ofJson?_toJson (v : Literal) : ofJson? v.toJson = if v.isFinite then some v else none := by
  cases v with
  | number x =>
    show (Binary64.ofJson? x.toJson).map number = _
    rw [Binary64.ofJson?_toJson]
    cases hx : x.isFinite <;> simp [isFinite, hx]
  | string s => rfl

end Literal

namespace Token

/-- The token has no value that is an infinity or no number. -/
def isFinite (t : Token) : Bool := t.literal.all Literal.isFinite

theorem optionalOfJson?_literal (t : Token) :
    Literal.optionalOfJson? ((t.literal.map Literal.toJson).getD .null) =
      if t.isFinite then some t.literal else none := by
  rw [isFinite]
  cases t.literal with
  | none => rfl
  | some v =>
    have hread : Literal.optionalOfJson? v.toJson = (Literal.ofJson? v.toJson).map some := by
      cases v <;> rfl
    show Literal.optionalOfJson? v.toJson = _
    rw [hread, Literal.ofJson?_toJson]
    cases hv : v.isFinite <;> simp [hv]

theorem lineOfJson?_ofNat {n : Nat} (h : n < 2 ^ 32) : lineOfJson? (.ofNat n) = some n := by
  have hline : (!false && Numeral.isPlain { coefficient := n } && decide (n < Nat.pow 2 32)) =
      true := by
    simp only [Numeral.isPlain, Nat.pow_eq, h]
    rfl
  exact if_pos hline

/-- A token is read back if it denotes no infinity and nothing that is no number. -/
theorem ofJson?_toJson {t : Token} (h : t.line < 2 ^ 32) :
    ofJson? t.toJson = if t.isFinite then some t else none := by
  have hparts : ofJson? t.toJson = ofParts? t.kind.toJson (.ofText t.lexeme)
      ((t.literal.map Literal.toJson).getD .null) (.ofNat t.line) := rfl
  have hkind : Kind.ofJson? t.kind.toJson = some t.kind := t.kind.ofName?_name
  have hlexeme : lexemeOfJson? (.ofText t.lexeme) = some t.lexeme := rfl
  rw [hparts, ofParts?, hkind, hlexeme, optionalOfJson?_literal, lineOfJson?_ofNat h]
  cases t.isFinite <;> rfl

theorem listOfJson?_map {ts : List Token} (h : ∀ t ∈ ts, t.line < 2 ^ 32) :
    listOfJson? (.array (ts.map toJson)) = if ts.all isFinite then some ts else none := by
  show (ts.map toJson).mapM ofJson? = _
  induction ts with
  | nil => rfl
  | cons t ts ih =>
    obtain ⟨ht, hts⟩ := List.forall_mem_cons.mp h
    rw [List.map_cons, List.mapM_cons, ofJson?_toJson ht, ih hts, List.all_cons]
    cases t.isFinite
    · rfl
    · cases ts.all isFinite <;> rfl

theorem all_isFinite_iff {ts : List Token} :
    ts.all isFinite = true ↔
      ∀ t ∈ ts, ∀ x, t.literal = some (.number x) → x.isInfinite = false ∧ x.isNaN = false := by
  rw [List.all_eq_true]
  refine forall₂_congr fun t _ => ?_
  rw [isFinite]
  cases t.literal with
  | none => simp
  | some v => cases v <;> simp [Literal.isFinite, ← Binary64.isFinite_iff]

end Token

/-! ## What a scan yields -/

namespace Segment

/-- Of the segments, numbers and nothing else denote a number. -/
theorem Next.kind_eq_number_iff {text : List Char} {g : Segment} (h : g.Next text) {line : Nat}
    {t : Token} (ht : g.token? line = some t) :
    t.kind = .number ↔ ∃ x, t.literal = some (.number x) := by
  refine ⟨?_, ?_⟩
  · intro hk
    obtain ⟨s, -, rfl⟩ := h.mem_number ht hk
    obtain rfl := Option.some.inj ht
    exact ⟨_, rfl⟩
  · intro hx
    obtain ⟨x, hx⟩ := hx
    obtain ⟨k, hk, rfl⟩ := Option.map_eq_some_iff.mp ht
    cases g with
    | stray a => exact absurd hk (by simp [kind?])
    | matched r s =>
      cases r with
      | number => exact (Option.some.inj hk).symm
      | _ => exact absurd hx (by simp [literal?])

end Segment

/-- The tokens of a scan: those of kind number, and no others, denote a number. -/
theorem kind_eq_number_iff_of_scan {source : String} {s : Scanned} (h : scan source = .ok s)
    {t : Token} (ht : t ∈ s.tokens) :
    t.kind = .number ↔ ∃ x, t.literal = some (.number x) := by
  rcases mem_tokens_of_scan h ht with ⟨g, line, text, hnext, hgt⟩ | ⟨line, rfl⟩
  · exact hnext.kind_eq_number_iff hgt
  · simp [Token.endOfText]

/-- Where lines are counted with 32 bits, a scan gives no line that is out of range. -/
theorem line_lt_of_scan {source : String} {s : Scanned} (h : scan source = .ok s)
    (hlines : source.toList.count '\n' < 2 ^ 32 - 1) : ∀ t ∈ s.tokens, t.line < 2 ^ 32 := by
  obtain ⟨gs, hcut, htokens, -⟩ := exists_cutting_of_scan h
  have htext := hcut.flatMap_append
  intro t ht
  rw [htokens] at ht
  rcases List.mem_append.mp ht with ht | ht
  · have hle := Segment.line_le_of_mem_tokens ht
    rw [List.append_nil] at htext
    rw [htext] at hle
    omega
  · rw [List.mem_singleton.mp ht]
    show 1 + _ < _
    omega

/-! ## Writing and reading -/

/-- A written list is read back as a whole, or not at all. -/
theorem Wire.read?_write {ts : List Token} (h : ∀ t ∈ ts, t.line < 2 ^ 32) :
    read? (write ts) = if ts.all Token.isFinite then some ts else none := by
  rw [read?, write, Json.read?_compact]
  exact Token.listOfJson?_map h

/--
**The wire keeps every token.** What is written of a list of tokens can be read if and only if no
number among their values is infinite or undefined, and then it is read as the same list. The
tokens of a scan are read back if and only if all tokens of kind number denote a finite number.
-/
theorem wire_round_trip :
    (∀ ts : List Token, (∀ t ∈ ts, t.line < 2 ^ 32) →
      ((∃ us, Wire.read? (Wire.write ts) = some us) ↔
        ∀ t ∈ ts, ∀ x, t.literal = some (.number x) → x.isInfinite = false ∧ x.isNaN = false) ∧
      ∀ us, Wire.read? (Wire.write ts) = some us → us = ts) ∧
    ∀ source s, scan source = .ok s → source.toList.count '\n' < 2 ^ 32 - 1 →
      (Wire.read? (Wire.write s.tokens) = some s.tokens ↔
        ∀ t ∈ s.tokens, t.kind = .number →
          ∃ x, t.literal = some (.number x) ∧ x.isInfinite = false ∧ x.isNaN = false) := by
  refine ⟨fun ts hts => ?_, fun source s hs hlines => ?_⟩
  · rw [Wire.read?_write hts, ← Token.all_isFinite_iff]
    cases ts.all Token.isFinite <;> simp
  · rw [Wire.read?_write (line_lt_of_scan hs hlines), Option.ite_none_right_eq_some,
      Token.all_isFinite_iff, and_iff_left rfl]
    refine ⟨fun h t ht hk => ?_, fun h t ht x hx => ?_⟩
    · obtain ⟨x, hx⟩ := (kind_eq_number_iff_of_scan hs ht).mp hk
      exact ⟨x, hx, h t ht x hx⟩
    · obtain ⟨y, hy, hfinite⟩ := h t ht ((kind_eq_number_iff_of_scan hs ht).mpr ⟨x, hx⟩)
      rw [hx] at hy
      obtain rfl : x = y := by simpa using hy
      exact hfinite

/-- Tokens whose values are negative zero, the least number, the largest one and a string. -/
def extremeTokens : List Token :=
  [{ kind := .number, lexeme := "-0", literal := some (.number (.ofBits (Nat.pow 2 63))), line := 0 },
    { kind := .eof, lexeme := "\"\x00\\", literal := some (.number (.ofBits 1)), line := 1 },
    { kind := .comma, lexeme := "∞", line := 4294967295,
      literal := some (.number (.ofBits (Binary64.infinity - 1))) },
    { kind := .keyword .nil_, lexeme := "", literal := some (.string "\n\x1f𝄞"), line := 2 }]

/-- Neither the ends of the range nor escapes nor a value that does not fit the kind are lost. -/
theorem wire_round_trip_extremeTokens :
    Wire.read? (Wire.write extremeTokens) = some extremeTokens := by
  obtain ⟨hread, hsame⟩ := wire_round_trip.1 extremeTokens (by decide)
  have hfinite : ∀ t ∈ extremeTokens, ∀ x, t.literal = some (.number x) →
      x.isInfinite = false ∧ x.isNaN = false := by
    rw [← Token.all_isFinite_iff]
    decide
  obtain ⟨us, hus⟩ := hread.mpr hfinite
  rw [hus, hsame us hus]

end Lox

import Lox.Lexer.Opening
import Mathlib.Computability.Language

/-!
# The lexical rules, as languages

What a lexer is supposed to recognise, said without a lexer. Each rule is a regular language over
characters: nineteen operators, numbers, words, strings, blanks and comments. Nothing here knows in
which order the rules are tried, or how far ahead one has to look.

The lemmas say what membership means character by character, in the classes of characters that the
lexer tests for.
-/

namespace Lox

open Computability

/-- The texts of one character with a property. -/
def oneOf (p : Char → Prop) : Language Char := {s | ∃ c, p c ∧ s = [c]}

/-- The operators, each with the kind of its token. -/
def operators : List (List Char × Kind) :=
  [(['('], .leftParen), ([')'], .rightParen), (['{'], .leftBrace), (['}'], .rightBrace),
    ([','], .comma), (['.'], .dot), (['-'], .minus), (['+'], .plus), ([';'], .semicolon),
    (['*'], .star), (['/'], .slash), (['!'], .bang), (['='], .equal), (['<'], .less),
    (['>'], .greater), (['!', '='], .bangEqual), (['=', '='], .equalEqual),
    (['<', '='], .lessEqual), (['>', '='], .greaterEqual)]

/-- A lexical rule. Each operator has its own. -/
inductive Rule where
  | operator (kind : Kind)
  | number
  | word
  | string
  | blank
  | comment
deriving DecidableEq

namespace Rule

/-- `[0-9]` -/
def digit : Language Char := oneOf fun c => '0' ≤ c ∧ c ≤ '9'

/-- `[0-9]+` -/
def digits : Language Char := digit * digit∗

/-- `[A-Za-z_]` -/
def letter : Language Char :=
  oneOf fun c => ('A' ≤ c ∧ c ≤ 'Z') ∨ ('a' ≤ c ∧ c ≤ 'z') ∨ c = '_'

/-- The texts that a rule matches. -/
def language : Rule → Language Char
  | operator kind => {s | (s, kind) ∈ operators}
  | number => digits * (1 + {['.']} * digits)
  | word => letter * (letter + digit)∗
  | string => {['"']} * (oneOf fun c => c ≠ '"')∗ * {['"']}
  | blank => oneOf fun c => c ∈ [' ', '\t', '\r', '\n']
  | comment => {['/', '/']} * (oneOf fun c => c ≠ '\n')∗

end Rule

/-! ## Classes of characters -/

theorem isDigit_iff {c : Char} : c.isDigit = true ↔ '0' ≤ c ∧ c ≤ '9' := by
  simp [Char.isDigit, Char.le_def]

theorem isWordStart_iff {c : Char} :
    isWordStart c = true ↔ ('A' ≤ c ∧ c ≤ 'Z') ∨ ('a' ≤ c ∧ c ≤ 'z') ∨ c = '_' := by
  have hupper : c.isUpper = true ↔ 'A' ≤ c ∧ c ≤ 'Z' := by
    delta Char.isUpper
    simp [Char.le_def]
  have hlower : c.isLower = true ↔ 'a' ≤ c ∧ c ≤ 'z' := by
    delta Char.isLower
    simp [Char.le_def]
  show (c.isUpper || c.isLower || decide (c = '_')) = true ↔ _
  rw [Bool.or_eq_true, Bool.or_eq_true, hupper, hlower, decide_eq_true_iff, or_assoc]

theorem isWordStart_of_isDigit {c : Char} (h : c.isDigit = true) : isWordStart c = false := by
  cases hw : isWordStart c with
  | false => rfl
  | true =>
    exfalso
    obtain ⟨_, h9⟩ := isDigit_iff.mp h
    rcases isWordStart_iff.mp hw with ⟨hA, _⟩ | ⟨ha, _⟩ | rfl
    · exact absurd (Char.le_trans hA h9) (by decide)
    · exact absurd (Char.le_trans ha h9) (by decide)
    · exact absurd h (by decide)

/-! ## Repetition -/

theorem mem_oneOf_kstar {p : Char → Prop} {s : List Char} : s ∈ (oneOf p)∗ ↔ ∀ c ∈ s, p c := by
  refine ⟨?_, ?_⟩
  · intro h
    obtain ⟨pieces, rfl, hp⟩ := Language.mem_kstar.mp h
    intro c hc
    obtain ⟨piece, hpiece, hcp⟩ := List.mem_flatten.mp hc
    obtain ⟨d, hd, rfl⟩ := hp piece hpiece
    rw [List.mem_singleton.mp hcp]
    exact hd
  · -- each character is a piece of its own
    intro h
    refine Language.mem_kstar.mpr ⟨s.map fun c => [c], ?_, ?_⟩
    · simp [← List.flatMap_def]
    · intro piece hpiece
      obtain ⟨c, hc, rfl⟩ := List.mem_map.mp hpiece
      exact ⟨c, h c hc, rfl⟩

theorem mem_oneOf_mul {p : Char → Prop} {l : Language Char} {s : List Char} :
    s ∈ oneOf p * l ↔ ∃ c t, p c ∧ t ∈ l ∧ s = c :: t := by
  rw [Language.mem_mul]
  refine ⟨?_, ?_⟩
  · intro h
    obtain ⟨_, ⟨c, hc, rfl⟩, t, ht, rfl⟩ := h
    exact ⟨c, t, hc, ht, rfl⟩
  · intro h
    obtain ⟨c, t, hc, ht, rfl⟩ := h
    exact ⟨[c], ⟨c, hc, rfl⟩, t, ht, rfl⟩

theorem oneOf_add (p q : Char → Prop) : oneOf p + oneOf q = oneOf fun c => p c ∨ q c := by
  ext s
  refine ⟨?_, ?_⟩
  · intro h
    rcases h with ⟨c, hc, rfl⟩ | ⟨c, hc, rfl⟩
    · exact ⟨c, Or.inl hc, rfl⟩
    · exact ⟨c, Or.inr hc, rfl⟩
  · intro h
    rcases h with ⟨c, hc | hc, rfl⟩
    · exact Or.inl ⟨c, hc, rfl⟩
    · exact Or.inr ⟨c, hc, rfl⟩

/-! ## Membership, character by character -/

namespace Rule

theorem mem_digits {s : List Char} : s ∈ digits ↔ s ≠ [] ∧ ∀ c ∈ s, c.isDigit = true := by
  simp only [digits, digit, mem_oneOf_mul, mem_oneOf_kstar, ← isDigit_iff]
  refine ⟨?_, ?_⟩
  · intro h
    obtain ⟨c, t, hc, ht, rfl⟩ := h
    exact ⟨List.cons_ne_nil c t, List.forall_mem_cons.mpr ⟨hc, ht⟩⟩
  · intro h
    obtain ⟨hne, hall⟩ := h
    obtain ⟨c, t, rfl⟩ := List.exists_cons_of_ne_nil hne
    obtain ⟨hc, ht⟩ := List.forall_mem_cons.mp hall
    exact ⟨c, t, hc, ht, rfl⟩

theorem mem_number {s : List Char} :
    s ∈ number.language ↔
      ∃ whole ∈ digits, s = whole ∨ ∃ fraction ∈ digits, s = whole ++ '.' :: fraction := by
  simp only [language, Language.mem_mul, Language.mem_add, Language.mem_one]
  refine ⟨?_, ?_⟩
  · intro h
    rcases h with ⟨whole, hw, _, rfl | ⟨_, rfl, fraction, hf, rfl⟩, rfl⟩
    · exact ⟨whole, hw, Or.inl (List.append_nil whole)⟩
    · exact ⟨whole, hw, Or.inr ⟨fraction, hf, rfl⟩⟩
  · intro h
    rcases h with ⟨whole, hw, rfl | ⟨fraction, hf, rfl⟩⟩
    · exact ⟨s, hw, [], Or.inl rfl, List.append_nil s⟩
    · exact ⟨whole, hw, '.' :: fraction, Or.inr ⟨['.'], rfl, fraction, hf, rfl⟩, rfl⟩

theorem mem_word {s : List Char} :
    s ∈ word.language ↔
      ∃ a t, isWordStart a = true ∧ (∀ c ∈ t, isWordPart c = true) ∧ s = a :: t := by
  simp only [language, letter, digit, oneOf_add, mem_oneOf_mul, mem_oneOf_kstar, ← isDigit_iff,
    ← isWordStart_iff, isWordPart, Bool.or_eq_true]

theorem mem_string {s : List Char} :
    s ∈ string.language ↔ ∃ body, '"' ∉ body ∧ s = '"' :: (body ++ ['"']) := by
  simp only [language, Language.mem_mul, mem_oneOf_kstar]
  refine ⟨?_, ?_⟩
  · intro h
    obtain ⟨_, ⟨_, rfl, body, hb, rfl⟩, _, rfl, rfl⟩ := h
    exact ⟨body, fun hq => hb _ hq rfl, rfl⟩
  · intro h
    obtain ⟨body, hb, rfl⟩ := h
    exact ⟨'"' :: body, ⟨['"'], rfl, body, fun c hc he => hb (he ▸ hc), rfl⟩, ['"'], rfl, rfl⟩

theorem mem_blank {s : List Char} :
    s ∈ blank.language ↔ ∃ c, c ∈ [' ', '\t', '\r', '\n'] ∧ s = [c] := Iff.rfl

theorem mem_comment {s : List Char} :
    s ∈ comment.language ↔ ∃ body, '\n' ∉ body ∧ s = '/' :: '/' :: body := by
  simp only [language, Language.mem_mul, mem_oneOf_kstar]
  refine ⟨?_, ?_⟩
  · intro h
    obtain ⟨_, rfl, body, hb, rfl⟩ := h
    exact ⟨body, fun hn => hb _ hn rfl, rfl⟩
  · intro h
    obtain ⟨body, hb, rfl⟩ := h
    exact ⟨['/', '/'], rfl, body, fun c hc he => hb (he ▸ hc), rfl⟩

end Rule

end Lox

import Lox.Proofs.Rule
import Mathlib.Data.List.TakeWhile

/-!
# What the first character decides

The rules meet the dispatch on first characters. `Opening.Fits` says which characters promise what,
and `Opening.Tail` which rules then remain and what they allow to follow. `mem_language_cons` is the
hinge: a text is matched by a rule exactly when its first character promises something behind which
the rule allows the others.

Two consequences need no more than that. No rule matches the empty text, and a text is matched by
one rule at most, so a match determines the kind of its token.
-/

namespace Lox

namespace Opening

/-- The characters that promise something. -/
def Fits : Opening → Char → Prop
  | single k, a => ([a], k) ∈ operators ∧ a ∉ ['!', '=', '<', '>', '/']
  | pair k k', a => ([a], k) ∈ operators ∧ ([a, '='], k') ∈ operators
  | slash, a => a = '/'
  | blank, a => a ∈ [' ', '\t', '\r', '\n']
  | quote, a => a = '"'
  | digit, a => a.isDigit = true
  | wordStart, a => isWordStart a = true
  | other, a => a.isDigit = false ∧ isWordStart a = false ∧ (∀ k, ([a], k) ∉ operators) ∧
      a ∉ [' ', '\t', '\r', '\n', '"']

theorem fits_of (a : Char) : (Opening.of a).Fits a := by
  unfold Opening.of
  split
  case h_21 =>
    split
    · assumption
    · split
      · assumption
      · simp_all [Fits, operators]
  all_goals simp [Fits, operators]

theorem of_eq_single {a : Char} {k : Kind} (h : ([a], k) ∈ operators)
    (ha : a ∉ ['!', '=', '<', '>', '/']) : Opening.of a = .single k := by
  have hall : ∀ p ∈ operators, p.1.tail = [] → p.1 ∉ [['!'], ['='], ['<'], ['>'], ['/']] →
      p.1.head?.map Opening.of = some (.single p.2) := by decide
  exact Option.some.inj (hall ([a], k) h rfl (by simpa using ha))

theorem of_eq_pair {a : Char} {k k' : Kind} (h : ([a], k) ∈ operators)
    (h' : ([a, '='], k') ∈ operators) : Opening.of a = .pair k k' := by
  have hall : ∀ p ∈ operators, ∀ q ∈ operators, q.1 = p.1 ++ ['='] →
      p.1.head?.map Opening.of = some (.pair p.2 q.2) := by decide
  exact Option.some.inj (hall ([a], k) h ([a, '='], k') h' rfl)

theorem of_eq_of_fits {o : Opening} {a : Char} (h : o.Fits a) : Opening.of a = o := by
  cases o with
  | single k =>
    obtain ⟨hk, hn⟩ := h
    exact of_eq_single hk hn
  | pair k k' =>
    obtain ⟨hk, hk'⟩ := h
    exact of_eq_pair hk hk'
  | slash => exact h ▸ rfl
  | blank =>
    simp only [Fits, List.mem_cons, List.not_mem_nil, or_false] at h
    rcases h with rfl | rfl | rfl | rfl <;> rfl
  | quote => exact h ▸ rfl
  | digit =>
    simp only [Fits] at h
    unfold Opening.of
    split <;> simp_all
  | wordStart =>
    -- the dispatch asks for digits first, which start no word
    have hd : a.isDigit = false := by
      cases hd : a.isDigit with
      | false => rfl
      | true => exact absurd h (by simp [Fits, isWordStart_of_isDigit hd])
    simp only [Fits] at h
    unfold Opening.of
    split <;> simp_all [isWordStart]
  | other =>
    simp only [Fits] at h
    unfold Opening.of
    split <;> simp_all [operators]

/-- The dispatch finds the one promise that fits. -/
theorem of_eq_iff {o : Opening} {a : Char} : Opening.of a = o ↔ o.Fits a :=
  ⟨fun h => h ▸ fits_of a, of_eq_of_fits⟩

/--
What the rules allow behind a first character: `o.Tail r s` when a character that promises `o`,
followed by `s`, is a text that `r` matches.
-/
def Tail : Opening → Rule → List Char → Prop
  | single k, r, s => r = .operator k ∧ s = []
  | pair k k', r, s => (r = .operator k ∧ s = []) ∨ (r = .operator k' ∧ s = ['='])
  | slash, r, s =>
    (r = .operator .slash ∧ s = []) ∨ (r = .comment ∧ ∃ body, '\n' ∉ body ∧ s = '/' :: body)
  | blank, r, s => r = .blank ∧ s = []
  | quote, r, s => r = .string ∧ ∃ body, '"' ∉ body ∧ s = body ++ ['"']
  | digit, r, s => r = .number ∧ (s.dropWhile Char.isDigit = [] ∨
      ∃ fraction ∈ Rule.digits, s.dropWhile Char.isDigit = '.' :: fraction)
  | wordStart, r, s => r = .word ∧ ∀ c ∈ s, isWordPart c = true
  | other, _, _ => False

theorem Tail.eq_digit {o : Opening} {s : List Char} (h : o.Tail .number s) : o = .digit := by
  cases o <;> simp_all [Tail]

theorem Tail.eq_wordStart {o : Opening} {s : List Char} (h : o.Tail .word s) : o = .wordStart := by
  cases o <;> simp_all [Tail]

end Opening

namespace Rule

theorem tail_of_mem_operators {a : Char} {s : List Char} {k : Kind} (h : (a :: s, k) ∈ operators) :
    (Opening.of a).Tail (.operator k) s := by
  have hall : ∀ p ∈ operators, ∀ a s, p.1 = a :: s → (Opening.of a).Tail (.operator p.2) s := by
    simp only [operators, List.forall_mem_cons, List.cons.injEq, and_imp, forall_eq',
      forall_apply_eq_imp_iff]
    -- one case for each entry of the table
    and_intros
    all_goals
      first
      | exact And.intro rfl rfl
      | exact Or.inl ⟨rfl, rfl⟩
      | exact Or.inr ⟨rfl, rfl⟩
      | simp
  exact hall (a :: s, k) h a s rfl

/-- A rule that matches a text allows what stands behind its first character. -/
theorem tail_of_mem {r : Rule} {a : Char} {s : List Char} (h : a :: s ∈ r.language) :
    (Opening.of a).Tail r s := by
  cases r with
  | operator k => exact tail_of_mem_operators h
  | number =>
    obtain ⟨whole, hw, h⟩ := mem_number.mp h
    obtain ⟨hne, hall⟩ := mem_digits.mp hw
    obtain ⟨c, t, rfl⟩ := List.exists_cons_of_ne_nil hne
    obtain ⟨hc, ht⟩ := List.forall_mem_cons.mp hall
    rcases h with h | ⟨fraction, hf, h⟩
    · obtain ⟨rfl, rfl⟩ := List.cons.inj h
      rw [Opening.of_eq_of_fits (o := .digit) hc]
      exact ⟨rfl, Or.inl (List.dropWhile_eq_nil_iff.mpr ht)⟩
    · obtain ⟨rfl, rfl⟩ := List.cons.inj h
      rw [Opening.of_eq_of_fits (o := .digit) hc]
      exact ⟨rfl, Or.inr ⟨fraction, hf, List.dropWhile_append_of_pos ht⟩⟩
  | word =>
    obtain ⟨b, t, hb, ht, h⟩ := mem_word.mp h
    obtain ⟨rfl, rfl⟩ := List.cons.inj h
    rw [Opening.of_eq_of_fits (o := .wordStart) hb]
    exact ⟨rfl, ht⟩
  | string =>
    obtain ⟨body, hb, h⟩ := mem_string.mp h
    obtain ⟨rfl, rfl⟩ := List.cons.inj h
    exact ⟨rfl, body, hb, rfl⟩
  | blank =>
    obtain ⟨b, hb, h⟩ := mem_blank.mp h
    obtain ⟨rfl, rfl⟩ := List.cons.inj h
    rw [Opening.of_eq_of_fits (o := .blank) hb]
    exact ⟨rfl, rfl⟩
  | comment =>
    obtain ⟨body, hb, h⟩ := mem_comment.mp h
    obtain ⟨rfl, rfl⟩ := List.cons.inj h
    exact Or.inr ⟨rfl, body, hb, rfl⟩

theorem mem_of_tail {r : Rule} {a : Char} {s : List Char} (h : (Opening.of a).Tail r s) :
    a :: s ∈ r.language := by
  have hf := Opening.fits_of a
  generalize Opening.of a = o at h hf
  cases o with
  | single k =>
    obtain ⟨rfl, rfl⟩ := h
    exact hf.1
  | pair k k' =>
    rcases h with ⟨rfl, rfl⟩ | ⟨rfl, rfl⟩
    · exact hf.1
    · exact hf.2
  | slash =>
    obtain rfl : a = '/' := hf
    rcases h with ⟨rfl, rfl⟩ | ⟨rfl, body, hb, rfl⟩
    · show (['/'], Kind.slash) ∈ operators
      decide
    · exact mem_comment.mpr ⟨body, hb, rfl⟩
  | blank =>
    obtain ⟨rfl, rfl⟩ := h
    exact ⟨a, hf, rfl⟩
  | quote =>
    obtain rfl : a = '"' := hf
    obtain ⟨rfl, body, hb, rfl⟩ := h
    exact mem_string.mpr ⟨body, hb, rfl⟩
  | digit =>
    -- the whole part goes as far as the digits do
    obtain ⟨rfl, h⟩ := h
    have hd : a :: s.takeWhile Char.isDigit ∈ digits := mem_digits.mpr
      ⟨List.cons_ne_nil _ _, List.forall_mem_cons.mpr ⟨hf, fun _ => List.mem_takeWhile_imp⟩⟩
    have hs : s.takeWhile Char.isDigit ++ s.dropWhile Char.isDigit = s :=
      List.takeWhile_append_dropWhile
    refine mem_number.mpr ⟨_, hd, ?_⟩
    rcases h with h | ⟨fraction, hfr, h⟩
    · rw [h, List.append_nil] at hs
      exact Or.inl (by rw [hs])
    · rw [h] at hs
      exact Or.inr ⟨fraction, hfr, by rw [List.cons_append, hs]⟩
  | wordStart =>
    obtain ⟨rfl, hs⟩ := h
    exact mem_word.mpr ⟨a, s, hf, hs, rfl⟩
  | other => exact h.elim

theorem mem_language_cons {r : Rule} {a : Char} {s : List Char} :
    a :: s ∈ r.language ↔ (Opening.of a).Tail r s := ⟨tail_of_mem, mem_of_tail⟩

/-! ## No empty match, and no two rules for one text -/

theorem nil_notMem (r : Rule) : [] ∉ r.language := by
  intro h
  cases r with
  | operator k =>
    replace h : ([], k) ∈ operators := h
    simp [operators] at h
  | number =>
    obtain ⟨whole, hw, h | ⟨fraction, _, h⟩⟩ := mem_number.mp h
    · exact (mem_digits.mp hw).1 h.symm
    · exact absurd h (by simp)
  | word => obtain ⟨a, t, _, _, h⟩ := mem_word.mp h; exact absurd h (by simp)
  | string => obtain ⟨body, _, h⟩ := mem_string.mp h; exact absurd h (by simp)
  | blank => obtain ⟨c, _, h⟩ := mem_blank.mp h; exact absurd h (by simp)
  | comment => obtain ⟨body, _, h⟩ := mem_comment.mp h; exact absurd h (by simp)

theorem exists_cons_of_mem {r : Rule} {s : List Char} (h : s ∈ r.language) :
    ∃ a t, s = a :: t :=
  List.exists_cons_of_ne_nil fun hs => nil_notMem r (hs ▸ h)

/-- A text is matched by one rule at most. -/
theorem eq_of_mem {r r' : Rule} {s : List Char} (h : s ∈ r.language) (h' : s ∈ r'.language) :
    r = r' := by
  obtain ⟨a, t, rfl⟩ := exists_cons_of_mem h
  replace h := tail_of_mem h
  replace h' := tail_of_mem h'
  generalize Opening.of a = o at h h'
  cases o with
  | pair k k' =>
    rcases h with ⟨rfl, rfl⟩ | ⟨rfl, rfl⟩ <;> rcases h' with ⟨rfl, ht⟩ | ⟨rfl, ht⟩ <;>
      first | rfl | exact absurd ht (by simp)
  | slash =>
    rcases h with ⟨rfl, rfl⟩ | ⟨rfl, body, _, rfl⟩ <;>
      rcases h' with ⟨rfl, ht⟩ | ⟨rfl, body', _, ht⟩ <;>
      first | rfl | exact absurd ht (by simp)
  | other => exact h.elim
  | _ => exact h.1.trans h'.1.symm

end Rule

end Lox

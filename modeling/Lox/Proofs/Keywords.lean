import Lox.Proofs.Context
import Lox.Proofs.Stepping

/-!
# Words and keywords

A word is looked up among the reserved ones when all of it has been read, and the lookup knows
nothing but its spelling. Three tables tell of these words, and each is written by itself: the
spellings with their kinds, the kinds that are keywords, and the names that kinds have for other
programs, in capitals. They agree: a kind is a keyword, and is found for a spelling, if the spelling
is its name in small letters. From this and from the longest match it follows what a token that is a
word can be, and that no letter, digit or underscore comes behind it.
-/

namespace Lox

/-! ## Three tables -/

namespace Kind

/-- No two reserved words are spelled alike. -/
theorem eq_of_mem_reserved {p q : String × Kind} (hp : p ∈ reserved) (hq : q ∈ reserved)
    (h : p.1 = q.1) : p = q := by
  have hall : ∀ p ∈ reserved, ∀ q ∈ reserved, p.1 = q.1 → p = q := by decide
  exact hall p hp q hq h

/-- A word is found with the kind that it has in the table. -/
theorem ofReserved?_eq_some_iff_mem {s : String} {k : Kind} :
    ofReserved? s = some k ↔ (s, k) ∈ reserved := by
  refine ⟨mem_reserved_of_ofReserved?, fun hmem => ?_⟩
  cases hfind : ofReserved? s with
  | none =>
    have hnone := List.find?_eq_none.mp (Option.map_eq_none_iff.mp hfind) _ hmem
    exact absurd (decide_eq_true rfl) hnone
  | some k' =>
    have heq := eq_of_mem_reserved (mem_reserved_of_ofReserved? hfind) hmem rfl
    rw [(Prod.mk.inj heq).2]

/-- The reserved words are keywords, and are spelled like their names, but in small letters. -/
theorem of_mem_reserved {p : String × Kind} (hp : p ∈ reserved) :
    p.2.isKeyword = true ∧ p.1 = p.2.name.toLower := by
  have hall : ∀ p ∈ reserved,
      p.2.isKeyword = true ∧ p.1.toList = p.2.name.toList.map Char.toLower := by decide
  refine ⟨(hall p hp).1, String.toList_injective ?_⟩
  show _ = (p.2.name.map Char.toLower).toList
  rw [String.toList_map]
  exact (hall p hp).2

/-- Every keyword is reserved. -/
theorem mem_reserved {k : Kind} (hk : k.isKeyword = true) : (k.name.toLower, k) ∈ reserved := by
  have hall : ∀ k ∈ all, k.isKeyword = true → ∃ p ∈ reserved, p.2 = k := by decide
  obtain ⟨p, hp, rfl⟩ := hall k k.mem_all hk
  rw [← (of_mem_reserved hp).2]
  exact hp

theorem ofReserved?_eq_some_iff {s : String} {k : Kind} :
    ofReserved? s = some k ↔ k.isKeyword = true ∧ s = k.name.toLower := by
  rw [ofReserved?_eq_some_iff_mem]
  constructor
  · exact of_mem_reserved
  · rintro ⟨hk, rfl⟩
    exact mem_reserved hk

/-- A spelling is reserved for a keyword, or else it is an identifier. -/
theorem getD_ofReserved?_eq_iff (s : String) (k : Kind) (hk : k.isKeyword = true) :
    (ofReserved? s).getD identifier = k ↔ s = k.name.toLower := by
  cases hfind : ofReserved? s with
  | none =>
    have hne : identifier ≠ k := by
      rintro rfl
      exact absurd hk (by decide)
    refine ⟨fun h => absurd h hne, fun h => ?_⟩
    rw [ofReserved?_eq_some_iff.mpr ⟨hk, h⟩] at hfind
    exact absurd hfind (by simp)
  | some k' =>
    have hlookup : ofReserved? s = some k ↔ _ := ofReserved?_eq_some_iff
    rw [hfind, Option.some_inj, and_iff_right hk] at hlookup
    exact hlookup

/-- The kinds of words are the keywords and identifiers. -/
theorem rule?_eq_word_iff {k : Kind} :
    k.rule? = some .word ↔ k = identifier ∨ k.isKeyword = true := by
  cases k with
  | keyword w => cases w <;> simp [rule?, isKeyword]
  | _ => simp [rule?, isKeyword]

end Kind

/-! ## Tokens that are words -/

/-- A letter, a digit or an underscore. -/
def IsWordChar (a : Char) : Prop :=
  ('A' ≤ a ∧ a ≤ 'Z') ∨ ('a' ≤ a ∧ a ≤ 'z') ∨ ('0' ≤ a ∧ a ≤ '9') ∨ a = '_'

theorem isWordPart_iff {a : Char} : isWordPart a = true ↔ IsWordChar a := by
  rw [isWordPart, Bool.or_eq_true, isWordStart_iff, isDigit_iff, IsWordChar]
  tauto

namespace Token

/-- The token is a word: a letter or an underscore, and more of these or digits. -/
def IsWord (t : Token) : Prop := t.lexeme.toList ∈ Rule.word.language

/-- As far as words go, a token is of the kind that it is spelled as. -/
structure SpelledAsKind (t : Token) : Prop where
  isWord_iff : t.IsWord ↔ t.kind = .identifier ∨ t.kind.isKeyword = true
  kind_eq_iff : ∀ k : Kind, k.isKeyword = true → (t.kind = k ↔ t.lexeme = k.name.toLower)
  identifier : t.IsWord → (∀ k : Kind, k.isKeyword = true → t.lexeme ≠ k.name.toLower) →
    t.kind = .identifier

end Token

theorem Kind.mem_word_of_mem_reserved {p : String × Kind} (hp : p ∈ reserved) :
    p.1.toList ∈ Rule.word.language := by
  have hall : ∀ p ∈ reserved, p.1.toList.head?.any isWordStart = true ∧
      p.1.toList.tail.all isWordPart = true := by decide
  obtain ⟨hstart, hparts⟩ := hall p hp
  cases hs : p.1.toList with
  | nil =>
    rw [hs] at hstart
    exact absurd hstart (by simp)
  | cons a t =>
    rw [hs] at hstart hparts
    exact Rule.mem_word.mpr ⟨a, t, hstart, List.all_eq_true.mp hparts, rfl⟩

theorem Kind.toLower_name_mem_word {k : Kind} (hk : k.isKeyword = true) :
    k.name.toLower.toList ∈ Rule.word.language :=
  mem_word_of_mem_reserved (mem_reserved hk)

/-- There is nothing to tell of a token that is no word, by its spelling or by its kind. -/
theorem Token.spelledAsKind_of_not_isWord {t : Token} (h : ¬ t.IsWord)
    (hk : t.kind.rule? ≠ some .word) : t.SpelledAsKind where
  isWord_iff := by rw [← Kind.rule?_eq_word_iff]; exact iff_of_false h hk
  kind_eq_iff k hkey := by
    refine iff_of_false ?_ ?_
    · rintro rfl
      exact hk (Kind.rule?_eq_word_iff.mpr (.inr hkey))
    · intro hlex
      exact h (by rw [Token.IsWord, hlex]; exact Kind.toLower_name_mem_word hkey)
  identifier hword := absurd hword h

theorem Token.spelledAsKind_endOfText (line : Nat) : (Token.endOfText line).SpelledAsKind :=
  spelledAsKind_of_not_isWord (Rule.nil_notMem .word) (by simp [endOfText, Kind.rule?])

/-- **The whole of a word is looked up, and nothing else.** -/
theorem Segment.Next.spelledAsKind {text : List Char} {g : Segment} (h : g.Next text) {line : Nat}
    {t : Token} (ht : g.token? line = some t) : t.SpelledAsKind := by
  obtain ⟨k, hkind, rfl⟩ := Option.map_eq_some_iff.mp ht
  obtain ⟨r, hr, s, hs, rfl⟩ := h.exists_mem_of_kind? hkind
  by_cases hword : r = .word
  · subst hword
    obtain rfl : (Kind.ofReserved? (String.ofList s)).getD .identifier = k := Option.some.inj hkind
    have hkinds := Kind.rule?_eq_word_iff.mp hr
    have hmem : (String.ofList s).toList ∈ Rule.word.language := by
      rw [String.toList_ofList]
      exact hs
    have hlookup := Kind.getD_ofReserved?_eq_iff (String.ofList s)
    refine ⟨iff_of_true hmem hkinds, hlookup, fun _ hnot => ?_⟩
    rcases hkinds with hid | hkey
    · exact hid
    · exact absurd ((hlookup _ hkey).mp rfl) (hnot _ hkey)
  · refine Token.spelledAsKind_of_not_isWord (fun hmem => ?_) (fun hk => ?_)
    · rw [Token.IsWord, String.toList_ofList] at hmem
      exact hword (Rule.eq_of_mem hs hmem)
    · exact hword (Option.some.inj (hr.symm.trans hk))

/-! ## Where a word ends -/

namespace Lexer

variable {source : String}

/-- What comes behind the token in the text does not continue it, if it is a word. -/
def EndsWord (l : Lexer source) (t : Token) : Prop :=
  ∃ p q, source.toList = p ++ t.lexeme.toList ++ q ∧
    (String.ofList p).utf8ByteSize = l.position ∧
    (t.IsWord → ∀ a, q.head? = some a → ¬ IsWordChar a)

theorem spelledAsKind_of_step {l : Lexer source} {t : Token} (h : l.step.1 = .ok (some t)) :
    t.SpelledAsKind ∧ l.EndsWord t := by
  have hstep := l.isStep_step
  generalize l.step = r at h hstep
  cases hstep with
  | atEnd _ => exact absurd h (by simp)
  | openString _ _ => exact absurd h (by simp)
  | @segment g l' hg hr _ =>
    have ht := Except.ok.inj h
    refine ⟨hg.spelledAsKind ht, ?_⟩
    obtain ⟨k, hkind, rfl⟩ := Option.map_eq_some_iff.mp ht
    have htext : source.toList = l.cursor.consumed ++ g.text ++ l'.cursor.rest := by
      rw [← l.cursor.consumed_append_rest, hr.rest_eq, List.append_assoc]
    refine ⟨l.cursor.consumed, l'.cursor.rest, ?_, l.cursor.position_eq.symm, ?_⟩
    · rw [htext, String.toList_ofList]
    · intro hword a ha
      obtain ⟨r, -, s, hs, rfl⟩ := hg.exists_mem_of_kind? hkind
      obtain rfl : r = .word := by
        rw [Token.IsWord, String.toList_ofList] at hword
        exact Rule.eq_of_mem hs hword
      rw [hr.rest_eq] at hg
      have hstops := (Segment.next_append_iff.mp hg).2
      rw [← isWordPart_iff, Bool.not_eq_true]
      exact hstops a ha

end Lexer

/--
**The tables of keywords agree, and tokens with them.** A kind is found for a spelling if and only
if it is a keyword and the spelling is its name in small letters. In every text, the tokens of these
spellings and no others are of these kinds, all other words are identifiers, and no letter, digit or
underscore comes behind a word. The tokens of a scan are those that its steps answer with, and one
for the end.
-/
theorem words_follow_tables :
    (∀ (s : String) (k : Kind),
      Kind.ofReserved? s = some k ↔ k.isKeyword = true ∧ s = k.name.toLower) ∧
    ∀ source : String,
      (∀ n t, ((Lexer.start source).afterSteps n).step.1 = .ok (some t) →
        t.SpelledAsKind ∧ ((Lexer.start source).afterSteps n).EndsWord t) ∧
      ∀ s, scan source = .ok s → ∀ t ∈ s.tokens, t.SpelledAsKind ∧
        ((∃ line, t = .endOfText line) ∨
          ∃ n, ((Lexer.start source).afterSteps n).step.1 = .ok (some t)) := by
  refine ⟨fun s k => Kind.ofReserved?_eq_some_iff, fun source =>
    ⟨fun n t => Lexer.spelledAsKind_of_step, fun s hs t ht => ?_⟩⟩
  have hstep := Lexer.exists_step_of_mem_tokens hs ht
  refine ⟨?_, hstep⟩
  rcases hstep with ⟨line, rfl⟩ | ⟨n, hn⟩
  · exact Token.spelledAsKind_endOfText line
  · exact (Lexer.spelledAsKind_of_step hn).1

end Lox

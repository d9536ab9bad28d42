import Lox.Proofs.Segmentation

/-!
# Which lexemes may stand next to each other

Write lexemes one after the other, with blanks wherever one likes. Reading the text gives the same
lexemes back unless two of them have grown together: a word with a word or number behind it, two
numbers, an operator with an equals sign behind it that it would take, two slashes, which are a
comment, and a whole number, a point and a number. There are no other ways, and none of these is
ever harmless.

That these six are enough is the statement that a lexeme stops at whatever else comes next. That
none is harmless has to be shown for whole texts, since a comment might hide a deviation behind
tokens that come back later. Counting slashes excludes that: the blanks of the items have none and a
comment has two.
-/

namespace Lox

/-- A valid lexeme: a text that one of the rules for tokens matches. -/
@[ext] structure Lexeme where
  rule : Rule
  text : List Char
  mem : text ∈ rule.language
  isToken : rule ≠ .blank ∧ rule ≠ .comment

/-- A lexeme or a blank. -/
inductive Item where
  | lexeme (x : Lexeme)
  | blank (c : Char) (h : c ∈ [' ', '\t', '\r', '\n'])

namespace Item

def text : Item → List Char
  | lexeme x => x.text
  | blank c _ => [c]

/-- The segment that an item is meant to be. -/
def segment : Item → Segment
  | lexeme x => .matched x.rule x.text
  | blank c _ => .matched .blank [c]

@[simp] theorem text_segment (i : Item) : i.segment.text = i.text := by cases i <;> rfl

def concat (is : List Item) : List Char := is.flatMap text

/-- The tokens of a list of items: the lexemes in their order, each with its line. -/
def tokens (is : List Item) : List Token := Segment.tokens 1 (is.map segment)

@[simp] theorem concat_nil : concat [] = [] := rfl

@[simp] theorem concat_cons (i : Item) (is : List Item) : concat (i :: is) = i.text ++ concat is :=
  rfl

theorem flatMap_text_segment (is : List Item) :
    (is.map segment).flatMap Segment.text = concat is := by
  simp [concat, List.flatMap_map]

theorem errors_eq_nil (line : Nat) (is : List Item) :
    Segment.errors line (is.map segment) = [] := by
  induction is generalizing line with
  | nil => rfl
  | cons i is ih =>
    rw [List.map_cons, Segment.errors_cons, ih]
    cases i <;> rfl

end Item

/-- Two lexemes that grow together when nothing stands between them. -/
def Lexeme.Sticks (x y : Lexeme) : Prop :=
  (x.rule = .word ∧ (y.rule = .word ∨ y.rule = .number)) ∨
  (x.rule = .number ∧ y.rule = .number) ∨
  (x.text ∈ [['!'], ['='], ['<'], ['>']] ∧ y.text ∈ [['='], ['=', '=']]) ∨
  (x.text = ['/'] ∧ y.text = ['/'])

/-- A number without a fraction, a point and a number. -/
def Lexeme.SticksAcross (x y z : Lexeme) : Prop :=
  x.rule = .number ∧ '.' ∉ x.text ∧ y.text = ['.'] ∧ z.rule = .number

/-- Somewhere in the list lexemes have grown together. -/
def Glued (is : List Item) : Prop :=
  (∃ x y, [.lexeme x, .lexeme y] <:+: is ∧ x.Sticks y) ∨
  (∃ x y z, [.lexeme x, .lexeme y, .lexeme z] <:+: is ∧ x.SticksAcross y z)

/-- The items begin with something that grows together with a lexeme before them. -/
def GluedTo (x : Lexeme) (is : List Item) : Prop :=
  (∃ y t, is = .lexeme y :: t ∧ x.Sticks y) ∨
  (∃ y z t, is = .lexeme y :: .lexeme z :: t ∧ x.SticksAcross y z)

theorem not_glued_nil : ¬ Glued [] := by
  intro h
  rcases h with ⟨x, y, h, _⟩ | ⟨x, y, z, h, _⟩
  · exact absurd (List.infix_nil.mp h) (by simp)
  · exact absurd (List.infix_nil.mp h) (by simp)

theorem glued_cons_iff {i : Item} {is : List Item} :
    Glued (i :: is) ↔ (∃ x, i = .lexeme x ∧ GluedTo x is) ∨ Glued is := by
  refine ⟨?_, ?_⟩
  · -- an infix begins the list or lies in its tail
    intro h
    rcases h with ⟨x, y, h, hs⟩ | ⟨x, y, z, h, hs⟩
    · rcases List.infix_cons_iff.mp h with ⟨t, ht⟩ | h
      · obtain ⟨rfl, rfl⟩ := List.cons.inj ht
        exact Or.inl ⟨x, rfl, Or.inl ⟨y, t, rfl, hs⟩⟩
      · exact Or.inr (Or.inl ⟨x, y, h, hs⟩)
    · rcases List.infix_cons_iff.mp h with ⟨t, ht⟩ | h
      · obtain ⟨rfl, rfl⟩ := List.cons.inj ht
        exact Or.inl ⟨x, rfl, Or.inr ⟨y, z, t, rfl, hs⟩⟩
      · exact Or.inr (Or.inr ⟨x, y, z, h, hs⟩)
  · intro h
    rcases h with ⟨x, rfl, ⟨y, t, rfl, hs⟩ | ⟨y, z, t, rfl, hs⟩⟩ | ⟨x, y, h, hs⟩ | ⟨x, y, z, h, hs⟩
    · exact Or.inl ⟨x, y, ⟨[], t, rfl⟩, hs⟩
    · exact Or.inr ⟨x, y, z, ⟨[], t, rfl⟩, hs⟩
    · exact Or.inl ⟨x, y, List.infix_cons h, hs⟩
    · exact Or.inr ⟨x, y, z, List.infix_cons h, hs⟩

/-! ## First characters of lexemes and of items -/

namespace Rule

theorem isDigit_head_iff {r : Rule} {a : Char} {s : List Char} (h : a :: s ∈ r.language) :
    a.isDigit = true ↔ r = .number := by
  replace h := tail_of_mem h
  refine ⟨?_, ?_⟩
  · intro ha
    rw [Opening.of_eq_of_fits (o := .digit) ha] at h
    exact h.1
  · rintro rfl
    exact Opening.of_eq_iff.mp h.eq_digit

theorem isWordStart_head_iff {r : Rule} {a : Char} {s : List Char} (h : a :: s ∈ r.language) :
    isWordStart a = true ↔ r = .word := by
  replace h := tail_of_mem h
  refine ⟨?_, ?_⟩
  · intro ha
    rw [Opening.of_eq_of_fits (o := .wordStart) ha] at h
    exact h.1
  · rintro rfl
    exact Opening.of_eq_iff.mp h.eq_wordStart

end Rule

namespace Lexeme

theorem head_isDigit_iff (x : Lexeme) :
    (∃ c ∈ x.text.head?, c.isDigit = true) ↔ x.rule = .number := by
  obtain ⟨a, s, hx⟩ := Rule.exists_cons_of_mem x.mem
  rw [← Rule.isDigit_head_iff (hx ▸ x.mem), hx]
  simp

theorem head_isWordPart_iff (x : Lexeme) :
    (∃ c ∈ x.text.head?, isWordPart c = true) ↔ x.rule = .word ∨ x.rule = .number := by
  obtain ⟨a, s, hx⟩ := Rule.exists_cons_of_mem x.mem
  rw [← Rule.isDigit_head_iff (hx ▸ x.mem), ← Rule.isWordStart_head_iff (hx ▸ x.mem), hx]
  simp [isWordPart]

theorem head_equal_iff (x : Lexeme) :
    (∃ c ∈ x.text.head?, c = '=') ↔ x.text ∈ [['='], ['=', '=']] := by
  obtain ⟨a, s, hx⟩ := Rule.exists_cons_of_mem x.mem
  refine ⟨?_, ?_⟩
  · intro h
    obtain ⟨c, hc, rfl⟩ := h
    rw [hx] at hc ⊢
    obtain rfl : a = '=' := Option.some.inj hc
    rcases Rule.tail_of_mem (hx ▸ x.mem) with ⟨_, rfl⟩ | ⟨_, rfl⟩ <;> simp
  · intro h
    simp only [List.mem_cons, List.not_mem_nil, or_false] at h
    rcases h with h | h <;> exact ⟨'=', by rw [h]; rfl, rfl⟩

theorem head_slash_iff (x : Lexeme) : (∃ c ∈ x.text.head?, c = '/') ↔ x.text = ['/'] := by
  obtain ⟨a, s, hx⟩ := Rule.exists_cons_of_mem x.mem
  refine ⟨?_, ?_⟩
  · intro h
    obtain ⟨c, hc, rfl⟩ := h
    rw [hx] at hc ⊢
    obtain rfl : a = '/' := Option.some.inj hc
    rcases Rule.tail_of_mem (hx ▸ x.mem) with ⟨_, rfl⟩ | ⟨hr, _⟩
    · rfl
    · exact absurd hr x.isToken.2
  · intro h
    exact ⟨'/', by rw [h]; rfl, rfl⟩

theorem head_point_iff (x : Lexeme) : (∃ c ∈ x.text.head?, c = '.') ↔ x.text = ['.'] := by
  obtain ⟨a, s, hx⟩ := Rule.exists_cons_of_mem x.mem
  refine ⟨?_, ?_⟩
  · intro h
    obtain ⟨c, hc, rfl⟩ := h
    rw [hx] at hc ⊢
    obtain rfl : a = '.' := Option.some.inj hc
    obtain ⟨_, rfl⟩ := Rule.tail_of_mem (hx ▸ x.mem)
    rfl
  · intro h
    exact ⟨'.', by rw [h]; rfl, rfl⟩

end Lexeme

/-- A property that no blank has can only come from a lexeme. -/
theorem Item.head_concat_iff {p : Char → Prop} (hp : ∀ c ∈ [' ', '\t', '\r', '\n'], ¬ p c)
    (is : List Item) :
    (∃ c ∈ (concat is).head?, p c) ↔
      ∃ y t, is = .lexeme y :: t ∧ ∃ c ∈ y.text.head?, p c := by
  cases is with
  | nil => simp
  | cons i t =>
    cases i with
    | lexeme y =>
      obtain ⟨a, s, hy⟩ := Rule.exists_cons_of_mem y.mem
      simp [Item.text, hy]
    | blank c hc => simpa [Item.text] using hp c hc

/-- A point and then a digit can only come from the two lexemes. -/
theorem Item.point_digit_iff (is : List Item) :
    (∃ d u, concat is = '.' :: d :: u ∧ d.isDigit = true) ↔
      ∃ y z t, is = .lexeme y :: .lexeme z :: t ∧ y.text = ['.'] ∧ z.rule = .number := by
  have hdigit := head_concat_iff (p := fun c => c.isDigit = true) (by simp)
  refine ⟨?_, ?_⟩
  · intro h
    obtain ⟨d, u, h, hd⟩ := h
    obtain ⟨y, t, rfl, hy⟩ := (head_concat_iff (p := fun c => c = '.') (by simp) is).mp
      ⟨'.', by rw [h]; rfl, rfl⟩
    have hpoint := y.head_point_iff.mp hy
    rw [concat_cons, text, hpoint] at h
    have ht : concat t = d :: u := (List.cons.inj h).2
    obtain ⟨z, t', rfl, hz⟩ := (hdigit t).mp ⟨d, by rw [ht]; rfl, hd⟩
    exact ⟨y, z, t', rfl, hpoint, z.head_isDigit_iff.mp hz⟩
  · intro h
    obtain ⟨y, z, t, rfl, hy, hz⟩ := h
    obtain ⟨d, hd, hdd⟩ := z.head_isDigit_iff.mpr hz
    obtain ⟨u, hu⟩ := List.head?_eq_some_iff.mp hd
    refine ⟨d, u ++ concat t, ?_, hdd⟩
    rw [concat_cons, concat_cons, text, text, hy, hu]
    rfl

/-! ## A lexeme stops exactly where it does not grow together with what follows -/

namespace Lexeme

theorem exists_operator {x : Lexeme} (h : x.text ∈ [['!'], ['='], ['<'], ['>'], ['/']]) :
    ∃ k, x.rule = .operator k := by
  have key : ∀ {s k}, x.text = s → (s, k) ∈ operators → ∃ k, x.rule = .operator k := by
    rintro _ k rfl hk
    exact ⟨k, Rule.eq_of_mem x.mem hk⟩
  simp only [List.mem_cons, List.not_mem_nil, or_false] at h
  rcases h with h | h | h | h | h
  · exact key h (k := .bang) (by decide)
  · exact key h (k := .equal) (by decide)
  · exact key h (k := .less) (by decide)
  · exact key h (k := .greater) (by decide)
  · exact key h (k := .slash) (by decide)

/-- Only words and numbers stick by what they are, and not by how they are spelled. -/
theorem Sticks.of_not_operator {x y : Lexeme} (h : x.Sticks y) (hx : ∀ k, x.rule ≠ .operator k) :
    (x.rule = .word ∧ (y.rule = .word ∨ y.rule = .number)) ∨
      (x.rule = .number ∧ y.rule = .number) := by
  rcases h with h | h | ⟨h, _⟩ | ⟨h, _⟩
  · exact Or.inl h
  · exact Or.inr h
  · obtain ⟨k, hk⟩ := exists_operator (x := x) (by simp at h ⊢; tauto)
    exact absurd hk (hx k)
  · obtain ⟨k, hk⟩ := exists_operator (x := x) (by simp [h])
    exact absurd hk (hx k)

theorem operator_stops_iff {x : Lexeme} {k : Kind} (hr : x.rule = .operator k) (is : List Item) :
    (Rule.operator k).Stops x.text (Item.concat is) ↔ ¬ GluedTo x is := by
  have hequal := Item.head_concat_iff (p := fun c => c = '=') (by simp) is
  have hslash := Item.head_concat_iff (p := fun c => c = '/') (by simp) is
  refine ⟨?_, ?_⟩
  · intro hs hg
    obtain ⟨hs, hs'⟩ := hs
    rcases hg with ⟨y, t, rfl, ⟨h, _⟩ | ⟨h, _⟩ | ⟨h, hy⟩ | ⟨h, hy⟩⟩ | ⟨y, z, t, rfl, h, _⟩
    · exact absurd h (by simp [hr])
    · exact absurd h (by simp [hr])
    · obtain ⟨_, hc, rfl⟩ := hequal.mpr ⟨y, t, rfl, y.head_equal_iff.mpr hy⟩
      exact hs h hc
    · obtain ⟨_, hc, rfl⟩ := hslash.mpr ⟨y, t, rfl, y.head_slash_iff.mpr hy⟩
      exact hs' h hc
    · exact absurd h (by simp [hr])
  · intro hg
    refine ⟨?_, ?_⟩
    · intro h hc
      obtain ⟨y, t, rfl, hy⟩ := hequal.mp ⟨'=', hc, rfl⟩
      exact hg (Or.inl ⟨y, t, rfl, Or.inr (Or.inr (Or.inl ⟨h, y.head_equal_iff.mp hy⟩))⟩)
    · intro h hc
      obtain ⟨y, t, rfl, hy⟩ := hslash.mp ⟨'/', hc, rfl⟩
      exact hg (Or.inl ⟨y, t, rfl, Or.inr (Or.inr (Or.inr ⟨h, y.head_slash_iff.mp hy⟩))⟩)

theorem number_stops_iff {x : Lexeme} (hr : x.rule = .number) (is : List Item) :
    Rule.number.Stops x.text (Item.concat is) ↔ ¬ GluedTo x is := by
  have hdigit := Item.head_concat_iff (p := fun c => c.isDigit = true) (by simp) is
  have hpoint := Item.point_digit_iff is
  refine ⟨?_, ?_⟩
  · intro hs hg
    obtain ⟨hs, hs'⟩ := hs
    rcases hg with ⟨y, t, rfl, h⟩ | ⟨y, z, t, rfl, _, hx, hy, hz⟩
    · rcases h.of_not_operator (by simp [hr]) with ⟨h, _⟩ | ⟨_, hy⟩
      · exact absurd h (by simp [hr])
      · obtain ⟨c, hc, hd⟩ := hdigit.mpr ⟨y, t, rfl, y.head_isDigit_iff.mpr hy⟩
        exact absurd hd (by simp [hs c hc])
    · obtain ⟨d, u, h, hd⟩ := hpoint.mpr ⟨y, z, t, rfl, hy, hz⟩
      exact absurd hd (by simp [hs' hx d u h])
  · intro hg
    refine ⟨?_, ?_⟩
    · intro c hc
      by_contra hd
      obtain ⟨y, t, rfl, hy⟩ := hdigit.mp ⟨c, hc, by simpa using hd⟩
      exact hg (Or.inl ⟨y, t, rfl, Or.inr (Or.inl ⟨hr, y.head_isDigit_iff.mp hy⟩)⟩)
    · intro hx d u h
      by_contra hd
      obtain ⟨y, z, t, rfl, hy, hz⟩ := hpoint.mp ⟨d, u, h, by simpa using hd⟩
      exact hg (Or.inr ⟨y, z, t, rfl, hr, hx, hy, hz⟩)

theorem word_stops_iff {x : Lexeme} (hr : x.rule = .word) (is : List Item) :
    Rule.word.Stops x.text (Item.concat is) ↔ ¬ GluedTo x is := by
  have hpart := Item.head_concat_iff (p := fun c => isWordPart c = true)
    (by simp [isWordPart, isWordStart]) is
  refine ⟨?_, ?_⟩
  · intro hs hg
    rcases hg with ⟨y, t, rfl, h⟩ | ⟨y, z, t, rfl, h, _⟩
    · rcases h.of_not_operator (by simp [hr]) with ⟨_, hy⟩ | ⟨h, _⟩
      · obtain ⟨c, hc, hp⟩ := hpart.mpr ⟨y, t, rfl, y.head_isWordPart_iff.mpr hy⟩
        exact absurd hp (by simp [hs c hc])
      · exact absurd h (by simp [hr])
    · exact absurd h (by simp [hr])
  · intro hg c hc
    by_contra hp
    obtain ⟨y, t, rfl, hy⟩ := hpart.mp ⟨c, hc, by simpa using hp⟩
    exact hg (Or.inl ⟨y, t, rfl, Or.inl ⟨hr, y.head_isWordPart_iff.mp hy⟩⟩)

theorem string_not_gluedTo {x : Lexeme} (hr : x.rule = .string) (is : List Item) :
    ¬ GluedTo x is := by
  intro hg
  rcases hg with ⟨y, t, rfl, h⟩ | ⟨y, z, t, rfl, h, _⟩
  · rcases h.of_not_operator (by simp [hr]) with ⟨h, _⟩ | ⟨h, _⟩
    · exact absurd h (by simp [hr])
    · exact absurd h (by simp [hr])
  · exact absurd h (by simp [hr])

theorem stops_iff_not_gluedTo (x : Lexeme) (is : List Item) :
    x.rule.Stops x.text (Item.concat is) ↔ ¬ GluedTo x is := by
  cases hr : x.rule with
  | operator k => exact operator_stops_iff hr is
  | number => exact number_stops_iff hr is
  | word => exact word_stops_iff hr is
  | string => exact iff_of_true trivial (string_not_gluedTo hr is)
  | blank => exact absurd hr x.isToken.1
  | comment => exact absurd hr x.isToken.2

end Lexeme

/-! ## The items are the cutting of their text -/

theorem Cutting.cons_iff {g : Segment} {gs : List Segment} {rest left : List Char} :
    Cutting (g.text ++ rest) (g :: gs) left ↔
      g.Next (g.text ++ rest) ∧ Cutting rest gs left := by
  refine ⟨fun h => ?_, fun h => .segment h.1 h.2⟩
  generalize ht : g.text ++ rest = text at h
  cases h with
  | segment hg hrest =>
    obtain rfl := List.append_cancel_left ht
    exact ⟨hg, hrest⟩

/-- Items that have not grown together are the longest matches of their text, and no others are. -/
theorem cutting_concat_iff (is : List Item) :
    Cutting (Item.concat is) (is.map Item.segment) [] ↔ ¬ Glued is := by
  induction is with
  | nil => exact ⟨fun _ => not_glued_nil, fun _ => .finished⟩
  | cons i is ih =>
    rw [Item.concat_cons, List.map_cons, ← i.text_segment, Cutting.cons_iff, ih, glued_cons_iff,
      not_or]
    refine and_congr_left fun _ => ?_
    cases i with
    | lexeme x =>
      show LongestMatch x.rule x.text (x.text ++ Item.concat is) ↔ _
      rw [Rule.longestMatch_iff_stops x.mem, x.stops_iff_not_gluedTo]
      simp
    | blank c hc =>
      show LongestMatch .blank [c] ([c] ++ Item.concat is) ↔ _
      rw [Rule.longestMatch_iff_stops (Rule.mem_blank.mpr ⟨c, hc, rfl⟩)]
      simp [Rule.Stops]

/-! ## Items are determined by their text and their tokens -/

/-- The texts of the segments that are tokens. -/
def Segment.lexemes (gs : List Segment) : List (List Char) :=
  gs.filterMap fun g => g.kind?.map fun _ => g.text

/-- The characters that belong to no token. -/
def Segment.skipped (gs : List Segment) : List Char :=
  (gs.filter fun g => g.kind?.isNone).flatMap text

namespace Segment

theorem lexemes_cons (g : Segment) (gs : List Segment) :
    lexemes (g :: gs) = (g.kind?.map fun _ => g.text).toList ++ lexemes gs := by
  rw [lexemes, List.filterMap_cons]
  cases g.kind? <;> rfl

theorem skipped_cons (g : Segment) (gs : List Segment) :
    skipped (g :: gs) = (if g.kind?.isNone then g.text else []) ++ skipped gs := by
  rw [skipped, List.filter_cons]
  cases g.kind? <;> rfl

theorem map_lexeme_tokens (line : Nat) (gs : List Segment) :
    (tokens line gs).map Token.lexeme = (lexemes gs).map String.ofList := by
  induction gs generalizing line with
  | nil => rfl
  | cons g gs ih =>
    rw [tokens_cons, List.map_append, ih, lexemes_cons, List.map_append, token?]
    cases g.kind? with
    | none => rfl
    | some k => rfl

/-- Each character belongs to a token or to none. -/
theorem count_eq (c : Char) (gs : List Segment) :
    (gs.flatMap text).count c = (lexemes gs).flatten.count c + (skipped gs).count c := by
  induction gs with
  | nil => rfl
  | cons g gs ih =>
    rw [List.flatMap_cons, List.count_append, ih, lexemes_cons, skipped_cons, List.flatten_append,
      List.count_append, List.count_append]
    cases g.kind? with
    | none => simp; omega
    | some k => simp; omega

end Segment

namespace Item

theorem kind?_lexeme (x : Lexeme) : ∃ k, (lexeme x).segment.kind? = some k := by
  obtain ⟨rule, s, _, hb, hc⟩ := x
  cases rule with
  | blank => exact absurd rfl hb
  | comment => exact absurd rfl hc
  | _ => exact ⟨_, rfl⟩

theorem count_slash_skipped (is : List Item) :
    (Segment.skipped (is.map segment)).count '/' = 0 := by
  induction is with
  | nil => rfl
  | cons i is ih =>
    rw [List.map_cons, Segment.skipped_cons, List.count_append, ih]
    cases i with
    | lexeme x =>
      obtain ⟨k, hk⟩ := kind?_lexeme x
      simp [hk]
    | blank c hc =>
      have hne : c ≠ '/' := fun h => absurd (h ▸ hc) (by decide)
      simp [segment, Segment.kind?, Segment.text, hne]

theorem text_ne_nil (i : Item) : i.text ≠ [] := by
  cases i with
  | lexeme x => exact fun h => Rule.nil_notMem x.rule (h ▸ x.mem)
  | blank c hc => exact List.cons_ne_nil c []

/-- No lexeme begins like a blank. -/
theorem lexeme_append_ne {x : Lexeme} {c : Char} (hc : c ∈ [' ', '\t', '\r', '\n'])
    (s t : List Char) : x.text ++ s ≠ c :: t := by
  obtain ⟨a, u, hx⟩ := Rule.exists_cons_of_mem x.mem
  rw [hx, List.cons_append]
  intro h
  obtain rfl := (List.cons.inj h).1
  have ht := Rule.tail_of_mem (hx ▸ x.mem)
  rw [Opening.of_eq_of_fits (o := .blank) hc] at ht
  exact x.isToken.1 ht.1

/-- Two lists of items with the same text and the same lexemes are the same. -/
theorem segments_eq {is js : List Item} (htext : concat is = concat js)
    (hlex : Segment.lexemes (is.map segment) = Segment.lexemes (js.map segment)) :
    is.map segment = js.map segment := by
  induction is generalizing js with
  | nil =>
    cases js with
    | nil => rfl
    | cons j js => exact absurd (List.append_eq_nil_iff.mp htext.symm).1 j.text_ne_nil
  | cons i is ih =>
    cases js with
    | nil => exact absurd (List.append_eq_nil_iff.mp htext).1 i.text_ne_nil
    | cons j js =>
      rw [List.map_cons, List.map_cons] at hlex ⊢
      rw [Segment.lexemes_cons, Segment.lexemes_cons] at hlex
      rw [concat_cons, concat_cons] at htext
      cases i with
      | lexeme x =>
        cases j with
        | lexeme y =>
          obtain ⟨k, hk⟩ := kind?_lexeme x
          obtain ⟨k', hk'⟩ := kind?_lexeme y
          rw [hk, hk'] at hlex
          obtain ⟨hxy, hlex⟩ := List.cons.inj hlex
          replace hxy : x.text = y.text := hxy
          have hrule : x.rule = y.rule := Rule.eq_of_mem x.mem (hxy ▸ y.mem)
          rw [text, text, hxy] at htext
          rw [ih (List.append_cancel_left htext) hlex, segment, segment, hxy, hrule]
        | blank c hc => exact absurd htext (lexeme_append_ne hc _ _)
      | blank c hc =>
        -- a blank of the one list cannot be the beginning of a lexeme of the other
        cases j with
        | lexeme y => exact absurd htext.symm (lexeme_append_ne hc _ _)
        | blank d hd =>
          obtain ⟨rfl, hrest⟩ := List.cons.inj htext
          rw [ih hrest hlex]

end Item

/-! ## A clean scan with the tokens of the items has cut the text into them -/

/-- Segments without strays and comments are items. -/
theorem exists_items {line : Nat} {gs : List Segment} (hnext : ∀ g ∈ gs, ∃ t, g.Next t)
    (hstray : Segment.errors line gs = []) (hslash : (Segment.skipped gs).count '/' = 0) :
    ∃ js : List Item, gs = js.map Item.segment := by
  induction gs generalizing line with
  | nil => exact ⟨[], rfl⟩
  | cons g gs ih =>
    obtain ⟨⟨t, ht⟩, hnext⟩ := List.forall_mem_cons.mp hnext
    rw [Segment.errors_cons] at hstray
    obtain ⟨hg, hstray⟩ := List.append_eq_nil_iff.mp hstray
    rw [Segment.skipped_cons, List.count_append, Nat.add_eq_zero_iff] at hslash
    obtain ⟨js, rfl⟩ := ih hnext hstray hslash.2
    cases g with
    | stray a => exact absurd hg (by simp [Segment.error?])
    | matched r s =>
      have hm : s ∈ r.language := LongestMatch.mem ht
      cases r with
      | blank =>
        obtain ⟨c, hc, rfl⟩ := Rule.mem_blank.mp hm
        exact ⟨.blank c hc :: js, rfl⟩
      | comment =>
        -- a comment skips two slashes
        obtain ⟨body, _, rfl⟩ := Rule.mem_comment.mp hm
        exact absurd hslash.1 (by simp [Segment.kind?, Segment.text])
      | _ => exact ⟨.lexeme ⟨_, s, hm, by simp⟩ :: js, rfl⟩

theorem cutting_of_scan {is : List Item} {line : Nat}
    (h : scan (String.ofList (Item.concat is)) = .ok
      { tokens := Item.tokens is ++ [.endOfText line], errors := [] }) :
    Cutting (Item.concat is) (is.map Item.segment) [] := by
  have htext : (String.ofList (Item.concat is)).toList = Item.concat is := String.toList_ofList
  obtain ⟨gs, left, hcut⟩ := exists_cutting (String.ofList (Item.concat is)).toList
  by_cases hleft : left = []
  · subst hleft
    rw [scan_of_cutting hcut, Except.ok.injEq, Scanned.mk.injEq] at h
    obtain ⟨htokens, herrors⟩ := h
    replace htokens := (List.append_inj' htokens rfl).1
    have hlex : Segment.lexemes gs = Segment.lexemes (is.map Item.segment) := by
      have hmap := congrArg (List.map Token.lexeme) htokens
      rw [Segment.map_lexeme_tokens, Item.tokens, Segment.map_lexeme_tokens] at hmap
      exact List.map_injective_iff.mpr (fun _ _ => String.ofList_inj.mp) hmap
    have hconcat : gs.flatMap Segment.text = Item.concat is := by
      rw [← List.append_nil (gs.flatMap _), hcut.flatMap_append, htext]
    -- no slash is skipped by the items, so none is skipped by the scan
    have hslash : (Segment.skipped gs).count '/' = 0 := by
      have hgs := Segment.count_eq '/' gs
      have his := Segment.count_eq '/' (is.map Item.segment)
      rw [Item.flatMap_text_segment, Item.count_slash_skipped] at his
      rw [hconcat, hlex] at hgs
      omega
    obtain ⟨js, rfl⟩ := exists_items hcut.exists_next herrors hslash
    rw [Item.flatMap_text_segment] at hconcat
    rw [← Item.segments_eq hconcat hlex, ← htext]
    exact hcut
  · rw [scan_of_cutting_openString hcut hleft] at h
    exact absurd h (by simp)

/-! ## The law -/

/--
**The gluing law.** The text of a list of items is read back as its lexemes, without faults, if and
only if none of them have grown together.
-/
theorem scan_concat_iff_not_glued (is : List Item) :
    (∃ line, scan (String.ofList (Item.concat is)) = .ok
        { tokens := Item.tokens is ++ [.endOfText line], errors := [] }) ↔ ¬ Glued is := by
  refine ⟨?_, ?_⟩
  · intro h
    obtain ⟨line, hscan⟩ := h
    exact (cutting_concat_iff is).mp (cutting_of_scan hscan)
  · intro hg
    have hcut := (cutting_concat_iff is).mpr hg
    rw [← String.toList_ofList (l := Item.concat is)] at hcut
    have herrors : Segment.errors 1 (is.map Item.segment) = [] := Item.errors_eq_nil 1 is
    rw [scan_of_cutting hcut, herrors]
    exact ⟨_, rfl⟩

end Lox

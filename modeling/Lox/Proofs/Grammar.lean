import Lox.Json.Rebuilding
import Lox.Proofs.NumberText
import Mathlib.Data.List.Chain

/-!
# Every spelling of a JSON value is read

A value can be spelled in many ways: blanks may stand between its symbols, a number may have its
power of ten behind either letter and with or without a plus sign, and a character of a string may
be written as itself, by a short escape, or by its 16-bit units in digits of either case. Here the
spellings are described as the grammar has them, and reading is shown to accept each of them.

At each level the question is where one thing ends and the next one begins. A numeral ends before
anything that does not continue a number, and a string ends at its closing quote, since no quote
inside of it stands for itself. Two symbols can be told apart unless both are numbers, and among the
symbols of a value a number is never followed by another.
-/

namespace Lox.Json

/-! ## Numbers -/

namespace Number

/-- Digits, at least one. -/
def IsDigits (ds : List Char) : Prop := ds ≠ [] ∧ ∀ c ∈ ds, c.isDigit = true

/-- What stands before the point. -/
inductive Whole : List Char → Prop where
  | zero : Whole ['0']
  | digits {ds : List Char} : IsDigits ds → ds.head? ≠ some '0' → Whole ds

/-- The digits behind the point, and how they are written. -/
inductive Fraction : List Char → List Char → Prop where
  | absent : Fraction [] []
  | present {ds : List Char} : IsDigits ds → Fraction ds ('.' :: ds)

/-- A power of ten, and how it is written behind its letter. -/
inductive Power : Int → List Char → Prop where
  | bare {ds : List Char} : IsDigits ds → Power (Nat.ofDigitChars 10 ds 0) ds
  | plus {ds : List Char} : IsDigits ds → Power (Nat.ofDigitChars 10 ds 0) ('+' :: ds)
  | minus {ds : List Char} : IsDigits ds → Power (-(Nat.ofDigitChars 10 ds 0)) ('-' :: ds)

/-- A power of ten or none, and how it is written. -/
inductive Exponent : Option Int → List Char → Prop where
  | absent : Exponent none []
  | present {e : Int} {letter : Char} {cs : List Char} :
      letter = 'e' ∨ letter = 'E' → Power e cs → Exponent (some e) (letter :: cs)

/-- A text that spells a number. -/
inductive Spelled : Numeral → List Char → Prop where
  | mk {whole fraction fs es : List Char} {exponent : Option Int} (negative : Bool) :
      Whole whole → Fraction fraction fs → Exponent exponent es →
      Spelled { Numeral.ofParts whole fraction with negative, exponent }
        ((if negative then ['-'] else []) ++ (whole ++ (fs ++ es)))

/-- What follows does not continue a number. -/
def Ended (rest : List Char) : Prop :=
  ∀ c ∈ rest.head?, c.isDigit = false ∧ c ≠ '.' ∧ c ≠ 'e' ∧ c ≠ 'E'

variable {ds rest : List Char}

theorem IsDigits.exists_cons (h : IsDigits ds) : ∃ c cs, ds = c :: cs ∧ c.isDigit = true := by
  obtain ⟨c, cs, rfl⟩ := List.exists_cons_of_ne_nil h.1
  exact ⟨c, cs, rfl, h.2 c List.mem_cons_self⟩

theorem Whole.isDigits (h : Whole ds) : IsDigits ds := by
  cases h with
  | zero => exact ⟨by simp, by simp⟩
  | digits h _ => exact h

theorem digits?_append (h : IsDigits ds) (hrest : ∀ c ∈ rest.head?, c.isDigit = false) :
    digits? (ds ++ rest) = some (ds, rest) := by
  obtain ⟨c, cs, rfl, -⟩ := h.exists_cons
  rw [digits?, takeWhile_digits_append h.2 hrest, dropWhile_digits_append h.2 hrest]

theorem whole?_append (h : Whole ds) (hrest : ∀ c ∈ rest.head?, c.isDigit = false) :
    whole? (ds ++ rest) = some (ds, rest) := by
  cases h with
  | zero => rfl
  | digits h hzero =>
    rw [← digits?_append h hrest, whole?]
    intro tail ht
    obtain ⟨c, cs, rfl, -⟩ := h.exists_cons
    exact hzero (by rw [(List.cons.inj ht).1]; rfl)

theorem fraction?_append {fs : List Char} (h : Fraction ds fs)
    (hrest : ∀ c ∈ rest.head?, c.isDigit = false ∧ c ≠ '.') :
    fraction? (fs ++ rest) = some (ds, rest) := by
  cases h with
  | absent =>
    rw [List.nil_append, fraction?]
    intro tail ht
    exact (hrest '.' (by rw [ht]; rfl)).2 rfl
  | present h => exact digits?_append h fun c hc => (hrest c hc).1

theorem power?_append {e : Int} {cs : List Char} (h : Power e cs)
    (hrest : ∀ c ∈ rest.head?, c.isDigit = false) : power? (cs ++ rest) = some (e, rest) := by
  cases h with
  | bare h =>
    obtain ⟨c, cs, rfl, hc⟩ := h.exists_cons
    have hread := digits?_append h hrest
    rw [List.cons_append] at hread ⊢
    rw [power?, hread]
    · rfl
    -- a digit is no sign
    all_goals
      intro tail heq
      rw [(List.cons.inj heq).1] at hc
      exact absurd hc (by decide)
  | plus h =>
    rw [List.cons_append, power?, digits?_append h hrest]
    rfl
  | minus h =>
    rw [List.cons_append, power?, digits?_append h hrest]
    rfl

theorem exponent?_append {e : Option Int} {es : List Char} (h : Exponent e es)
    (hrest : Ended rest) : exponent? (es ++ rest) = some (e, rest) := by
  cases h with
  | absent =>
    rw [List.nil_append, exponent?]
    · intro tail ht
      exact (hrest 'e' (by rw [ht]; rfl)).2.2.1 rfl
    · intro tail ht
      exact (hrest 'E' (by rw [ht]; rfl)).2.2.2 rfl
  | present hletter hp =>
    have hread := power?_append hp fun c hc => (hrest c hc).1
    rcases hletter with rfl | rfl
    · rw [List.cons_append, exponent?, hread]
      rfl
    · rw [List.cons_append, exponent?, hread]
      rfl

theorem Exponent.head?_append {e : Option Int} {es : List Char} (h : Exponent e es)
    (hrest : Ended rest) : ∀ c ∈ (es ++ rest).head?, c.isDigit = false ∧ c ≠ '.' := by
  cases h with
  | absent => exact fun c hc => ⟨(hrest c hc).1, (hrest c hc).2.1⟩
  | present hletter _ =>
    intro c hc
    obtain rfl := Option.some.inj hc
    rcases hletter with rfl | rfl
    · decide
    · decide

theorem Fraction.head?_append {fs : List Char} (h : Fraction ds fs)
    (hrest : ∀ c ∈ rest.head?, c.isDigit = false) :
    ∀ c ∈ (fs ++ rest).head?, c.isDigit = false := by
  cases h with
  | absent => exact hrest
  | present _ =>
    intro c hc
    obtain rfl := Option.some.inj hc
    rfl

/-- A number is read, whatever follows that does not continue it. -/
theorem Spelled.read?_append {n : Numeral} {cs : List Char} (h : Spelled n cs)
    (hrest : Ended rest) : read? (cs ++ rest) = some (n, rest) := by
  obtain @⟨whole, fraction, fs, es, exponent, negative, hw, hf, he⟩ := h
  have hexponent := he.head?_append hrest
  have hread : unsigned? negative (whole ++ (fs ++ (es ++ rest))) =
      some ({ Numeral.ofParts whole fraction with negative, exponent }, rest) := by
    rw [unsigned?, whole?_append hw (hf.head?_append fun c hc => (hexponent c hc).1)]
    dsimp only
    rw [fraction?_append hf hexponent]
    dsimp only
    rw [exponent?_append he hrest]
  rw [List.append_assoc, List.append_assoc, List.append_assoc]
  cases negative with
  | true => exact hread
  | false =>
    -- the first character is a digit, and so it is no sign
    obtain ⟨c, tail, rfl, hc⟩ := hw.isDigits.exists_cons
    rw [if_neg (by simp), List.nil_append, List.cons_append, read?]
    · exact hread
    · intro tail heq
      rw [(List.cons.inj heq).1] at hc
      exact absurd hc (by decide)

theorem Spelled.exists_cons {n : Numeral} {cs : List Char} (h : Spelled n cs) :
    ∃ c tail, cs = c :: tail ∧ (c = '-' ∨ c.isDigit = true) := by
  obtain ⟨negative, hw, -, -⟩ := h
  obtain ⟨c, tail, rfl, hc⟩ := hw.isDigits.exists_cons
  cases negative with
  | true => exact ⟨'-', _, rfl, .inl rfl⟩
  | false => exact ⟨c, _, rfl, .inr hc⟩

end Number

/-! ## Strings -/

namespace Quoted

/-- A hexadecimal digit in either case. -/
def IsHex (v : Nat) (c : Char) : Prop :=
  v < 16 ∧ (c = Nat.digitChar v ∨ c = (Nat.digitChar v).toUpper)

/-- A text that spells one item. -/
inductive Item.Spelled : Item → List Char → Prop where
  | raw {c : Char} : ¬ c < ' ' → c ≠ '"' → c ≠ '\\' → Spelled (.char c) [c]
  | short {e c : Char} : shortEscape? e = some c → Spelled (.char c) ['\\', e]
  | digits {w x y z : Nat} {a b c d : Char} : IsHex w a → IsHex x b → IsHex y c → IsHex z d →
      Spelled (.unit (16 * (16 * (16 * w + x) + y) + z)) ['\\', 'u', a, b, c, d]

/-- A text that spells items one after the other. -/
inductive ItemsSpelled : List Item → List Char → Prop where
  | nil : ItemsSpelled [] []
  | cons {item : Item} {items : List Item} {cs text : List Char} :
      item.Spelled cs → ItemsSpelled items text → ItemsSpelled (item :: items) (cs ++ text)

/--
The characters that items denote. A character up to `U+FFFF` takes one unit, and one beyond takes a
high and a low surrogate.
-/
inductive Denotes : List Item → List Char → Prop where
  | nil : Denotes [] []
  | char {c : Char} {items : List Item} {cs : List Char} :
      Denotes items cs → Denotes (.char c :: items) (c :: cs)
  | unit {c : Char} {items : List Item} {cs : List Char} :
      Denotes items cs → Denotes (.unit c.toNat :: items) (c :: cs)
  | pair {c : Char} {high low : Nat} {items : List Item} {cs : List Char} :
      0xD800 ≤ high → high < 0xDC00 → 0xDC00 ≤ low → low < 0xE000 →
      c.toNat = 0x10000 + (high - 0xD800) * 0x400 + (low - 0xDC00) →
      Denotes items cs → Denotes (.unit high :: .unit low :: items) (c :: cs)

/--
A text that spells a string. It is a string even if its items denote no characters, since one of
them is a surrogate that has no partner.
-/
inductive Spelled : Option String → List Char → Prop where
  | text {items : List Item} {body cs : List Char} :
      ItemsSpelled items body → Denotes items cs →
      Spelled (some (String.ofList cs)) ('"' :: (body ++ ['"']))
  | noText {items : List Item} {body : List Char} :
      ItemsSpelled items body → (∀ cs, ¬ Denotes items cs) → Spelled none ('"' :: (body ++ ['"']))

theorem IsHex.hexValue? {v : Nat} {c : Char} (h : IsHex v c) : Digits.hexValue? c = some v := by
  have hall : ∀ v < 16, Digits.hexValue? (Nat.digitChar v) = some v ∧
      Digits.hexValue? (Nat.digitChar v).toUpper = some v := by decide
  obtain ⟨hv, rfl | rfl⟩ := h
  · exact (hall v hv).1
  · exact (hall v hv).2

/-- The eight characters that may stand behind a backslash. -/
theorem mem_of_shortEscape? {e c : Char} (h : shortEscape? e = some c) :
    e ∈ ['"', '\\', '/', 'b', 'f', 'n', 'r', 't'] := by
  unfold shortEscape? at h
  split at h
  case h_9 => exact absurd h (by simp)
  all_goals simp

theorem itemsAfter_append {item : Item} {cs : List Char} (h : item.Spelled cs)
    (before : List Item) (rest : List Char) :
    itemsAfter before (cs ++ rest) = itemsAfter (item :: before) rest := by
  cases h with
  | @raw c hspace hquote hback =>
    rw [List.singleton_append, itemsAfter, if_neg hspace]
    · intro heq
      exact hquote heq
    · intro a b c d tail heq
      exact absurd heq hback
    · intro e tail heq
      exact absurd heq hback
  | @short e c he =>
    have hcases := mem_of_shortEscape? he
    simp only [List.mem_cons, List.not_mem_nil, or_false] at hcases
    rcases hcases with rfl | rfl | rfl | rfl | rfl | rfl | rfl | rfl <;>
      (obtain rfl := Option.some.inj he; rfl)
  | @digits w x y z a b c d ha hb hc hd =>
    have hvalue : Digits.ofHex? [a, b, c, d] = some (16 * (16 * (16 * w + x) + y) + z) := by
      simp [Digits.ofHex?, ha.hexValue?, hb.hexValue?, hc.hexValue?, hd.hexValue?]
    show itemsAfter before ('\\' :: 'u' :: a :: b :: c :: d :: rest) = _
    rw [itemsAfter, hvalue]

theorem ItemsSpelled.itemsAfter_append {items : List Item} {body : List Char}
    (h : ItemsSpelled items body) (before : List Item) (rest : List Char) :
    itemsAfter before (body ++ '"' :: rest) = some (before.reverse ++ items, rest) := by
  induction h generalizing before with
  | nil => rw [List.nil_append, itemsAfter, List.append_nil]
  | cons hitem _ ih =>
    rw [List.append_assoc, Quoted.itemsAfter_append hitem, ih, List.reverse_cons,
      List.append_assoc, List.singleton_append]

/-- A unit that is no surrogate names a character, whatever comes behind it. -/
theorem textAfter_unit {n : Nat} (hhigh : isHigh n = false) (hlow : isLow n = false)
    (before : String) (items : List Item) :
    textAfter before (.unit n :: items) = textAfter (before.push (Char.ofNat n)) items := by
  match items with
  | [] => simp [textAfter, hhigh, hlow]
  | .char c :: items => simp [textAfter, hhigh, hlow]
  | .unit m :: items => simp [textAfter, hhigh, hlow]

theorem not_surrogate (c : Char) : isHigh c.toNat = false ∧ isLow c.toNat = false := by
  have hvalid : c.toNat < 0xD800 ∨ 0xDFFF < c.toNat ∧ c.toNat < 0x110000 := c.valid
  simp only [isHigh, isLow, decide_eq_false_iff_not]
  omega

theorem Denotes.textAfter {items : List Item} {cs : List Char} (h : Denotes items cs)
    (before : String) : textAfter before items = some (before ++ String.ofList cs) := by
  have hpush : ∀ (s : String) (c : Char) (cs : List Char),
      s.push c ++ String.ofList cs = s ++ String.ofList (c :: cs) := by
    intro s c cs
    apply String.toList_injective
    simp
  induction h generalizing before with
  | nil => simp [Quoted.textAfter]
  | char _ ih => rw [Quoted.textAfter, ih, hpush]
  | @unit c _ _ _ ih =>
    obtain ⟨hhigh, hlow⟩ := not_surrogate c
    rw [textAfter_unit hhigh hlow, Char.ofNat_toNat, ih, hpush]
  | @pair c high low _ _ h1 h2 h3 h4 hc _ ih =>
    have hhigh : isHigh high = true := decide_eq_true ⟨h1, h2⟩
    have hlow : isLow low = true := decide_eq_true ⟨h3, h4⟩
    have hpaired : paired high low = c := by rw [paired, ← hc, Char.ofNat_toNat]
    rw [Quoted.textAfter, if_pos hhigh, if_pos hlow, hpaired, ih, hpush]

/-- The units that four digits can write. -/
theorem ItemsSpelled.unit_lt {items : List Item} {body : List Char} (h : ItemsSpelled items body) :
    ∀ n, .unit n ∈ items → n < 0x10000 := by
  induction h with
  | nil => simp
  | cons hitem _ ih =>
    intro n hn
    rcases List.mem_cons.mp hn with rfl | hn
    · cases hitem with
      | digits ha hb hc hd =>
        have := ha.1
        have := hb.1
        have := hc.1
        have := hd.1
        omega
    · exact ih n hn

theorem toNat_ofNat {n : Nat} (h : n < 0xD800 ∨ 0xDFFF < n ∧ n < 0x110000) :
    (Char.ofNat n).toNat = n := by
  have hvalid : n.isValidChar := h
  rw [Char.ofNat, dif_pos hvalid]
  rfl

theorem Denotes.ofNat {n : Nat} {items : List Item} {cs : List Char} (hn : n < 0x10000)
    (hhigh : ¬ isHigh n = true) (hlow : ¬ isLow n = true) (h : Denotes items cs) :
    Denotes (.unit n :: items) (Char.ofNat n :: cs) := by
  have hsame : (Char.ofNat n).toNat = n := by
    simp only [isHigh, isLow, decide_eq_true_iff] at hhigh hlow
    exact toNat_ofNat (by omega)
  have hunit := Denotes.unit (c := Char.ofNat n) h
  rwa [hsame] at hunit

theorem Denotes.paired {high low : Nat} {items : List Item} {cs : List Char}
    (hhigh : isHigh high = true) (hlow : isLow low = true) (h : Denotes items cs) :
    Denotes (.unit high :: .unit low :: items) (Quoted.paired high low :: cs) := by
  obtain ⟨h1, h2⟩ := of_decide_eq_true hhigh
  obtain ⟨h3, h4⟩ := of_decide_eq_true hlow
  refine .pair h1 h2 h3 h4 ?_ h
  exact toNat_ofNat (by omega)

/-- Where a text is read from items, they denote characters. -/
theorem exists_denotes {before t : String} {items : List Item}
    (hunits : ∀ n, .unit n ∈ items → n < 0x10000) (h : textAfter before items = some t) :
    ∃ cs, Denotes items cs := by
  fun_induction textAfter before items with
  | case1 before => exact ⟨[], .nil⟩
  | case2 before c items ih =>
    obtain ⟨cs, hcs⟩ := ih (fun n hn => hunits n (List.mem_cons_of_mem _ hn)) h
    exact ⟨c :: cs, .char hcs⟩
  | case3 before n m items hhigh hlow ih =>
    obtain ⟨cs, hcs⟩ := ih (fun k hk =>
      hunits k (List.mem_cons_of_mem _ (List.mem_cons_of_mem _ hk))) h
    exact ⟨_, hcs.paired hhigh hlow⟩
  | case4 => exact absurd h (by simp)
  | case5 => exact absurd h (by simp)
  | case6 before n m items hhigh hlow ih =>
    obtain ⟨cs, hcs⟩ := ih (fun k hk => hunits k (List.mem_cons_of_mem _ hk)) h
    exact ⟨_, hcs.ofNat (hunits n List.mem_cons_self) hhigh hlow⟩
  | case7 => exact absurd h (by simp)
  | case8 before n items _ hnone ih =>
    obtain ⟨cs, hcs⟩ := ih (fun k hk => hunits k (List.mem_cons_of_mem _ hk)) h
    rw [Bool.or_eq_true, not_or] at hnone
    exact ⟨_, hcs.ofNat (hunits n List.mem_cons_self) hnone.1 hnone.2⟩

/-- A string is read, whatever follows its closing quote. -/
theorem Spelled.read?_append {t : Option String} {cs : List Char} (h : Spelled t cs) :
    ∃ body, cs = '"' :: body ∧ ∀ rest, read? (body ++ rest) = some (t, rest) := by
  have hitems : ∀ {items body}, ItemsSpelled items body → ∀ rest,
      read? ((body ++ ['"']) ++ rest) = some (textAfter "" items, rest) := by
    intro items body hi rest
    rw [List.append_assoc, List.singleton_append, read?, hi.itemsAfter_append]
    rfl
  cases h with
  | text hi hd =>
    refine ⟨_, rfl, fun rest => ?_⟩
    rw [hitems hi, hd.textAfter, String.empty_append]
  | @noText items body hi hnone =>
    refine ⟨_, rfl, fun rest => ?_⟩
    rw [hitems hi]
    cases ht : textAfter "" items with
    | none => rfl
    | some t =>
      obtain ⟨cs, hcs⟩ := exists_denotes hi.unit_lt ht
      exact absurd hcs (hnone cs)

end Quoted

/-! ## Symbols -/

namespace Symbol

def isNumber : Symbol → Bool
  | number _ => true
  | _ => false

/-- The symbol is spelled in one way. -/
def isMark : Symbol → Bool
  | number _ => false
  | string _ => false
  | _ => true

/-- A text that spells a symbol. -/
inductive Spelled : Symbol → List Char → Prop where
  | number {n : Numeral} {cs : List Char} : Number.Spelled n cs → Spelled (number n) cs
  | string {t : Option String} {cs : List Char} : Quoted.Spelled t cs → Spelled (string t) cs
  | mark {s : Symbol} : s.isMark = true → Spelled s s.chars

/-- A text of symbols with any blanks before, between and behind them. -/
inductive Written : List Symbol → List Char → Prop where
  | nil {blanks : List Char} : (∀ c ∈ blanks, isBlank c = true) → Written [] blanks
  | cons {s : Symbol} {ss : List Symbol} {blanks cs text : List Char} :
      (∀ c ∈ blanks, isBlank c = true) → s.Spelled cs → Written ss text →
      Written (s :: ss) (blanks ++ (cs ++ text))

/-- The texts of two symbols can be told apart. -/
def Apart (s t : Symbol) : Prop := s.isNumber = true → t.isNumber = false

theorem Spelled.read?_append {s : Symbol} {cs rest : List Char} (h : s.Spelled cs)
    (hrest : s.isNumber = true → Number.Ended rest) : read? (cs ++ rest) = some (s, rest) := by
  cases h with
  | number hn =>
    have hread := hn.read?_append (hrest rfl)
    obtain ⟨c, tail, rfl, hc⟩ := hn.exists_cons
    rw [List.cons_append] at hread ⊢
    rw [read?, hread]
    · rfl
    -- neither the sign nor a digit begins another symbol
    all_goals
      intro tail heq
      obtain rfl := (List.cons.inj heq).1
      exact absurd hc (by decide)
  | string ht =>
    obtain ⟨body, rfl, hread⟩ := ht.read?_append
    rw [List.cons_append, read?, hread]
    rfl
  | mark hm =>
    cases s with
    | number n => exact absurd hm (by simp [isMark])
    | string t => exact absurd hm (by simp [isMark])
    | bool b => cases b <;> rfl
    | _ => rfl

/-- A symbol does not begin with a blank, and only a number begins like one. -/
theorem Spelled.exists_cons {s : Symbol} {cs : List Char} (h : s.Spelled cs) :
    ∃ c tail, cs = c :: tail ∧ isBlank c = false ∧
      (s.isNumber = false → c.isDigit = false ∧ c ≠ '.' ∧ c ≠ 'e' ∧ c ≠ 'E') := by
  cases h with
  | number hn =>
    obtain ⟨c, tail, rfl, hc⟩ := hn.exists_cons
    refine ⟨c, tail, rfl, ?_, fun hs => absurd hs (by simp [isNumber])⟩
    rcases hc with rfl | hc
    · rfl
    · rw [isBlank]
      simp only [Bool.or_eq_false_iff, decide_eq_false_iff_not]
      refine ⟨⟨⟨?_, ?_⟩, ?_⟩, ?_⟩ <;> (rintro rfl; exact absurd hc (by decide))
  | string ht =>
    obtain ⟨body, rfl, -⟩ := ht.read?_append
    exact ⟨'"', body, rfl, rfl, fun _ => by decide⟩
  | mark hm =>
    cases s with
    | number n => exact absurd hm (by simp [isMark])
    | string t => exact absurd hm (by simp [isMark])
    | bool b => cases b <;> exact ⟨_, _, rfl, rfl, fun _ => by decide⟩
    | _ => exact ⟨_, _, rfl, rfl, fun _ => by decide⟩

/-- What is written behind a number does not continue it, unless it is a number too. -/
theorem Written.ended {ss : List Symbol} {text : List Char} (h : Written ss text)
    (hhead : ∀ s ∈ ss.head?, s.isNumber = false) : Number.Ended text := by
  have hblank : ∀ c, isBlank c = true → c.isDigit = false ∧ c ≠ '.' ∧ c ≠ 'e' ∧ c ≠ 'E' := by
    intro c hc
    simp only [isBlank, Bool.or_eq_true, decide_eq_true_eq, or_assoc] at hc
    rcases hc with rfl | rfl | rfl | rfl <;> decide
  cases h with
  | nil hb => exact fun c hc => hblank c (hb c (List.mem_of_mem_head? hc))
  | @cons s ss blanks cs text hb hs ht =>
    intro c hc
    cases blanks with
    | nil =>
      obtain ⟨d, tail, rfl, -, hd⟩ := hs.exists_cons
      obtain rfl := Option.some.inj hc
      exact hd (hhead s rfl)
    | cons b blanks =>
      obtain rfl := Option.some.inj hc
      exact hblank b (hb b List.mem_cons_self)

theorem readAllAfter_blanks {blanks : List Char} (h : ∀ c ∈ blanks, isBlank c = true)
    (before : Array Symbol) (rest : List Char) :
    readAllAfter before (blanks ++ rest) = readAllAfter before rest := by
  induction blanks with
  | nil => rfl
  | cons c blanks ih =>
    obtain ⟨hc, hblanks⟩ := List.forall_mem_cons.mp h
    rw [List.cons_append, readAllAfter, if_pos hc, ih hblanks]

theorem readAllAfter_append {s : Symbol} {cs rest : List Char} (h : s.Spelled cs)
    (hrest : s.isNumber = true → Number.Ended rest) (before : Array Symbol) :
    readAllAfter before (cs ++ rest) = readAllAfter (before.push s) rest := by
  have hread := h.read?_append hrest
  obtain ⟨c, tail, rfl, hc, -⟩ := h.exists_cons
  rw [List.cons_append] at hread ⊢
  rw [readAllAfter, if_neg (by rw [hc]; exact Bool.false_ne_true)]
  split
  · next t rest' hr =>
    obtain ⟨rfl, rfl⟩ := Prod.mk.inj (Option.some.inj (hr.symm.trans hread))
    rfl
  · next hr => exact absurd (hr.symm.trans hread) (by simp)

/-- Symbols are read, whatever blanks stand between them. -/
theorem Written.readAllAfter {ss : List Symbol} {text : List Char} (h : Written ss text)
    (hchain : ss.IsChain Apart) (before : Array Symbol) :
    readAllAfter before text = some (before.toList ++ ss) := by
  induction h generalizing before with
  | nil hb =>
    have hread := readAllAfter_blanks hb before []
    rw [List.append_nil] at hread
    rw [hread, Symbol.readAllAfter, List.append_nil]
  | @cons s ss blanks cs text hb hs ht ih =>
    have hrest : s.isNumber = true → Number.Ended text := by
      intro hn
      refine ht.ended fun t hmem => ?_
      rw [List.isChain_cons] at hchain
      exact hchain.1 t hmem hn
    rw [readAllAfter_blanks hb, readAllAfter_append hs hrest, ih hchain.tail]
    simp

end Symbol

/-! ## Values -/

/-- Symbols that can be written one after the other, and behind a number too. -/
structure Closing (ss : List Symbol) : Prop where
  chain : ss.IsChain Symbol.Apart
  head : ∀ s ∈ ss.head?, s.isNumber = false

theorem Closing.nil : Closing [] := ⟨.nil, by simp⟩

theorem Closing.cons {s : Symbol} {ss : List Symbol} (hs : s.isNumber = false)
    (h : ss.IsChain Symbol.Apart) : Closing (s :: ss) := by
  refine ⟨?_, ?_⟩
  · rw [List.isChain_cons]
    exact ⟨fun t _ hn => absurd (hs.symm.trans hn) Bool.false_ne_true, h⟩
  · intro t ht
    obtain rfl := Option.some.inj ht
    exact hs

theorem Closing.number {ss : List Symbol} (h : Closing ss) (n : Numeral) :
    (Symbol.number n :: ss).IsChain Symbol.Apart := by
  rw [List.isChain_cons]
  exact ⟨fun t ht _ => h.head t ht, h.chain⟩

mutual

theorem isChain_symbols {ss : List Symbol} (h : Closing ss) :
    ∀ v : Json, (v.symbols ++ ss).IsChain Symbol.Apart
  | .null => (Closing.cons rfl h.chain).chain
  | .bool _ => (Closing.cons rfl h.chain).chain
  | .number n => h.number n
  | .string _ => (Closing.cons rfl h.chain).chain
  | .array vs => by
    have hclosing := Closing.cons (s := .closeArray) rfl h.chain
    simp only [symbols, List.cons_append, List.append_assoc]
    exact (Closing.cons rfl (isChain_itemSymbols hclosing vs)).chain
  | .object ms => by
    have hclosing := Closing.cons (s := .closeObject) rfl h.chain
    simp only [symbols, List.cons_append, List.append_assoc]
    exact (Closing.cons rfl (isChain_memberSymbols hclosing ms)).chain

theorem isChain_itemSymbols {ss : List Symbol} (h : Closing ss) :
    ∀ vs : List Json, (itemSymbols vs ++ ss).IsChain Symbol.Apart
  | [] => h.chain
  | [v] => by
    rw [itemSymbols]
    exact isChain_symbols h v
  | v :: w :: vs => by
    have hrest := isChain_itemSymbols h (w :: vs)
    rw [itemSymbols, List.append_assoc]
    exact isChain_symbols (Closing.cons rfl hrest) v

theorem isChain_memberSymbols {ss : List Symbol} (h : Closing ss) :
    ∀ ms : List (Option String × Json), (memberSymbols ms ++ ss).IsChain Symbol.Apart
  | [] => h.chain
  | [(k, v)] => by
    rw [memberSymbols]
    exact (Closing.cons rfl (Closing.cons rfl (isChain_symbols h v)).chain).chain
  | (k, v) :: m :: ms => by
    have hrest := isChain_memberSymbols h (m :: ms)
    have hvalue := isChain_symbols (Closing.cons (s := .comma) rfl hrest) v
    rw [memberSymbols, List.append_assoc]
    exact (Closing.cons rfl (Closing.cons rfl hvalue).chain).chain

end

/-- A text that spells a value: its symbols in their order, with any blanks between them. -/
def Spelled (v : Json) (text : String) : Prop := Symbol.Written v.symbols text.toList

/-- **Every spelling of a value is read as the value.** -/
theorem Spelled.read? {v : Json} {text : String} (h : v.Spelled text) : read? text = some v := by
  have hchain := isChain_symbols Closing.nil v
  rw [List.append_nil] at hchain
  rw [Json.read?, Symbol.readAll, Symbol.Written.readAllAfter h hchain]
  exact ofSymbols?_symbols v

end Lox.Json

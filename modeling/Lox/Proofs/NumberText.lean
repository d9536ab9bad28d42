import Lox.Binary64.Text
import Lox.Proofs.Rule

/-!
# The numbers of a program can be read

What the rule for numbers matches is a numeral: digits, and perhaps a point with digits behind it.
So it denotes a double, and the parts of it that are read are the digits before and behind the
point. None of these texts is a name, since each begins with a digit.
-/

namespace Lox

/-! ## Digits and what follows them -/

section

variable {ds rest : List Char}

theorem takeWhile_digits_append (hds : ∀ c ∈ ds, c.isDigit = true)
    (hrest : ∀ c ∈ rest.head?, c.isDigit = false) : (ds ++ rest).takeWhile Char.isDigit = ds := by
  rw [List.takeWhile_append_of_pos hds]
  cases rest with
  | nil => exact List.append_nil ds
  | cons c rest =>
    have hc : ¬ c.isDigit = true := by simp [hrest c rfl]
    rw [List.takeWhile_cons_of_neg hc, List.append_nil]

theorem dropWhile_digits_append (hds : ∀ c ∈ ds, c.isDigit = true)
    (hrest : ∀ c ∈ rest.head?, c.isDigit = false) : (ds ++ rest).dropWhile Char.isDigit = rest := by
  rw [List.dropWhile_append_of_pos hds]
  cases rest with
  | nil => rfl
  | cons c rest =>
    have hc : ¬ c.isDigit = true := by simp [hrest c rfl]
    exact List.dropWhile_cons_of_neg hc

theorem takeWhile_digits (hds : ∀ c ∈ ds, c.isDigit = true) : ds.takeWhile Char.isDigit = ds := by
  have hnil : ∀ c ∈ ([] : List Char).head?, c.isDigit = false := by simp
  have h := takeWhile_digits_append hds hnil
  rwa [List.append_nil] at h

theorem dropWhile_digits (hds : ∀ c ∈ ds, c.isDigit = true) : ds.dropWhile Char.isDigit = [] := by
  have hnil : ∀ c ∈ ([] : List Char).head?, c.isDigit = false := by simp
  have h := dropWhile_digits_append hds hnil
  rwa [List.append_nil] at h

theorem head?_point (fraction : List Char) :
    ∀ c ∈ ('.' :: fraction).head?, c.isDigit = false := by
  intro c hc
  obtain rfl := Option.some.inj hc
  rfl

end

/-- The digits before the point of a number, and those behind it. -/
def numberParts (s : List Char) : List Char × List Char :=
  (s.takeWhile Char.isDigit, (s.dropWhile Char.isDigit).drop 1)

theorem numberParts_digits {whole : List Char} (h : ∀ c ∈ whole, c.isDigit = true) :
    numberParts whole = (whole, []) := by
  rw [numberParts, takeWhile_digits h, dropWhile_digits h, List.drop_nil]

theorem numberParts_point {whole : List Char} (h : ∀ c ∈ whole, c.isDigit = true)
    (fraction : List Char) : numberParts (whole ++ '.' :: fraction) = (whole, fraction) := by
  rw [numberParts, takeWhile_digits_append h (head?_point fraction),
    dropWhile_digits_append h (head?_point fraction)]
  rfl

/-! ## Numerals -/

theorem Numeral.unsigned?_of_mem_number {s : List Char} (h : s ∈ Rule.number.language) :
    unsigned? s = some (ofParts (numberParts s).1 (numberParts s).2) := by
  obtain ⟨whole, hw, rfl | ⟨fraction, hf, rfl⟩⟩ := Rule.mem_number.mp h
  · obtain ⟨hne, hall⟩ := Rule.mem_digits.mp hw
    rw [numberParts_digits hall, unsigned?, takeWhile_digits hall, dropWhile_digits hall]
    obtain ⟨a, t, rfl⟩ := List.exists_cons_of_ne_nil hne
    rfl
  · obtain ⟨hne, hall⟩ := Rule.mem_digits.mp hw
    obtain ⟨-, hfraction⟩ := Rule.mem_digits.mp hf
    rw [numberParts_point hall, unsigned?, takeWhile_digits_append hall (head?_point fraction),
      dropWhile_digits_append hall (head?_point fraction)]
    simp only [takeWhile_digits hfraction, dropWhile_digits hfraction]
    obtain ⟨a, t, rfl⟩ := List.exists_cons_of_ne_nil hne
    rfl

namespace Binary64

theorem toLower_of_isDigit {a : Char} (h : a.isDigit = true) : a.toLower = a := by
  obtain ⟨-, h9⟩ := isDigit_iff.mp h
  unfold Char.toLower
  refine dif_neg ?_
  intro hupper
  exact absurd (Char.le_trans hupper.1 h9) (by decide)

/-- A text that begins with a digit is no name and has no sign. -/
theorem ofText?_of_isDigit {a : Char} {t : List Char} (ha : a.isDigit = true) :
    ofText? (String.ofList (a :: t)) =
      (Numeral.unsigned? (a :: t)).map fun n => ofNumeral { n with negative := false } := by
  have hname : ∀ c cs, c.isDigit = false →
      String.ofList ((a :: t).map Char.toLower) ≠ String.ofList (c :: cs) := by
    intro c cs hc heq
    have hhead := congrArg List.head? (String.ofList_inj.mp heq)
    rw [List.map_cons, List.head?_cons, List.head?_cons, toLower_of_isDigit ha] at hhead
    rw [Option.some.inj hhead, hc] at ha
    exact absurd ha (by decide)
  have hsign : ∀ c cs, c.isDigit = false → a :: t ≠ c :: cs := by
    intro c cs hc heq
    rw [(List.cons.inj heq).1, hc] at ha
    exact absurd ha (by decide)
  have hinf : ¬ (String.ofList ((a :: t).map Char.toLower) = "inf" ∨
      String.ofList ((a :: t).map Char.toLower) = "infinity") := by
    intro h
    rcases h with h | h
    · exact hname 'i' _ (by decide) h
    · exact hname 'i' _ (by decide) h
  have hnan : String.ofList ((a :: t).map Char.toLower) ≠ "nan" := hname 'n' _ (by decide)
  rw [ofText?, String.toList_ofList]
  split
  · next heq => exact absurd heq (hsign '-' _ (by decide))
  · next heq => exact absurd heq (hsign '+' _ (by decide))
  · rw [unsigned?]
    rw [if_neg hinf, if_neg hnan]

/-- What the rule for numbers matches denotes the double nearest to its digits. -/
theorem ofText?_of_mem_number {s : List Char} (h : s ∈ Rule.number.language) :
    ofText? (String.ofList s) =
      some (ofNumeral (.ofParts (numberParts s).1 (numberParts s).2)) := by
  have hread := Numeral.unsigned?_of_mem_number h
  obtain ⟨whole, hw, hs⟩ := Rule.mem_number.mp h
  obtain ⟨hne, hall⟩ := Rule.mem_digits.mp hw
  obtain ⟨a, t, rfl⟩ := List.exists_cons_of_ne_nil hne
  have ha : a.isDigit = true := hall a List.mem_cons_self
  rcases hs with rfl | ⟨fraction, -, rfl⟩
  · rw [ofText?_of_isDigit ha, hread]
    rfl
  · rw [List.cons_append] at hread ⊢
    rw [ofText?_of_isDigit ha, hread]
    rfl

end Binary64

end Lox

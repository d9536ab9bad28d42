import Lox.Proofs.Abridging
import Lox.Proofs.RoundTrip

/-!
# What is read can be written

A text can give tokens in many spellings, and the writer uses only one of them. Whatever the
spelling was, the tokens that have been read are ones that can be written and read again: their
numbers are finite and their lines fit into 32 bits. So writing is a normal form of all the texts
that give the same tokens.

The range of doubles is checked against the nearest double, so it ends exactly where numbers begin
to be rounded to infinity. A null, which is what the writer makes of an infinity, is not a number
either.
-/

namespace Lox

/-! ## One lemma for each part -/

theorem Binary64.isFinite_of_ofJson? {v : Json} {x : Binary64} (h : ofJson? v = some x) :
    x.isFinite = true := by
  cases v with
  | number n =>
    rw [ofJson?, Option.ite_none_right_eq_some] at h
    rw [← Option.some.inj h.2]
    exact h.1
  | _ => exact absurd h (by simp [ofJson?])

theorem Literal.isFinite_of_ofJson? {v : Json} {l : Literal} (h : ofJson? v = some l) :
    l.isFinite = true := by
  unfold ofJson? at h
  split at h
  · obtain ⟨x, hx, rfl⟩ := Option.map_eq_some_iff.mp h
    exact Binary64.isFinite_of_ofJson? hx
  · rw [← Option.some.inj h]
    rfl
  · exact absurd h (by simp)

theorem Literal.all_isFinite_of_optionalOfJson? {v : Json} {l : Option Literal}
    (h : optionalOfJson? v = some l) : l.all isFinite = true := by
  unfold optionalOfJson? at h
  split at h
  · rw [← Option.some.inj h]
    rfl
  · obtain ⟨l', hl', rfl⟩ := Option.map_eq_some_iff.mp h
    exact isFinite_of_ofJson? hl'

namespace Token

theorem lineOfJson?_lt {v : Json} {n : Nat} (h : lineOfJson? v = some n) : n < 2 ^ 32 := by
  cases v with
  | number m =>
    rw [lineOfJson?, Option.ite_none_right_eq_some] at h
    obtain ⟨hall, hm⟩ := h
    rw [Bool.and_eq_true] at hall
    rw [← Option.some.inj hm]
    exact of_decide_eq_true hall.2
  | _ => exact absurd h (by simp [lineOfJson?])

/-- A token made of its parts has the values that each part gives. -/
theorem ofParts?_eq_some_iff {kind lexeme literal line : Json} {t : Token} :
    ofParts? kind lexeme literal line = some t ↔
      Kind.ofJson? kind = some t.kind ∧ lexemeOfJson? lexeme = some t.lexeme ∧
        Literal.optionalOfJson? literal = some t.literal ∧ lineOfJson? line = some t.line := by
  unfold ofParts?
  simp only [Option.bind_eq_bind, Option.bind_eq_some_iff, Option.pure_def, Option.some.injEq]
  refine ⟨?_, ?_⟩
  · intro h
    obtain ⟨k, hk, s, hs, l, hl, n, hn, rfl⟩ := h
    exact ⟨hk, hs, hl, hn⟩
  · intro h
    obtain ⟨hk, hs, hl, hn⟩ := h
    exact ⟨_, hk, _, hs, _, hl, _, hn, rfl⟩

/-- A token is made of parts, whether they are given in an object or in an array. -/
theorem exists_ofParts?_of_ofJson? {v : Json} {t : Token} (h : ofJson? v = some t) :
    ∃ kind lexeme literal line, ofParts? kind lexeme literal line = some t := by
  unfold ofJson? at h
  split at h
  · exact ⟨_, _, _, _, h⟩
  · split at h
    · split at h
      · exact ⟨_, _, _, _, h⟩
      · exact ⟨_, _, _, _, h⟩
      · exact absurd h (by simp)
    · exact absurd h (by simp)
  · exact absurd h (by simp)

/-- A token that is read has a finite value and a line of 32 bits. -/
theorem writable_of_ofJson? {v : Json} {t : Token} (h : ofJson? v = some t) :
    t.isFinite = true ∧ t.line < 2 ^ 32 := by
  obtain ⟨kind, lexeme, literal, line, hparts⟩ := exists_ofParts?_of_ofJson? h
  obtain ⟨-, -, hliteral, hline⟩ := ofParts?_eq_some_iff.mp hparts
  exact ⟨Literal.all_isFinite_of_optionalOfJson? hliteral, lineOfJson?_lt hline⟩

/-- An array is read item by item. -/
theorem listOfJson?_eq_some_iff {items : List Json} {ts : List Token} :
    listOfJson? (.array items) = some ts ↔ List.Forall₂ (fun v t => ofJson? v = some t) items ts := by
  show items.mapM ofJson? = some ts ↔ _
  induction items generalizing ts with
  | nil =>
    rw [List.mapM_nil, List.forall₂_nil_left_iff, Option.pure_def, Option.some.injEq, eq_comm]
  | cons v items ih =>
    simp only [List.mapM_cons, Option.bind_eq_bind, Option.bind_eq_some_iff, Option.pure_def,
      Option.some.injEq, List.forall₂_cons_left_iff, ih]
    refine ⟨?_, ?_⟩
    · intro h
      obtain ⟨t, ht, us, hus, rfl⟩ := h
      exact ⟨t, us, ht, hus, rfl⟩
    · intro h
      obtain ⟨t, us, ht, hus, rfl⟩ := h
      exact ⟨t, ht, us, hus, rfl⟩

theorem writable_of_listOfJson? {v : Json} {ts : List Token} (h : listOfJson? v = some ts) :
    ∀ t ∈ ts, t.isFinite = true ∧ t.line < 2 ^ 32 := by
  cases v with
  | array items =>
    have hall := listOfJson?_eq_some_iff.mp h
    induction hall with
    | nil => simp
    | cons hv hall ih =>
      exact List.forall_mem_cons.mpr ⟨writable_of_ofJson? hv, ih (listOfJson?_eq_some_iff.mpr hall)⟩
  | _ => exact absurd h (by simp [listOfJson?])

end Token

/-! ## What is not read -/

/-- Null, or a number that is rounded beyond the range of doubles. -/
def Json.IsBeyondRange : Json → Prop
  | .null => True
  | .number n => 2 ^ 1024 - 2 ^ 970 ≤ n.absolute.value
  | _ => False

/-- A token is given this literal: as a member of an object, or as the third item of an array. -/
inductive Json.GivesLiteral : Json → Json → Prop where
  | item {kind lexeme literal line : Json} :
      GivesLiteral (.array [kind, lexeme, literal, line]) literal
  | member {members : List Member} {literal : Json} :
      (some "literal", literal) ∈ members → GivesLiteral (.object members) literal

theorem Json.mem_valuesOf {key : String} {members : List Member} {v : Json} :
    v ∈ valuesOf key members ↔ (some key, v) ∈ members := by
  unfold valuesOf
  rw [List.mem_filterMap]
  refine ⟨?_, ?_⟩
  · intro h
    obtain ⟨⟨k, w⟩, hmem, hv⟩ := h
    rw [Option.ite_none_right_eq_some] at hv
    obtain ⟨rfl, hv⟩ := hv
    rwa [← Option.some.inj hv]
  · intro h
    exact ⟨_, h, if_pos rfl⟩

theorem Binary64.ofJson?_of_isBeyondRange {v : Json} (h : v.IsBeyondRange) : ofJson? v = none := by
  cases v with
  | null => rfl
  | number n => exact ofJson?_number_eq_none_iff.mpr h
  | _ => exact absurd h (by simp [Json.IsBeyondRange])

theorem Literal.ofJson?_of_isBeyondRange {members : List Json.Member} {v : Json}
    (hv : (some "Number", v) ∈ members) (h : v.IsBeyondRange) : ofJson? (.object members) = none := by
  unfold ofJson?
  split
  · next heq =>
    obtain rfl := Json.object.inj heq
    obtain ⟨-, rfl⟩ := Prod.mk.inj (List.mem_singleton.mp hv)
    rw [Binary64.ofJson?_of_isBeyondRange h]
    rfl
  · next heq =>
    obtain rfl := Json.object.inj heq
    exact absurd (Prod.mk.inj (List.mem_singleton.mp hv)).1 (by decide)
  · rfl

/-- A token whose literal is not read is not read. -/
theorem Token.ofJson?_of_givesLiteral {v literal : Json} (h : v.GivesLiteral literal)
    (hnone : Literal.optionalOfJson? literal = none) : ofJson? v = none := by
  have hparts : ∀ kind lexeme line, ofParts? kind lexeme literal line = none := by
    intro kind lexeme line
    rw [Option.eq_none_iff_forall_ne_some]
    intro t ht
    have hliteral := (ofParts?_eq_some_iff.mp ht).2.2.1
    rw [hnone] at hliteral
    exact absurd hliteral (by simp)
  cases h with
  | item => exact hparts _ _ _
  | @member members _ hmem =>
    have hvalue := Json.mem_valuesOf.mpr hmem
    rw [ofJson?]
    split
    · split
      · next hnil _ =>
        rw [hnil] at hvalue
        exact absurd hvalue List.not_mem_nil
      · next hone _ =>
        rw [hone] at hvalue
        rw [← List.mem_singleton.mp hvalue]
        exact hparts _ _ _
      · rfl
    · rfl

/-- One item that is no token is enough for the list not to be read. -/
theorem Token.listOfJson?_eq_none {items : List Json} {v : Json} (hmem : v ∈ items)
    (hv : ofJson? v = none) : listOfJson? (.array items) = none := by
  rw [Option.eq_none_iff_forall_ne_some]
  intro ts hts
  have hall := listOfJson?_eq_some_iff.mp hts
  induction hall with
  | nil => exact absurd hmem List.not_mem_nil
  | @cons w t items us hw hall ih =>
    rcases List.mem_cons.mp hmem with rfl | hmem
    · rw [hv] at hw
      exact absurd hw (by simp)
    · exact ih hmem (listOfJson?_eq_some_iff.mpr hall)

/-! ## Reading and writing -/

/-- What has been read is written as a text that is read as the same. -/
theorem Wire.read?_write_of_read? {text : String} {ts : List Token} (h : read? text = some ts) :
    read? (write ts) = some ts := by
  obtain ⟨v, -, hv⟩ := Option.bind_eq_some_iff.mp h
  have hwritable := Token.writable_of_listOfJson? hv
  rw [read?_write fun t ht => (hwritable t ht).2, if_pos]
  exact List.all_eq_true.mpr fun t ht => (hwritable t ht).1

/-- A literal is not read exactly if its number is rounded beyond the range. -/
theorem Wire.readLiteral?_eq_none_iff {n : Numeral} {text : String}
    (h : (Json.object [(some "Number", .number n)]).Spelled text) :
    readLiteral? text = none ↔ 2 ^ 1024 - 2 ^ 970 ≤ n.absolute.value := by
  have hread : readLiteral? text = (Binary64.ofJson? (.number n)).map Literal.number := by
    rw [readLiteral?, h.read?, Option.bind_some, Literal.ofJson?]
  rw [hread, Option.map_eq_none_iff, Binary64.ofJson?_number_eq_none_iff]

/--
**What is read can be written.** Of the tokens that a text gives, in whatever spelling, all numbers
are finite and all lines fit into 32 bits. Writing them and reading what was written gives the same
tokens, bit for bit, so that the text written for them is a normal form: it is read as tokens that
are written as this text.

A text that gives a token a number beyond the range of doubles, or null in the place of a number, is
not read. The range ends exactly where a number is rounded to infinity.
-/
theorem wire_reads_writable :
    (∀ text ts, Wire.read? text = some ts →
      (∀ t ∈ ts, (∀ x, t.literal = some (.number x) → x.isFinite = true) ∧
        t.line ≤ 4294967295) ∧
      Wire.read? (Wire.write ts) = some ts ∧
      (Wire.read? (Wire.write ts)).map Wire.write = some (Wire.write ts)) ∧
    (∀ items item members v text, (Json.array items).Spelled text → item ∈ items →
      item.GivesLiteral (.object members) → (some "Number", v) ∈ members → v.IsBeyondRange →
      Wire.read? text = none) ∧
    ∀ n text, (Json.object [(some "Number", .number n)]).Spelled text →
      (Wire.readLiteral? text = none ↔ 2 ^ 1024 - 2 ^ 970 ≤ n.absolute.value) := by
  refine ⟨?_, ?_, ?_⟩
  · intro text ts h
    have hback := Wire.read?_write_of_read? h
    obtain ⟨v, -, hv⟩ := Option.bind_eq_some_iff.mp h
    have hwritable := Token.writable_of_listOfJson? hv
    refine ⟨?_, hback, ?_⟩
    · intro t ht
      obtain ⟨hfinite, hline⟩ := hwritable t ht
      refine ⟨?_, by omega⟩
      intro x hx
      rw [Token.isFinite, hx, Option.all_some] at hfinite
      exact hfinite
    · rw [hback, Option.map_some]
  · intro items item members v text htext hitem hgives hmem hbeyond
    have hliteral : Literal.optionalOfJson? (.object members) = none := by
      show (Literal.ofJson? (.object members)).map some = none
      rw [Literal.ofJson?_of_isBeyondRange hmem hbeyond]
      rfl
    rw [Wire.read?, htext.read?]
    exact Token.listOfJson?_eq_none hitem (Token.ofJson?_of_givesLiteral hgives hliteral)
  · intro n text h
    exact Wire.readLiteral?_eq_none_iff h

/--
A text with blanks, an array for one token and a member that is no part of the other, whose numbers
are negative zero and one that is lost to zero.
-/
def looseText : String :=
  " [ [\"NUMBER\" , \"x\", \x7b\"Number\" : 1E-400 \x7d, 7] , \x7b\"line\":4294967295, \"more\":[0e9],\n" ++
    "\"literal\":\x7b\"Number\":-0\x7d,\"kind\":\x7b\"EOF\":null\x7d,\"lexeme\":\"\\u0061\"\x7d ] "

/-- What is written has lost the blanks, the member and the exponent, but none of the bits. -/
theorem wire_reads_writable_looseText :
    Wire.read? looseText = some
        [⟨.number, "x", some (.number (.ofBits 0)), 7⟩,
          ⟨.eof, "a", some (.number (.ofBits (Nat.pow 2 63))), 4294967295⟩] ∧
      Wire.read? (Wire.write
        [⟨.number, "x", some (.number (.ofBits 0)), 7⟩,
          ⟨.eof, "a", some (.number (.ofBits (Nat.pow 2 63))), 4294967295⟩]) = some
        [⟨.number, "x", some (.number (.ofBits 0)), 7⟩,
          ⟨.eof, "a", some (.number (.ofBits (Nat.pow 2 63))), 4294967295⟩] := by
  have hread : Wire.read? looseText = some
      [⟨.number, "x", some (.number (.ofBits 0)), 7⟩,
        ⟨.eof, "a", some (.number (.ofBits (Nat.pow 2 63))), 4294967295⟩] := by decide +kernel
  exact ⟨hread, (wire_reads_writable.1 _ _ hread).2.1⟩

end Lox

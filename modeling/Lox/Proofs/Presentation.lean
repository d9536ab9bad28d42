import Lox.Proofs.Strictness
import Lox.Proofs.Writable
import Mathlib.Data.List.Perm.Basic

/-!
# How a token may be presented

An object presents a token if it has a member for the kind, one for the lexeme and one for the line,
and one for the literal if there is a literal. The order of the members does not matter, members
with other keys are passed over whatever their values are, and the text may set and spell all of
this in any way. An array presents a token by the same parts in a fixed order. What is not accepted
are objects in which one of these keys is missing or occurs twice, wherever it occurs, and arrays
of any other length.

A number may be presented by any numeral that is rounded to it. Only of a numeral that lies on the
point halfway between two doubles no more than 768 digits may be written, since with more of them it
is read as the double behind the point.
-/

namespace Lox

/-! ## Presented literals -/

namespace Literal

/-- A literal as a value, where `Stands` says which numerals may stand for a double. -/
inductive Presents (Stands : Numeral → Binary64 → Prop) : Option Literal → Json → Prop where
  | none : Presents Stands none .null
  | number {n : Numeral} {x : Binary64} : Stands n x →
      Presents Stands (some (.number x)) (.object [(some "Number", .number n)])
  | string {s : String} : Presents Stands (some (.string s)) (.object [(some "String", .ofText s)])

end Literal

/-- The numeral has the sign of the double and is rounded to it. -/
structure Numeral.RoundsTo (n : Numeral) (x : Binary64) : Prop where
  negative : n.negative = x.negative
  nearest : Binary64.IsNearest (Binary64.signed n.negative n.absolute.value) x

/--
The numeral is rounded to the double, and if it lies on the halfway point behind the double, then
all its digits are told apart.
-/
structure Numeral.ReadsAs (n : Numeral) (x : Binary64) : Prop extends n.RoundsTo x where
  short : n.absolute.value = Binary64.halfway x.magnitude → n.Short

/-! ## Presented tokens -/

namespace Token

/-- The keys that a token has. -/
def keys : List String := ["kind", "lexeme", "literal", "line"]

/-- The members of an object that every token has. -/
def requiredMembers (t : Token) : List Json.Member :=
  [(some "kind", t.kind.toJson), (some "lexeme", .ofText t.lexeme), (some "line", .ofNat t.line)]

/-- At most one member for the literal; there is none only if there is no literal. -/
inductive LiteralMember (Stands : Numeral → Binary64 → Prop) :
    Option Literal → List Json.Member → Prop where
  | absent : LiteralMember Stands none []
  | present {l : Option Literal} {v : Json} : Literal.Presents Stands l v →
      LiteralMember Stands l [(some "literal", v)]

/-- An object or an array that presents a token. -/
inductive Presents (Stands : Numeral → Binary64 → Prop) (t : Token) : Json → Prop where
  | object {members literal others : List Json.Member} :
      LiteralMember Stands t.literal literal →
      (∀ m ∈ others, ∃ key ∉ keys, m.1 = some key) →
      members.Perm (t.requiredMembers ++ literal ++ others) → Presents Stands t (.object members)
  | array {literal : Json} : Literal.Presents Stands t.literal literal →
      Presents Stands t (.array [t.kind.toJson, .ofText t.lexeme, literal, .ofNat t.line])

end Token

/-- An object or an array that is no token, whatever values it has. -/
inductive Json.IsMalformed : Json → Prop where
  | twice {members : List Member} {key : String} {v w : Json} : key ∈ Token.keys →
      [(some key, v), (some key, w)].Sublist members → IsMalformed (.object members)
  | missing {members : List Member} {key : String} : key ∈ ["kind", "lexeme", "line"] →
      (∀ v, (some key, v) ∉ members) → IsMalformed (.object members)
  | length {items : List Json} : items.length ≠ 4 → IsMalformed (.array items)

/-! ## The values of a key -/

namespace Json

theorem valuesOf_append (key : String) (ms ns : List Member) :
    valuesOf key (ms ++ ns) = valuesOf key ms ++ valuesOf key ns := List.filterMap_append

theorem valuesOf_perm (key : String) {ms ns : List Member} (h : ms.Perm ns) :
    (valuesOf key ms).Perm (valuesOf key ns) := h.filterMap _

theorem valuesOf_sublist (key : String) {ms ns : List Member} (h : ms.Sublist ns) :
    (valuesOf key ms).Sublist (valuesOf key ns) := h.filterMap _

theorem valuesOf_eq_nil {key : String} {ms : List Member} (h : ∀ v, (some key, v) ∉ ms) :
    valuesOf key ms = [] := by
  rw [List.eq_nil_iff_forall_not_mem]
  intro v hv
  exact h v (mem_valuesOf.mp hv)

theorem valuesOf_others {key : String} {others : List Member} (hkey : key ∈ Token.keys)
    (h : ∀ m ∈ others, ∃ k ∉ Token.keys, m.1 = some k) : valuesOf key others = [] := by
  refine valuesOf_eq_nil fun v hv => ?_
  obtain ⟨k, hk, heq⟩ := h _ hv
  rw [Option.some.inj heq] at hkey
  exact hk hkey

end Json

/-! ## What is presented is read -/

theorem Literal.optionalOfJson?_of_presents {l : Option Literal} {v : Json}
    (h : Presents Numeral.ReadsAs l v) (hfinite : l.all isFinite = true) :
    optionalOfJson? v = some l := by
  cases h with
  | none => rfl
  | @number n x hn =>
    have hread : Binary64.ofJson? (.number n) = some x :=
      (Binary64.ofJson?_number_eq_some_iff hfinite hn.negative.symm hn.nearest).mpr hn.short
    show ((Binary64.ofJson? (.number n)).map number).map some = _
    rw [hread]
    rfl
  | string => rfl

namespace Token

variable {t : Token}

/-- The values that a presented token gives to its keys. -/
theorem valuesOf_of_perm {Stands : Numeral → Binary64 → Prop} {l : Option Literal}
    {members literal others : List Json.Member} (hl : LiteralMember Stands l literal)
    (ho : ∀ m ∈ others, ∃ key ∉ keys, m.1 = some key)
    (hperm : members.Perm (t.requiredMembers ++ literal ++ others)) :
    Json.valuesOf "kind" members = [t.kind.toJson] ∧
      Json.valuesOf "lexeme" members = [.ofText t.lexeme] ∧
      Json.valuesOf "literal" members = literal.map Prod.snd ∧
      Json.valuesOf "line" members = [.ofNat t.line] := by
  have hvalues : ∀ key ∈ keys, (Json.valuesOf key members).Perm
      (Json.valuesOf key t.requiredMembers ++ Json.valuesOf key literal) := by
    intro key hkey
    have h := Json.valuesOf_perm key hperm
    rwa [Json.valuesOf_append, Json.valuesOf_append, Json.valuesOf_others hkey ho,
      List.append_nil] at h
  have hkind := hvalues "kind" (by decide)
  have hlexeme := hvalues "lexeme" (by decide)
  have hliteral := hvalues "literal" (by decide)
  have hline := hvalues "line" (by decide)
  cases hl with
  | absent =>
    exact ⟨List.perm_singleton.mp hkind, List.perm_singleton.mp hlexeme,
      List.perm_nil.mp hliteral, List.perm_singleton.mp hline⟩
  | present _ =>
    exact ⟨List.perm_singleton.mp hkind, List.perm_singleton.mp hlexeme,
      List.perm_singleton.mp hliteral, List.perm_singleton.mp hline⟩

/-- All keys of a presented token are texts. -/
theorem all_isSome_of_perm {Stands : Numeral → Binary64 → Prop} {l : Option Literal}
    {members literal others : List Json.Member} (hl : LiteralMember Stands l literal)
    (ho : ∀ m ∈ others, ∃ key ∉ keys, m.1 = some key)
    (hperm : members.Perm (t.requiredMembers ++ literal ++ others)) :
    (members.all fun m => m.1.isSome) = true := by
  rw [hperm.all_eq, List.all_append, List.all_append, Bool.and_eq_true, Bool.and_eq_true]
  refine ⟨⟨rfl, ?_⟩, ?_⟩
  · cases hl with
    | absent => rfl
    | present _ => rfl
  · rw [List.all_eq_true]
    intro m hm
    obtain ⟨key, -, hkey⟩ := ho m hm
    rw [hkey]
    rfl

/-- A presented token is read. -/
theorem ofJson?_of_presents {v : Json} (h : t.Presents Numeral.ReadsAs v)
    (hfinite : t.isFinite = true) (hline : t.line < 2 ^ 32) : ofJson? v = some t := by
  have hparts : ∀ literal, Literal.optionalOfJson? literal = some t.literal →
      ofParts? t.kind.toJson (.ofText t.lexeme) literal (.ofNat t.line) = some t := by
    intro literal hliteral
    exact ofParts?_eq_some_iff.mpr ⟨t.kind.ofName?_name, rfl, hliteral, lineOfJson?_ofNat hline⟩
  cases h with
  | array hl => exact hparts _ (Literal.optionalOfJson?_of_presents hl hfinite)
  | @object members literal others hl ho hperm =>
    obtain ⟨hkind, hlexeme, hliteral, hlineValue⟩ := valuesOf_of_perm hl ho hperm
    rw [ofJson?, if_pos (all_isSome_of_perm hl ho hperm), hkind, hlexeme, hliteral, hlineValue]
    generalize hl' : t.literal = l at hl
    cases hl with
    | absent => exact hparts _ (by rw [hl']; rfl)
    | present hl =>
      rw [← hl'] at hl
      exact hparts _ (Literal.optionalOfJson?_of_presents hl hfinite)

/-- In an object that is read no key has two values, and all but one of the keys have one. -/
theorem length_valuesOf_of_ofJson? {members : List Json.Member}
    (h : ofJson? (.object members) = some t) :
    (∀ key ∈ keys, (Json.valuesOf key members).length ≤ 1) ∧
      ∀ key ∈ ["kind", "lexeme", "line"], (Json.valuesOf key members).length = 1 := by
  rw [ofJson?] at h
  split at h
  · split at h
    · next hkind hlexeme hliteral hline => simp [keys, hkind, hlexeme, hliteral, hline]
    · next hkind hlexeme hliteral hline => simp [keys, hkind, hlexeme, hliteral, hline]
    · exact absurd h (by simp)
  · exact absurd h (by simp)

/-- A value that is no token, whatever its parts are, is not read. -/
theorem ofJson?_of_isMalformed {v : Json} (h : v.IsMalformed) : ofJson? v = none := by
  rw [Option.eq_none_iff_forall_ne_some]
  intro t ht
  cases h with
  | @twice members key v w hkey hsub =>
    have hvalues : Json.valuesOf key [(some key, v), (some key, w)] = [v, w] := by
      simp [Json.valuesOf]
    have hlength := (Json.valuesOf_sublist key hsub).length_le
    have hle := (length_valuesOf_of_ofJson? ht).1 key hkey
    rw [hvalues, List.length_cons, List.length_singleton] at hlength
    omega
  | @missing members key hkey hnone =>
    have hone := (length_valuesOf_of_ofJson? ht).2 key hkey
    rw [Json.valuesOf_eq_nil hnone, List.length_nil] at hone
    omega
  | @length items hlength =>
    unfold ofJson? at ht
    split at ht
    · next heq =>
      obtain rfl := Json.array.inj heq
      exact hlength rfl
    · next heq => exact absurd heq (by simp)
    · exact absurd ht (by simp)

end Token

/-! ## Texts -/

/--
**The wire reader is insensitive to presentation and strict about fields.** Each text that spells an
object or an array which presents a token is read as this token, on its own and in a list. In the
object the members may stand in any order and among any others. A text that spells an object in
which a key of a token occurs twice, or the kind, the lexeme or the line is missing, or an array of
another length, is not read, neither on its own nor in a list.
-/
theorem wire_reads_presented :
    (∀ (t : Token) v text, t.isFinite = true → t.line < 2 ^ 32 → t.Presents Numeral.ReadsAs v →
      v.Spelled text → Wire.readToken? text = some t) ∧
    (∀ (ts : List Token) vs text,
      List.Forall₂ (fun t v => t.isFinite = true ∧ t.line < 2 ^ 32 ∧
        Token.Presents Numeral.ReadsAs t v) ts vs →
      (Json.array vs).Spelled text → Wire.read? text = some ts) ∧
    (∀ v text, Json.IsMalformed v → v.Spelled text → Wire.readToken? text = none) ∧
    ∀ v vs text, Json.IsMalformed v → v ∈ vs → (Json.array vs).Spelled text →
      Wire.read? text = none := by
  refine ⟨?_, ?_, ?_, ?_⟩
  · intro t v text hfinite hline hv htext
    rw [Wire.readToken?, htext.read?]
    exact Token.ofJson?_of_presents hv hfinite hline
  · intro ts vs text hall htext
    rw [Wire.read?, htext.read?]
    refine Token.listOfJson?_eq_some_iff.mpr (hall.flip.imp ?_)
    intro v t h
    exact Token.ofJson?_of_presents h.2.2 h.1 h.2.1
  · intro v text hv htext
    rw [Wire.readToken?, htext.read?]
    exact Token.ofJson?_of_isMalformed hv
  · intro v vs text hv hmem htext
    rw [Wire.read?, htext.read?]
    exact Token.listOfJson?_eq_none hmem (Token.ofJson?_of_isMalformed hv)

/-- The number one half with an exponent. -/
def halfNumeral : Numeral := { coefficient := 5, exponent := some (-1) }

theorem halfNumeral_readsAs : halfNumeral.ReadsAs (.ofBits 0x3FE0000000000000) := by
  have hround : Binary64.ofDecimal false halfNumeral.absolute = .ofBits 0x3FE0000000000000 := by
    decide +kernel
  refine ⟨⟨by decide, ?_⟩, fun _ => ⟨0, Nat.zero_le _, Nat.one_dvd _, by decide⟩⟩
  rw [← hround]
  exact Binary64.isNearest_ofDecimal false halfNumeral.absolute

/-- A token whose members are presented in an unusual order. -/
def shuffledToken : Token where
  kind := .number
  lexeme := "𝄞/"
  literal := some (.number (.ofBits 0x3FE0000000000000))
  line := 7

/-- A member that is no part of a token, with a key inside of it that denotes no text. -/
def moreMember : Json.Member := (some "more", .array [.null, .object [(none, .array [])]])

/-- The token as an object with one member more. -/
def shuffledObject : Json := .object
  [(some "line", .ofNat 7), moreMember, (some "kind", Kind.toJson .number),
    (some "literal", .object [(some "Number", .number halfNumeral)]), (some "lexeme", .ofText "𝄞/")]

/-- The object with blanks and escapes. -/
def shuffledText : String :=
  " \x7b\"line\" : 7 ,\n\"more\":[null,\x7b\"\\udC00\":[ ]\x7d], \"\\u006bind\":\"NUMBER\"," ++
    "\"literal\":\x7b\"Number\":5E-1\x7d, \"lexeme\":\"\\ud834\\uDD1E\\/\"\x7d\t"

/-- A token is read whatever the order of its members, but not with its line given twice. -/
theorem wire_reads_presented_shuffled :
    Wire.readToken? shuffledText = some shuffledToken ∧
      Wire.readToken? (Json.object [(some "line", .ofNat 7), moreMember,
        (some "line", .ofNat 7)]).compact = none := by
  have hmore : ∀ m ∈ [moreMember], ∃ key ∉ Token.keys, m.1 = some key :=
    List.forall_mem_singleton.mpr ⟨"more", by decide, rfl⟩
  refine ⟨wire_reads_presented.1 shuffledToken shuffledObject shuffledText (by decide +kernel)
    (by decide) ?_ ?_, wire_reads_presented.2.2.1 _ _ ?_ (Json.spelled_compact _)⟩
  · refine .object (.present (.number halfNumeral_readsAs)) hmore ?_
    -- the kind, the lexeme and the line first, then the literal, and then the other member
    refine (@List.perm_middle _ _ [_, _] _).trans (.cons _ ?_)
    exact (@List.perm_middle _ _ [_, _, _] _).trans (.cons _ (.cons _ (.swap _ _ _)))
  · refine Json.Symbol.written_of_readAll ?_
    decide +kernel
  · have hkey : "line" ∈ Token.keys := by decide
    exact .twice hkey (.cons_cons _ (.cons _ (.refl _)))

/-- The number `2 ^ 53 + 1`, which lies halfway between two doubles, with 769 digits. -/
def longTie : Numeral := { coefficient := 9007199254740993 * Nat.pow 10 753, exponent := some (-753) }

/-- A token with the given number. -/
def Token.withNumber (x : Binary64) : Token where
  kind := .number
  lexeme := "x"
  literal := some (.number x)
  line := 1

/-- An object that presents a token with the number `2 ^ 53`, to which `longTie` is rounded. -/
def longTieObject : Json := .object
  [(some "kind", Kind.toJson .number), (some "lexeme", .ofText "x"),
    (some "literal", .object [(some "Number", .number longTie)]), (some "line", .ofNat 1)]

theorem longTie_roundsTo : longTie.RoundsTo (.ofBits 0x4340000000000000) := by
  have hround : Binary64.ofDecimal false longTie.absolute = .ofBits 0x4340000000000000 := by
    decide +kernel
  refine ⟨by decide, ?_⟩
  rw [← hround]
  exact Binary64.isNearest_ofDecimal false longTie.absolute

theorem longTieObject_presents :
    (Token.withNumber (.ofBits 0x4340000000000000)).Presents Numeral.RoundsTo longTieObject := by
  refine .object (.present (.number longTie_roundsTo)) (List.forall_mem_nil _) ?_
  exact .cons _ (.cons _ (.swap _ _ _))

/-- The 769th digit is a zero, and yet the next double is read. -/
theorem readToken?_longTieObject :
    Wire.readToken? longTieObject.compact =
      some (Token.withNumber (.ofBits 0x4340000000000001)) := by
  rw [Wire.readToken?, Json.read?_compact]
  decide +kernel

/-- It is not enough that a numeral is rounded to the number of a token. -/
theorem not_reads_rounded :
    ¬ ∀ (t : Token) v text, t.isFinite = true → t.line < 2 ^ 32 →
      t.Presents Numeral.RoundsTo v → v.Spelled text → Wire.readToken? text = some t := by
  intro h
  have hread := h _ longTieObject longTieObject.compact (by decide +kernel) (by decide)
    longTieObject_presents longTieObject.spelled_compact
  rw [readToken?_longTieObject] at hread
  exact absurd hread (by decide +kernel)

end Lox

import Lox.Proofs.Boundary
import Mathlib

/-!
# What stands inside a comment or a string

A comment and a string may hold any characters, those that mean something elsewhere too. What they
hold has no influence on anything else. A comment can be taken out of a text together with its
slashes, and the scan is the same. The body of a string can be exchanged for another one, and only
its token changes, and the lines of what comes behind it if the bodies have not as many line feeds.

Both begin at a place that steps lead to, since two slashes or a quote elsewhere may belong to a
comment or a string themselves. What is before that place is a row of segments. A quote may take the
place of a quote behind it, and so may the end of a line, before which every segment stops.
-/

namespace Lox

open Lexer

/-! ## Comments -/

/-- A comment with this body. -/
def Segment.comment (body : List Char) : Segment := .matched .comment ('/' :: '/' :: body)

theorem Segment.next_comment {body rest : List Char} (hbody : '\n' ∉ body)
    (hrest : ∀ c ∈ rest.head?, c = '\n') :
    (comment body).Next ((comment body).text ++ rest) := by
  have hvalid : (comment body).Valid := Rule.mem_comment.mpr ⟨body, hbody, rfl⟩
  exact next_append_iff.mpr ⟨hvalid, hrest⟩

theorem Segment.count_comment {body : List Char} (hbody : '\n' ∉ body) :
    (comment body).text.count '\n' = 0 := by
  simpa [comment, text, List.count_eq_zero] using hbody

/-- A comment is no token and no fault, and it does not go on to the next line. -/
theorem Segment.tokens_comment {body : List Char} (hbody : '\n' ∉ body) (line : Nat)
    (gs : List Segment) : tokens line (comment body :: gs) = tokens line gs := by
  rw [tokens_cons, count_comment hbody]
  rfl

theorem Segment.errors_comment {body : List Char} (hbody : '\n' ∉ body) (line : Nat)
    (gs : List Segment) : errors line (comment body :: gs) = errors line gs := by
  rw [errors_cons, count_comment hbody]
  rfl

/--
**Comments can be erased.** Where a step may begin, two slashes and all that follows them on their
line can be left out, and the scan is the same, also when it fails.
-/
theorem scan_erase_comment {u b v : String} {n : Nat} (hb : '\n' ∉ b.toList)
    (hv : ∀ c ∈ v.toList.head?, c = '\n') (hn : (start (u ++ "//" ++ b ++ v)).Unbroken n)
    (hp : ((start (u ++ "//" ++ b ++ v)).afterSteps n).position = u.utf8ByteSize) :
    scan (u ++ "//" ++ b ++ v) = scan (u ++ v) := by
  have hsource : (u ++ "//" ++ b ++ v).toList =
      u.toList ++ ((Segment.comment b.toList).text ++ v.toList) := by
    simp [Segment.comment, Segment.text]
  obtain ⟨gs, hgs, hu, _, _⟩ := exists_leading hsource hn hp
  obtain ⟨hs, left, hrest⟩ := exists_cutting v.toList
  have hwith : Cutting (u ++ "//" ++ b ++ v).toList (gs ++ .comment b.toList :: hs) left := by
    rw [hsource, ← hu]
    exact hgs.cutting (.segment (Segment.next_comment hb hv) hrest)
  have hwithout : Cutting (u ++ v).toList (gs ++ hs) left := by
    rw [String.toList_append, ← hu]
    exact (hgs.of_endOfLine hv).cutting hrest
  have hlines : (u ++ "//" ++ b ++ v).toList.count '\n' = (u ++ v).toList.count '\n' := by
    simp [List.count_append, List.count_eq_zero.mpr hb]
  rw [scan_eq_of_cutting hwith, scan_eq_of_cutting hwithout, Segment.tokens_append,
    Segment.tokens_append, Segment.errors_append, Segment.errors_append,
    Segment.tokens_comment hb, Segment.errors_comment hb, hlines]

/-- A stray stands before the comment, and a quote and a stray are inside. -/
theorem scan_erase_comment_behind_stray :
    '\n' ∉ "\"#/\x00".toList ∧ (∀ c ∈ "\n\"".toList.head?, c = '\n') ∧
    (start ("a\té" ++ "//" ++ "\"#/\x00" ++ "\n\"")).Unbroken 3 ∧
    ((start ("a\té" ++ "//" ++ "\"#/\x00" ++ "\n\"")).afterSteps 3).position =
      "a\té".utf8ByteSize ∧
    scan ("a\té" ++ "//" ++ "\"#/\x00" ++ "\n\"") = scan ("a\té" ++ "\n\"") := by
  have hb : '\n' ∉ "\"#/\x00".toList := by decide
  have hv : ∀ c ∈ "\n\"".toList.head?, c = '\n' := by simp
  have hn : (start ("a\té" ++ "//" ++ "\"#/\x00" ++ "\n\"")).Unbroken 3 :=
    unbroken_iff.mpr (by cbv)
  have hp : ((start ("a\té" ++ "//" ++ "\"#/\x00" ++ "\n\"")).afterSteps 3).position =
      "a\té".utf8ByteSize := by cbv
  exact ⟨hb, hv, hn, hp, scan_erase_comment hb hv hn hp⟩

/-! ## Strings -/

/-- A string with this body. -/
def Segment.quoted (body : List Char) : Segment := .matched .string ('"' :: (body ++ ['"']))

/-- The token of a string with this body. -/
def Token.quoted (line : Nat) (body : String) : Token where
  kind := .string
  lexeme := "\"" ++ body ++ "\""
  literal := some (.string body)
  line := line

theorem Segment.next_quoted {body : List Char} (hbody : '"' ∉ body) (rest : List Char) :
    (quoted body).Next ((quoted body).text ++ rest) := by
  have hvalid : (quoted body).Valid := Rule.mem_string.mpr ⟨body, hbody, rfl⟩
  exact next_append_iff.mpr ⟨hvalid, trivial⟩

theorem Segment.token?_quoted (line : Nat) (body : String) :
    (quoted body.toList).token? line = some (.quoted line body) := by
  have hlexeme : String.ofList ('"' :: (body.toList ++ ['"'])) = "\"" ++ body ++ "\"" :=
    String.toList_inj.mp (by simp)
  have hvalue : (('"' :: (body.toList ++ ['"'])).drop 1).dropLast = body.toList := by
    rw [List.drop_one, List.tail_cons, List.dropLast_concat]
  show some (Token.mk .string (String.ofList ('"' :: (body.toList ++ ['"'])))
    (some (.string (String.ofList (('"' :: (body.toList ++ ['"'])).drop 1).dropLast))) line) = _
  rw [hlexeme, hvalue, String.ofList_toList]
  rfl

theorem Segment.tokens_quoted (line : Nat) (gs : List Segment) (body : String) :
    tokens line (gs ++ [quoted body.toList]) =
      tokens line gs ++ [.quoted (line + (gs.flatMap text).count '\n') body] := by
  rw [tokens_append, tokens_cons, token?_quoted]
  rfl

theorem Segment.errors_quoted (line : Nat) (gs : List Segment) (body : List Char) :
    errors line (gs ++ [quoted body]) = errors line gs := by
  rw [errors_append]
  exact List.append_nil _

theorem Segment.flatMap_text_quoted (gs : List Segment) (body : List Char) :
    (gs ++ [quoted body]).flatMap text = gs.flatMap text ++ '"' :: (body ++ ['"']) := by
  simp [quoted, text]

/--
**The body of a string can be exchanged.** Where a step may begin, a quoted text is a string
whatever its body is. With another body the same tokens and faults come before it, its token holds
the other body as it stands, and all that comes behind is moved by the difference in line feeds.
-/
theorem scan_exchange_body {u b b' v : String} {n : Nat} (hb : '"' ∉ b.toList)
    (hb' : '"' ∉ b'.toList) (hn : (start (u ++ "\"" ++ b ++ "\"" ++ v)).Unbroken n)
    (hp : ((start (u ++ "\"" ++ b ++ "\"" ++ v)).afterSteps n).position = u.utf8ByteSize) :
    MovedBehind (b'.toList.count '\n' - b.toList.count '\n')
      ((start (u ++ "\"" ++ b ++ "\"" ++ v)).stepTokens n)
      ((start (u ++ "\"" ++ b ++ "\"" ++ v)).afterSteps n).errors.toList
      [.quoted (1 + u.toList.count '\n') b] [.quoted (1 + u.toList.count '\n') b']
      (scan (u ++ "\"" ++ b ++ "\"" ++ v)) (scan (u ++ "\"" ++ b' ++ "\"" ++ v)) := by
  have hsource : ∀ c : String, (u ++ "\"" ++ c ++ "\"" ++ v).toList =
      u.toList ++ ((Segment.quoted c.toList).text ++ v.toList) := by
    intro c
    simp [Segment.quoted, Segment.text]
  obtain ⟨gs, hgs, hu, htokens, herrors⟩ := exists_leading (hsource b) hn hp
  obtain ⟨hs, left, hrest⟩ := exists_cutting v.toList
  -- a quote comes behind the segments in both texts
  have hcut : ∀ c : String, '"' ∉ c.toList →
      Cutting (u ++ "\"" ++ c ++ "\"" ++ v).toList (gs ++ [Segment.quoted c.toList] ++ hs)
        left := by
    intro c hc
    rw [hsource, ← hu, List.append_assoc]
    exact (hgs.of_cons (by decide)).cutting (.segment (Segment.next_quoted hc v.toList) hrest)
  have hlines : ∀ c : String, ((gs ++ [Segment.quoted c.toList]).flatMap Segment.text).count '\n' =
      u.toList.count '\n' + c.toList.count '\n' := by
    intro c
    rw [Segment.flatMap_text_quoted, hu, List.count_append, List.count_cons_of_ne (by decide),
      List.count_append]
    rfl
  refine (hcut b hb).movedBehind (hcut b' hb') ?_ ?_ ?_ ?_ ?_
  · rw [Segment.tokens_quoted, hu, htokens]
  · rw [Segment.tokens_quoted, hu, htokens]
  · rw [Segment.errors_quoted, herrors]
  · rw [Segment.errors_quoted, herrors]
  · rw [hlines, hlines]
    omega

/-- One line feed is taken out of a string that stands between two parts of an operator. -/
theorem scan_exchange_body_in_operator :
    '"' ∉ "//\n".toList ∧ '"' ∉ "\\é\x00".toList ∧
    (start ("x\n<" ++ "\"" ++ "//\n" ++ "\"" ++ "= #\n)")).Unbroken 3 ∧
    ((start ("x\n<" ++ "\"" ++ "//\n" ++ "\"" ++ "= #\n)")).afterSteps 3).position =
      "x\n<".utf8ByteSize ∧
    MovedBehind (0 - 1)
      [⟨.identifier, "x", none, 1⟩, ⟨.less, "<", none, 2⟩] []
      [.quoted 2 "//\n"] [.quoted 2 "\\é\x00"]
      (scan ("x\n<" ++ "\"" ++ "//\n" ++ "\"" ++ "= #\n)"))
      (scan ("x\n<" ++ "\"" ++ "\\é\x00" ++ "\"" ++ "= #\n)")) := by
  have hb : '"' ∉ "//\n".toList := by decide
  have hb' : '"' ∉ "\\é\x00".toList := by decide
  have hn : (start ("x\n<" ++ "\"" ++ "//\n" ++ "\"" ++ "= #\n)")).Unbroken 3 :=
    unbroken_iff.mpr (by cbv)
  have hp : ((start ("x\n<" ++ "\"" ++ "//\n" ++ "\"" ++ "= #\n)")).afterSteps 3).position =
      "x\n<".utf8ByteSize := by cbv
  have hmoved := scan_exchange_body hb hb' hn hp
  have htokens : (start ("x\n<" ++ "\"" ++ "//\n" ++ "\"" ++ "= #\n)")).stepTokens 3 =
      [⟨.identifier, "x", none, 1⟩, ⟨.less, "<", none, 2⟩] := by cbv
  have herrors : ((start ("x\n<" ++ "\"" ++ "//\n" ++ "\"" ++ "= #\n)")).afterSteps
      3).errors.toList = [] := by cbv
  rw [htokens, herrors] at hmoved
  exact ⟨hb, hb', hn, hp, hmoved⟩

end Lox

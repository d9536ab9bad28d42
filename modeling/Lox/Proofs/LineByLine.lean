import Lox.Proofs.Context
import Lox.Proofs.Segmentation

/-!
# Scanning line by line

A text may be cut at any line feed, as a prompt does, and its parts be scanned one after the other,
as long as no string goes on beyond the cut. What the parts yield is what the whole text yields,
only that the lines of a part have to be counted on from those of the parts before it.

The cutting of the whole text is that of the first part, the line feed, and that of the second. No
segment of the first part is changed by what comes behind it: a line feed continues none, and the
one character after a segment that is not the end is the same as before. Where a segment stands is
of no matter to its token but for the line, so that a whole cutting can be moved down.
-/

namespace Lox

/-- The token, so many lines further down. -/
def Token.below (k : Nat) (t : Token) : Token := { t with line := t.line + k }

/-- The fault, so many lines further down. -/
def ScanError.below (k : Nat) : ScanError → ScanError
  | unexpectedCharacter line => unexpectedCharacter (line + k)
  | unterminatedString line => unterminatedString (line + k)

/-! ## Segments further down -/

namespace Segment

theorem token?_add (line k : Nat) (g : Segment) :
    g.token? (line + k) = (g.token? line).map (Token.below k) := by
  rw [token?, token?, Option.map_map]
  rfl

theorem error?_add (line k : Nat) (g : Segment) :
    g.error? (line + k) = (g.error? line).map (ScanError.below k) := by
  cases g with
  | matched r s => rfl
  | stray a => rfl

theorem numbered_add (line k : Nat) (gs : List Segment) :
    numbered (line + k) gs = (numbered line gs).map fun p => (p.1 + k, p.2) := by
  induction gs generalizing line with
  | nil => rfl
  | cons g gs ih => rw [numbered, Nat.add_right_comm, ih, numbered, List.map_cons]

theorem numbered_append (line : Nat) (gs hs : List Segment) :
    numbered line (gs ++ hs) =
      numbered line gs ++ numbered (line + (gs.flatMap text).count '\n') hs := by
  induction gs generalizing line with
  | nil => rfl
  | cons g gs ih =>
    rw [List.cons_append, numbered, ih, numbered, List.cons_append, List.flatMap_cons,
      List.count_append, Nat.add_assoc]

theorem tokens_add (line k : Nat) (gs : List Segment) :
    tokens (line + k) gs = (tokens line gs).map (Token.below k) := by
  rw [tokens, numbered_add, List.filterMap_map, tokens, List.map_filterMap]
  exact congrArg (List.filterMap · _) (funext fun p => p.2.token?_add p.1 k)

theorem errors_add (line k : Nat) (gs : List Segment) :
    errors (line + k) gs = (errors line gs).map (ScanError.below k) := by
  rw [errors, numbered_add, List.filterMap_map, errors, List.map_filterMap]
  exact congrArg (List.filterMap · _) (funext fun p => p.2.error?_add p.1 k)

theorem tokens_append (line : Nat) (gs hs : List Segment) :
    tokens line (gs ++ hs) = tokens line gs ++ tokens (line + (gs.flatMap text).count '\n') hs := by
  rw [tokens, numbered_append, List.filterMap_append]
  rfl

theorem errors_append (line : Nat) (gs hs : List Segment) :
    errors line (gs ++ hs) = errors line gs ++ errors (line + (gs.flatMap text).count '\n') hs := by
  rw [errors, numbered_append, List.filterMap_append]
  rfl

/-! ## Cuttings one behind the other -/

/-- A line feed behind the text, or nothing, changes no segment of it. -/
theorem Next.append_of_endOfLine {g : Segment} {rest b : List Char} (h : g.Next (g.text ++ rest))
    (hb : ∀ c ∈ b.head?, c = '\n') : g.Next (g.text ++ (rest ++ b)) := by
  cases rest with
  | nil => exact h.of_endOfLine hb
  | cons a t =>
    refine h.of_cons fun _ d hd hdigit => ?_
    cases t with
    | nil =>
      obtain rfl := hb d hd
      exact absurd hdigit (by decide)
    | cons e t => exact hd

end Segment

/-- A text that is cut to its end, with the end of a line behind it. -/
theorem Cutting.append_of_endOfLine {a b left left' : List Char} {gs hs : List Segment}
    (h : Cutting a gs left) (hleft : left = []) (hb : ∀ c ∈ b.head?, c = '\n')
    (h' : Cutting b hs left') : Cutting (a ++ b) (gs ++ hs) left' := by
  induction h with
  | finished => exact h'
  | openString _ => exact absurd hleft (by simp)
  | segment hg _ ih =>
    rw [List.append_assoc]
    exact .segment (hg.append_of_endOfLine hb) (ih hleft)

/-- A line feed as a segment. -/
def Segment.lineFeed : Segment := .matched .blank ['\n']

theorem Segment.next_lineFeed (text : List Char) : lineFeed.Next ('\n' :: text) := by
  have hvalid : lineFeed.Valid := Rule.mem_blank.mpr ⟨'\n', by decide, rfl⟩
  exact next_append_iff.mpr ⟨hvalid, trivial⟩

/-- The cutting of two parts and a line feed between them. -/
theorem Cutting.append_lineFeed {a b left : List Char} {gs hs : List Segment}
    (h : Cutting a gs []) (h' : Cutting b hs left) :
    Cutting (a ++ '\n' :: b) (gs ++ .lineFeed :: hs) left :=
  h.append_of_endOfLine rfl (by simp) (.segment (g := .lineFeed) (Segment.next_lineFeed b) h')

namespace Segment

theorem tokens_append_lineFeed (gs hs : List Segment) :
    tokens 1 (gs ++ lineFeed :: hs) =
      tokens 1 gs ++ (tokens 1 hs).map (Token.below (1 + (gs.flatMap text).count '\n')) := by
  rw [tokens_append, tokens_cons, ← tokens_add]
  exact congrArg (tokens 1 gs ++ tokens · hs) (Nat.add_comm _ 1)

theorem errors_append_lineFeed (gs hs : List Segment) :
    errors 1 (gs ++ lineFeed :: hs) =
      errors 1 gs ++ (errors 1 hs).map (ScanError.below (1 + (gs.flatMap text).count '\n')) := by
  rw [errors_append, errors_cons, ← errors_add]
  exact congrArg (errors 1 gs ++ errors · hs) (Nat.add_comm _ 1)

end Segment

/--
**Scanning line by line.** Two texts with a line feed between them yield what they yield one after
the other, the second below the lines of the first. The token for the end of the first is on its
last line, and goes. When the second text fails, so does the whole, below the first as well.
-/
theorem scan_lineByLine (a b : String) (s : Scanned) (h : scan a = .ok s) :
    ∃ ts, s.tokens = ts ++ [.endOfText (1 + a.toList.count '\n')] ∧
      (∀ s', scan b = .ok s' → scan (a ++ "\n" ++ b) = .ok
        { tokens := ts ++ s'.tokens.map (Token.below (1 + a.toList.count '\n'))
          errors := s.errors ++ s'.errors.map (ScanError.below (1 + a.toList.count '\n')) }) ∧
      ∀ e, scan b = .error e →
        scan (a ++ "\n" ++ b) = .error (e.below (1 + a.toList.count '\n')) := by
  obtain ⟨gs, ha, htokens, herrors⟩ := exists_cutting_of_scan h
  obtain ⟨hs, left, hb⟩ := exists_cutting b.toList
  have htext : (a ++ "\n" ++ b).toList = a.toList ++ '\n' :: b.toList := by simp
  have hlast : 1 + (a ++ "\n" ++ b).toList.count '\n' =
      (1 + b.toList.count '\n') + (1 + a.toList.count '\n') := by
    rw [htext, List.count_append, List.count_cons_self]
    omega
  have hcut := ha.append_lineFeed hb
  rw [← htext] at hcut
  have hlines : gs.flatMap Segment.text = a.toList := by
    rw [← List.append_nil (gs.flatMap _), ha.flatMap_append]
  refine ⟨Segment.tokens 1 gs, htokens, ?_⟩
  by_cases hleft : left = []
  · subst hleft
    rw [scan_of_cutting hb, scan_of_cutting hcut, Segment.tokens_append_lineFeed,
      Segment.errors_append_lineFeed, hlines, hlast, herrors]
    refine ⟨fun s' hs' => ?_, by simp⟩
    obtain rfl := Except.ok.inj hs'
    rw [List.map_append, List.append_assoc]
    rfl
  · rw [scan_of_cutting_openString hb hleft, scan_of_cutting_openString hcut hleft, hlast]
    refine ⟨by simp, fun e he => ?_⟩
    obtain rfl := Except.error.inj he
    rfl

/-- Two slashes are no comment when a line feed stands between them. -/
theorem scan_slashes :
    scan "/" = .ok { tokens := [⟨.slash, "/", none, 1⟩, .endOfText 1], errors := [] } ∧
    scan ("/" ++ "\n" ++ "/") = .ok
      { tokens := [⟨.slash, "/", none, 1⟩, ⟨.slash, "/", none, 2⟩, .endOfText 2]
        errors := [] } := by
  have hslash : (['/'], Kind.slash) ∈ operators := by decide
  have hnext : (Segment.matched (.operator .slash) ['/']).Next (['/'] ++ []) :=
    (Rule.longestMatch_iff_stops hslash).mpr (Rule.stops_of_endOfLine _ _ (by simp))
  have hcut : Cutting "/".toList [.matched (.operator .slash) ['/']] [] := by
    show Cutting ((Segment.matched (.operator .slash) ['/']).text ++ []) _ []
    exact .segment hnext .finished
  have hscan : scan "/" = .ok { tokens := [⟨.slash, "/", none, 1⟩, .endOfText 1], errors := [] } :=
    scan_of_cutting hcut
  obtain ⟨ts, htokens, hok, _⟩ := scan_lineByLine "/" "/" _ hscan
  obtain rfl : [⟨.slash, "/", none, 1⟩] = ts := List.append_cancel_right htokens
  exact ⟨hscan, hok _ hscan⟩

end Lox

import Lox.Proofs.Interior

/-!
# Blanks between steps

Wherever a step ends, blanks may be inserted, and the scan is the same up to the lines of what comes
behind them. Between two segments a blank becomes a segment of its own, and whatever it separates
had been separate before. There are two places that are no such gaps. Behind a comment a blank other
than a line feed continues the comment; but a comment yields nothing, however long it is. Behind a
string that is never closed it is read as a part of that string, and is only counted.

Blanks are inserted one by one, so that those that continue a comment need not be told from those
behind its line.
-/

namespace Lox

open Lexer

/-- The row `gs'` reads `w` behind what `gs` reads, and yields and records nothing for it. -/
structure Segment.Prolongs (w rest : List Char) (gs gs' : List Segment) : Prop where
  leading : Leading gs' rest
  text_eq : gs'.flatMap Segment.text = gs.flatMap Segment.text ++ w
  tokens_eq : Segment.tokens 1 gs' = Segment.tokens 1 gs
  errors_eq : Segment.errors 1 gs' = Segment.errors 1 gs

/-- Any character but a line feed goes on with a comment. -/
theorem Leading.exists_prolongs_comment {gs : List Segment} {s rest : List Char} {c : Char}
    (h : Leading (gs ++ [.matched .comment s]) rest) (hc : c ≠ '\n') :
    ∃ gs', Segment.Prolongs [c] rest (gs ++ [.matched .comment s]) gs' := by
  obtain ⟨hfirst, hcomment⟩ := h.of_append
  cases hcomment with
  | cons hnext _ =>
    obtain ⟨hvalid, hstops⟩ := Segment.next_append_iff.mp hnext
    obtain ⟨body, hbody, rfl⟩ := Rule.mem_comment.mp hvalid
    have hbody' : '\n' ∉ body ++ [c] := by simp [hbody, Ne.symm hc]
    refine ⟨gs ++ [.comment (body ++ [c])], ?_, ?_, ?_, ?_⟩
    · exact (hfirst.of_cons (by decide)).append (.cons (Segment.next_comment hbody' hstops) .nil)
    · simp [Segment.comment, Segment.text]
    · rw [Segment.tokens_append, Segment.tokens_append, Segment.tokens_comment hbody']
      exact congrArg _ (Segment.tokens_comment hbody _ []).symm
    · rw [Segment.errors_append, Segment.errors_append, Segment.errors_comment hbody']
      exact congrArg _ (Segment.errors_comment hbody _ []).symm

/-- Where no comment goes on, a blank is a segment of its own. -/
theorem Leading.prolongs_blank {gs : List Segment} {rest : List Char} {c : Char}
    (h : Leading gs rest) (hc : c ∈ [' ', '\t', '\r', '\n'])
    (hlast : ∀ s, .matched .comment s ∈ gs.getLast? → c = '\n') :
    Segment.Prolongs [c] rest gs (gs ++ [.matched .blank [c]]) := by
  have hblank : Leading [.matched .blank [c]] rest := by
    have hvalid : (Segment.matched .blank [c]).Valid := Rule.mem_blank.mpr ⟨c, hc, rfl⟩
    exact .cons (Segment.next_append_iff.mpr ⟨hvalid, trivial⟩) .nil
  have hgs : Leading gs (c :: rest) := by
    refine h.of_stops (fun g hg _ => ?_) fun d hd hdigit => ?_
    · cases g with
      | matched r s => exact Rule.stops_of_blank s rest hc fun hr => hlast s (hr ▸ hg)
      | stray a => trivial
    · have hnone : ∀ a ∈ [' ', '\t', '\r', '\n'], a.isDigit = false := by simp
      rw [← Option.some.inj hd, hnone c hc] at hdigit
      exact absurd hdigit (by simp)
  refine ⟨hgs.append hblank, ?_, ?_, ?_⟩
  · simp [Segment.text]
  · rw [Segment.tokens_append]
    exact List.append_nil _
  · rw [Segment.errors_append]
    exact List.append_nil _

theorem Leading.exists_prolongs_one {gs : List Segment} {rest : List Char} {c : Char}
    (h : Leading gs rest) (hc : c ∈ [' ', '\t', '\r', '\n']) :
    ∃ gs', Segment.Prolongs [c] rest gs gs' := by
  by_cases hlast : ∀ s, .matched .comment s ∈ gs.getLast? → c = '\n'
  · exact ⟨_, h.prolongs_blank hc hlast⟩
  · push Not at hlast
    obtain ⟨s, hs, hne⟩ := hlast
    obtain ⟨gs, rfl⟩ := List.getLast?_eq_some_iff.mp hs
    exact h.exists_prolongs_comment hne

theorem Leading.exists_prolongs {gs : List Segment} {rest w : List Char} (h : Leading gs rest)
    (hw : ∀ c ∈ w, c ∈ [' ', '\t', '\r', '\n']) : ∃ gs', Segment.Prolongs w rest gs gs' := by
  induction w generalizing gs with
  | nil => exact ⟨gs, h, (List.append_nil _).symm, rfl, rfl⟩
  | cons c w ih =>
    obtain ⟨hc, hw⟩ := List.forall_mem_cons.mp hw
    obtain ⟨gs₁, h₁⟩ := h.exists_prolongs_one hc
    obtain ⟨gs₂, h₂⟩ := ih h₁.leading hw
    refine ⟨gs₂, h₂.leading, ?_, h₂.tokens_eq.trans h₁.tokens_eq, h₂.errors_eq.trans h₁.errors_eq⟩
    rw [h₂.text_eq, h₁.text_eq, List.append_assoc, List.singleton_append]

theorem ScanError.moved_below_self (e : ScanError) (k : Nat) : ScanError.Moved k e (e.below k) := by
  cases e with
  | unexpectedCharacter line => exact .unexpectedCharacter (Int.natCast_add line k)
  | unterminatedString line => exact .unterminatedString (Int.natCast_add line k)

/-- What does not close an open string goes on with it. -/
theorem Cutting.append_openString {text left w : List Char} {gs : List Segment}
    (h : Cutting text gs left) (hne : left ≠ []) (hw : '"' ∉ w) :
    Cutting (text ++ w) gs (left ++ w) := by
  obtain ⟨q, rfl, hq⟩ := h.left_eq hne
  have hopen : NoMatch ('"' :: (q ++ w)) := noMatch_quote_iff.mpr (by simp [hq, hw])
  have hleading : Leading gs ('"' :: (q ++ w)) := h.leading.of_cons (by decide)
  have hcut := hleading.cutting (.openString hopen)
  rw [List.append_nil] at hcut
  rwa [← h.flatMap_append, List.append_assoc, List.cons_append]

theorem scan_append_of_error {source w : String} {e : ScanError}
    (hw : ∀ c ∈ w.toList, c ∈ [' ', '\t', '\r', '\n']) (h : scan source = .error e) :
    scan (source ++ w) = .error (e.below (w.toList.count '\n')) := by
  have hquote : '"' ∉ w.toList := fun hq => absurd (hw _ hq) (by decide)
  obtain ⟨gs, left, hcut⟩ := exists_cutting source.toList
  by_cases hleft : left = []
  · rw [scan_of_cutting (hleft ▸ hcut)] at h
    exact absurd h (by simp)
  · rw [scan_of_cutting_openString hcut hleft] at h
    obtain rfl := Except.error.inj h
    have hwith : Cutting (source ++ w).toList gs (left ++ w.toList) := by
      rw [String.toList_append]
      exact hcut.append_openString hleft hquote
    rw [scan_of_cutting_openString hwith (by simp [hleft]), String.toList_append,
      List.count_append, ← Nat.add_assoc]
    rfl

/--
**Blanks may be inserted where a step ends.** The tokens and faults of the steps up to there stay as
they are, and all that comes behind is moved by the line feeds among the blanks. This is so behind a
string that is never closed too.
-/
theorem scan_insert_blanks {u v w : String} {n : Nat}
    (hp : ((start (u ++ v)).afterSteps n).position = u.utf8ByteSize)
    (hw : ∀ c ∈ w.toList, c ∈ [' ', '\t', '\r', '\n']) :
    MovedBehind (w.toList.count '\n') ((start (u ++ v)).stepTokens n)
      ((start (u ++ v)).afterSteps n).errors.toList [] []
      (scan (u ++ v)) (scan (u ++ w ++ v)) := by
  have hsource : (u ++ v).toList = u.toList ++ v.toList := String.toList_append
  by_cases hn : (start (u ++ v)).Unbroken n
  · obtain ⟨gs, hgs, hu, htokens, herrors⟩ := exists_leading hsource hn hp
    obtain ⟨hs, left, hrest⟩ := exists_cutting v.toList
    obtain ⟨gs', hgs', htext, htokens', herrors'⟩ := hgs.exists_prolongs hw
    have hcut : Cutting (u ++ v).toList (gs ++ hs) left := by
      rw [hsource, ← hu]
      exact hgs.cutting hrest
    have hcut' : Cutting (u ++ w ++ v).toList (gs' ++ hs) left := by
      rw [String.toList_append, String.toList_append, ← hu, ← htext]
      exact hgs'.cutting hrest
    refine hcut.movedBehind hcut' ?_ ?_ ?_ ?_ ?_
    · rw [htokens, List.append_nil]
    · rw [htokens', htokens, List.append_nil]
    · rw [herrors]
    · rw [herrors', herrors]
    · rw [htext, hu, List.count_append]
      omega
  · -- a step has met a string that is never closed, so nothing is left
    obtain ⟨e, hfinish, hrest⟩ := exists_fault_of_not_unbroken hn
    have hscan : scan (u ++ v) = .error e := hfinish
    have hv : v = "" :=
      String.toList_inj.mp ((Cursor.split_of_position hsource hp).2.symm.trans hrest)
    have hwith : scan (u ++ w ++ v) = .error (e.below (w.toList.count '\n')) := by
      rw [← scan_append_of_error hw hscan, hv, String.append_empty, String.append_empty]
    rw [hscan, hwith]
    refine ⟨by simp, fun e' he' => ⟨_, rfl, ?_⟩⟩
    rw [← Except.error.inj he']
    exact e.moved_below_self _

/-- The first blank goes on with the comment, the others are segments of their own. -/
theorem scan_insert_blanks_behind_comment :
    ((start ("\"\n\"#// é" ++ "\n@")).afterSteps 3).position = "\"\n\"#// é".utf8ByteSize ∧
    (∀ c ∈ "\t\n ".toList, c ∈ [' ', '\t', '\r', '\n']) ∧
    MovedBehind 1 [.quoted 1 "\n"] [.unexpectedCharacter 2] [] []
      (scan ("\"\n\"#// é" ++ "\n@")) (scan ("\"\n\"#// é" ++ "\t\n " ++ "\n@")) := by
  have hp : ((start ("\"\n\"#// é" ++ "\n@")).afterSteps 3).position =
      "\"\n\"#// é".utf8ByteSize := by cbv
  have hw : ∀ c ∈ "\t\n ".toList, c ∈ [' ', '\t', '\r', '\n'] := by simp
  have hmoved := scan_insert_blanks hp hw
  have htokens : (start ("\"\n\"#// é" ++ "\n@")).stepTokens 3 = [.quoted 1 "\n"] := by cbv
  have herrors : ((start ("\"\n\"#// é" ++ "\n@")).afterSteps 3).errors.toList =
      [.unexpectedCharacter 2] := by cbv
  rw [htokens, herrors] at hmoved
  exact ⟨hp, hw, hmoved⟩

end Lox

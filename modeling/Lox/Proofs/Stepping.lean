import Lox.Proofs.Lines

/-!
# Steps and the rest of the pass

A lexer can be stepped by hand for a while and then be told to finish. Both drivers read the same
pieces, so it makes no difference where one takes over from the other: the tokens of the steps
and then those of the rest are the tokens of an uninterrupted pass. What is recorded is kept in the
lexer and is carried across; tokens are not, and are put in front again by `Scanned.behind`.

A step that meets a string that is never closed is the one that matters. It answers with the fault,
records nothing, and leaves the lexer at the end, where every step is idle. A lexer that is told to
finish only then knows nothing of the fault and succeeds.
-/

namespace Lox

/-- The same faults, and the tokens behind others that were read before. -/
def Scanned.behind (ts : List Token) (s : Scanned) : Scanned := { s with tokens := ts ++ s.tokens }

namespace Lexer

variable {source : String}

/-- The tokens that the next `n` steps answer with. -/
def stepTokens (l : Lexer source) (n : Nat) : List Token :=
  (l.steps n).filterMap fun r => r.1.toOption.join

/-- None of the next `n` steps meets a string that is never closed. -/
def Unbroken (l : Lexer source) (n : Nat) : Prop := ∀ r ∈ l.steps n, ∀ e, r.1 ≠ .error e

/-! ## The end -/

theorem step_of_rest_nil {l : Lexer source} (h : l.cursor.rest = []) : l.step = (.ok none, l) := by
  rw [step, Cursor.piece?_eq_none_iff.mpr h]

theorem finish_of_rest_nil {l : Lexer source} (h : l.cursor.rest = []) :
    l.finish = .ok { tokens := [.endOfText l.line], errors := l.errors.toList } :=
  finishAfter_of_rest_nil h #[]

/-! ## One step, and then the rest -/

/-- Tokens that are there already only stand in front of those that are read. -/
theorem finishAfter_append (before done : Array Token) (l : Lexer source) :
    l.finishAfter (before ++ done) = (l.finishAfter done).map (Scanned.behind before.toList) := by
  fun_induction finishAfter done l with
  | case1 done l hp =>
    rw [finishAfter_of_rest_nil (Cursor.piece?_eq_none_iff.mp hp)]
    simp [Except.map, Scanned.behind]
  | case2 done l o c hp e he =>
    rw [finishAfter_of_piece? hp, he]
    rfl
  | case3 done l o c hp t ht ih =>
    rw [finishAfter_of_piece? hp, ht, ← ih, Array.append_push]
  | case4 done l o c hp hn ih =>
    rw [finishAfter_of_piece? hp, hn]
    exact ih

theorem finish_of_step_ok {l : Lexer source} {t : Option Token} (h : l.step.1 = .ok t) :
    l.finish = l.step.2.finish.map (Scanned.behind t.toList) := by
  rw [step] at h ⊢
  cases hp : l.cursor.piece? with
  | none =>
    rw [hp] at h
    obtain rfl := Except.ok.inj h
    have hfinish := finish_of_rest_nil (Cursor.piece?_eq_none_iff.mp hp)
    show l.finish = l.finish.map _
    rw [hfinish]
    rfl
  | some r =>
    obtain ⟨o, c⟩ := r
    rw [hp] at h
    have ho : o.result = .ok t := h
    show l.finish = (l.after o c).finish.map _
    rw [finish, finish, finishAfter_of_piece? hp, ho, ← finishAfter_append]
    cases t with
    | none => rfl
    | some t => rfl

theorem finish_of_step_error {l : Lexer source} {e : ScanError} (h : l.step.1 = .error e) :
    l.finish = .error e := by
  rw [step] at h
  cases hp : l.cursor.piece? with
  | none =>
    rw [hp] at h
    exact absurd h (by simp)
  | some r =>
    obtain ⟨o, c⟩ := r
    rw [hp] at h
    have ho : o.result = .error e := h
    rw [finish, finishAfter_of_piece? hp, ho]

/-! ## Any number of steps, and then the rest -/

theorem Unbroken.head {l : Lexer source} {n : Nat} (h : l.Unbroken (n + 1)) :
    ∃ t, l.step.1 = .ok t := by
  cases ha : l.step.1 with
  | ok t => exact ⟨t, rfl⟩
  | error e => exact absurd ha (h l.step List.mem_cons_self e)

theorem Unbroken.tail {l : Lexer source} {n : Nat} (h : l.Unbroken (n + 1)) :
    l.step.2.Unbroken n :=
  fun r hr => h r (List.mem_cons_of_mem _ hr)

theorem stepTokens_succ {l : Lexer source} {t : Option Token} (h : l.step.1 = .ok t) (n : Nat) :
    l.stepTokens (n + 1) = t.toList ++ l.step.2.stepTokens n := by
  rw [stepTokens, steps, List.filterMap_cons, h]
  cases t with
  | none => rfl
  | some t => rfl

/-- **Where the rest of the pass takes over makes no difference.** -/
theorem finish_of_unbroken {l : Lexer source} {n : Nat} (h : l.Unbroken n) :
    l.finish = (l.afterSteps n).finish.map (Scanned.behind (l.stepTokens n)) := by
  induction n generalizing l with
  | zero =>
    show l.finish = l.finish.map (Scanned.behind [])
    cases l.finish with
    | ok s => rfl
    | error e => rfl
  | succ n ih =>
    obtain ⟨t, ht⟩ := h.head
    rw [finish_of_step_ok ht, ih h.tail, stepTokens_succ ht, afterSteps]
    cases (l.step.2.afterSteps n).finish with
    | ok s => simp [Except.map, Scanned.behind]
    | error e => rfl

/-! ## A step that is answered with a fault -/

/-- Such a step leaves the lexer at the end, and it does not record the fault. -/
theorem step_error_cases {l : Lexer source} {e : ScanError} (h : l.step.1 = .error e) :
    l.step.2.cursor.rest = [] ∧ l.step.2.errors = l.errors := by
  have hstep := l.isStep_step
  generalize l.step = r at h hstep
  cases hstep with
  | atEnd _ => exact absurd h (by simp)
  | segment _ _ _ => exact absurd h (by simp)
  | openString _ hr => exact ⟨hr.rest_eq_nil, rfl⟩

/-- The pass fails with the fault that any of the steps is answered with. -/
theorem finish_of_afterSteps_error {l : Lexer source} {i : Nat} {e : ScanError}
    (h : (l.afterSteps i).step.1 = .error e) : l.finish = .error e := by
  induction i generalizing l with
  | zero => exact finish_of_step_error h
  | succ i ih =>
    have hrest : l.step.2.finish = .error e := ih h
    cases ha : l.step.1 with
    | ok t =>
      rw [finish_of_step_ok ha, hrest]
      rfl
    | error e' =>
      -- behind a fault nothing is left, and finishing there succeeds
      rw [finish_of_rest_nil (step_error_cases ha).1] at hrest
      exact absurd hrest (by simp)

theorem afterSteps_of_rest_nil {l : Lexer source} (h : l.cursor.rest = []) (n : Nat) :
    l.afterSteps n = l := by
  induction n with
  | zero => rfl
  | succ n ih => rw [afterSteps_succ, ih, step_of_rest_nil h]

/-- Each step reads a character as long as there are any. -/
theorem rest_afterSteps_eq_nil (l : Lexer source) {n : Nat} (h : l.cursor.rest.length ≤ n) :
    (l.afterSteps n).cursor.rest = [] := by
  induction n generalizing l with
  | zero => exact List.length_eq_zero_iff.mp (Nat.le_zero.mp h)
  | succ n ih =>
    obtain ⟨s, hr, hs⟩ := l.exists_reads_step
    refine ih l.step.2 ?_
    rw [hr.rest_eq, List.length_append] at h
    by_cases hrest : l.cursor.rest = []
    · rw [hr.rest_eq] at hrest
      rw [(List.append_eq_nil_iff.mp hrest).2]
      exact Nat.zero_le n
    · have hpos := List.length_pos_of_ne_nil (hs hrest)
      omega

theorem afterSteps_add (l : Lexer source) (m n : Nat) :
    l.afterSteps (m + n) = (l.afterSteps m).afterSteps n := by
  induction m generalizing l with
  | zero => rw [Nat.zero_add, afterSteps]
  | succ m ih => rw [Nat.succ_add, afterSteps, afterSteps, ih]

/-- Behind a fault the lexer does not change any more. -/
theorem afterSteps_of_step_error {l : Lexer source} {i j : Nat} {e : ScanError}
    (h : (l.afterSteps i).step.1 = .error e) (hij : i < j) :
    l.afterSteps j = (l.afterSteps i).step.2 := by
  obtain ⟨d, rfl⟩ := Nat.exists_eq_add_of_lt hij
  rw [Nat.add_right_comm, afterSteps_add, afterSteps_succ,
    afterSteps_of_rest_nil (step_error_cases h).1]

/-- Some step answers with each of the tokens of a scan, apart from the one for the end. -/
theorem exists_step_of_mem_tokens {s : Scanned} (h : scan source = .ok s) {t : Token}
    (ht : t ∈ s.tokens) :
    (∃ line, t = .endOfText line) ∨ ∃ n, ((start source).afterSteps n).step.1 = .ok (some t) := by
  have hsteps : ∀ r ∈ (start source).steps source.toList.length,
      ∃ n, ((start source).afterSteps n).step = r := by
    intro r hr
    rw [steps_eq_map] at hr
    obtain ⟨n, -, hn⟩ := List.mem_map.mp hr
    exact ⟨n, hn⟩
  have hunbroken : (start source).Unbroken source.toList.length := by
    intro r hr e he
    obtain ⟨n, rfl⟩ := hsteps r hr
    have hfinish : scan source = .error e := finish_of_afterSteps_error he
    rw [h] at hfinish
    exact absurd hfinish (by simp)
  have hlength : (start source).cursor.rest.length ≤ source.toList.length := by
    rw [start, Cursor.rest_start]
  have hscan : scan source = _ := finish_of_unbroken hunbroken
  rw [h, finish_of_rest_nil (rest_afterSteps_eq_nil _ hlength)] at hscan
  rw [Except.ok.inj hscan] at ht
  rcases List.mem_append.mp ht with ht | ht
  · obtain ⟨r, hr, hanswer⟩ := List.mem_filterMap.mp ht
    obtain ⟨n, rfl⟩ := hsteps r hr
    refine .inr ⟨n, ?_⟩
    cases hstep : ((start source).afterSteps n).step.1 with
    | ok t' =>
      rw [hstep] at hanswer
      exact congrArg _ hanswer
    | error e =>
      rw [hstep] at hanswer
      exact absurd hanswer (by simp [Except.toOption])
  · exact .inl ⟨_, List.mem_singleton.mp ht⟩

theorem LinesTracked.fault_notMem {l : Lexer source} {ps : List source.Pos}
    (h : l.LinesTracked ps) (line : Nat) : .unterminatedString line ∉ l.errors := by
  rw [← Array.mem_toList_iff, h.errors_eq]
  intro hmem
  obtain ⟨p, _, hp⟩ := List.mem_map.mp hmem
  exact absurd hp (by simp)

theorem getElem?_steps_eq_some {l l' : Lexer source} {k i : Nat}
    {a : Except ScanError (Option Token)} (h : (l.steps k)[i]? = some (a, l')) :
    i < k ∧ (l.afterSteps i).step = (a, l') := by
  rw [steps_eq_map, List.getElem?_map, Option.map_eq_some_iff] at h
  obtain ⟨n, hn, hstep⟩ := h
  obtain ⟨hlt, rfl⟩ := List.getElem?_eq_some_iff.mp hn
  rw [List.getElem_range] at hstep
  exact ⟨by simpa using hlt, hstep⟩

end Lexer

/-! ## Steps follow the cutting -/

namespace Lexer

variable {source : String}

theorem step_of_openString {l : Lexer source} {text : List Char}
    (h : l.cursor.rest = '"' :: text) (hq : '"' ∉ text) : ∃ e, l.step.1 = .error e := by
  obtain ⟨d, hp, _⟩ := Cursor.piece?_of_openString h hq
  rw [step, hp]
  exact ⟨_, rfl⟩

/-- As many steps as there are segments lead to what the cutting leaves. -/
theorem afterSteps_of_cutting {text left : List Char} {gs : List Segment}
    (h : Cutting text gs left) (l : Lexer source) (hl : l.cursor.rest = text) :
    (l.afterSteps gs.length).cursor.rest = left ∧
      (l.afterSteps gs.length).cursor.consumed = l.cursor.consumed ++ gs.flatMap Segment.text := by
  induction h generalizing l with
  | finished => exact ⟨hl, by simp [afterSteps]⟩
  | openString _ => exact ⟨hl, by simp [afterSteps]⟩
  | @segment g rest left gs hg _ ih =>
    rw [← hl] at hg
    have hr := (step_of_next hg).2.1
    have hrest : l.step.2.cursor.rest = rest := hr.rest_of_append hl
    obtain ⟨hleft, hconsumed⟩ := ih l.step.2 hrest
    refine ⟨hleft, ?_⟩
    rw [List.length_cons, afterSteps, hconsumed, hr.consumed_eq, List.flatMap_cons,
      List.append_assoc]

end Lexer

open Lexer

/--
**Stepping agrees with the full pass.** As long as no step meets a string that is never closed, the
rest of the pass fails as the scan does, or yields what the scan yields behind the tokens of the
steps. A step that meets such a string is answered with the fault of the scan, and from then on the
lexer is idle and finishes with what it has recorded. Every lexer at the end is idle.
-/
theorem steps_agree_with_scan (source : String) (k : Nat) :
    ((start source).Unbroken k →
      (∀ e, ((start source).afterSteps k).finish = .error e ↔ scan source = .error e) ∧
      ∀ s, ((start source).afterSteps k).finish = .ok s →
        scan source =
          .ok { tokens := (start source).stepTokens k ++ s.tokens, errors := s.errors }) ∧
    (∀ i e l, ((start source).steps k)[i]? = some (.error e, l) →
      scan source = .error e ∧ e ∉ l.errors ∧
      (∀ j, i < j → ((start source).afterSteps j).step = (.ok none, l)) ∧
      ((start source).afterSteps k).finish = .ok
        { tokens := [.endOfText (1 + source.toList.count '\n')]
          errors := ((start source).afterSteps i).errors.toList }) ∧
    ∀ l : Lexer source, l.cursor.atEnd = true → l.step = (.ok none, l) := by
  refine ⟨fun h => ?_, fun i e l hi => ?_, fun l hl => ?_⟩
  · have hscan : scan source = _ := finish_of_unbroken h
    rw [hscan]
    cases ((start source).afterSteps k).finish with
    | ok s => simp [Except.map, Scanned.behind]
    | error e => simp [Except.map]
  · obtain ⟨hik, hstep⟩ := getElem?_steps_eq_some hi
    have hfault : ((start source).afterSteps i).step.1 = .error e := by rw [hstep]
    have hlast : ∀ j, i < j → (start source).afterSteps j = l := fun j hj => by
      rw [afterSteps_of_step_error hfault hj, hstep]
    obtain ⟨hrest, herrors⟩ := step_error_cases hfault
    rw [hstep] at hrest herrors
    have htracked : l.LinesTracked ((start source).recordedPlaces (i + 1)) := by
      rw [← hlast (i + 1) (Nat.lt_succ_self i)]
      exact linesTracked_afterSteps source (i + 1)
    have hline : l.line = 1 + source.toList.count '\n' := by
      rw [htracked.line_eq, Cursor.lineAt_pos_of_rest_nil hrest]
    refine ⟨finish_of_afterSteps_error hfault, ?_, fun j hj => ?_, ?_⟩
    · have htracked' := linesTracked_afterSteps source i
      rw [(stepTracked_of_line_eq htracked'.line_eq).fault e hfault]
      exact htracked.fault_notMem _
    · rw [hlast j hj]
      exact step_of_rest_nil hrest
    · rw [hlast k hik, finish_of_rest_nil hrest, hline, herrors]
  · exact step_of_rest_nil (Cursor.atEnd_iff.mp hl)

end Lox

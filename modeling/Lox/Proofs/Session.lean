import Lox.Handler.Session
import Lox.Proofs.Reporting
import Mathlib.Data.List.DropRight

/-!
# What a handler holds after a session

A handler is told diagnostics, asked for them and cleared, in any order and as often as one likes.
At every moment it holds what has been emitted to it since it was last cleared, in that order; if it
halts on errors, it holds those of them that are none. Looking at a handler, or writing what it
holds to a sink, changes nothing, even if the sink fails.

All operations that emit do it through one loop, which stops at the first error when the handler
halts. What it has kept by then depends on the diagnostics before that error. There are none: an
operation emits diagnostics of one level only, so it is kept as a whole or not at all. This is why
an operation that is halted leaves no trace.
-/

namespace Lox.Handler

/-- What an operation emits, as long as nothing halts it. -/
def Operation.emissions : Operation → List Diagnostic
  | .error line message => [{ level := .error, message := message, line := line }]
  | .emit d => [d]
  | .build draft => [draft.finish]
  | .scan source => diagnosticsOf (Lox.scan source)
  | .report source =>
    match Lox.scan source with
    | .ok s => s.errors.map ScanError.toDiagnostic
    | .error _ => []
  | .reportScanned s => s.errors.map ScanError.toDiagnostic
  | .diagnostics => []
  | .render => []
  | .write _ => []
  | .clear => []

def Operation.isClear : Operation → Bool
  | .clear => true
  | _ => false

theorem Operation.eq_clear_of_isClear {op : Operation} (h : op.isClear = true) : op = .clear := by
  cases op with
  | clear => rfl
  | _ => exact absurd h (by simp [isClear])

/-- What is emitted behind the last operation that clears. -/
def emittedSinceClear (ops : List Operation) : List Diagnostic :=
  (ops.rtakeWhile fun op => !op.isClear).flatMap Operation.emissions

/-- The handler after a sequence of operations. -/
def after (h : Handler) (ops : List Operation) : Handler :=
  ops.foldl (fun h op => (h.perform op).2) h

/-- Why an operation was given up, if it was. -/
def Reply.halt? : Reply → Option Halt
  | .halted halt => some halt
  | _ => none

theorem Reply.halt?_eq_some_iff {r : Reply} {halt : Halt} :
    r.halt? = some halt ↔ r = .halted halt := by
  cases r <;> simp [halt?]

/-! ## One operation -/

/-- The diagnostics of one operation are all errors, or there is only one of them. -/
theorem Operation.level_eq_of_mem_emissions {op : Operation} {d d' : Diagnostic}
    (hd : d ∈ op.emissions) (hd' : d' ∈ op.emissions) : d.level = d'.level := by
  have key : ∀ es : List ScanError, d ∈ es.map ScanError.toDiagnostic →
      d' ∈ es.map ScanError.toDiagnostic → d.level = d'.level := by
    intro es h h'
    obtain ⟨e, _, rfl⟩ := List.mem_map.mp h
    obtain ⟨e', _, rfl⟩ := List.mem_map.mp h'
    rfl
  cases op with
  | error line message => rw [List.mem_singleton.mp hd, List.mem_singleton.mp hd']
  | emit d'' => rw [List.mem_singleton.mp hd, List.mem_singleton.mp hd']
  | build draft => rw [List.mem_singleton.mp hd, List.mem_singleton.mp hd']
  | scan source => rw [level_of_mem_diagnosticsOf hd, level_of_mem_diagnosticsOf hd']
  | report source =>
    rw [emissions] at hd hd'
    cases hs : Lox.scan source with
    | ok s =>
      rw [hs] at hd hd'
      exact key _ hd hd'
    | error e =>
      rw [hs] at hd
      exact absurd hd List.not_mem_nil
  | reportScanned s => exact key _ hd hd'
  | _ => exact absurd hd List.not_mem_nil

theorem emitAll_singleton (h : Handler) (d : Diagnostic) : h.emitAll [d] = h.emit d := by
  rw [emitAll]
  cases h.emit d with
  | mk halt h' => cases halt <;> rfl

theorem reply_orHalt {α : Type} {answer : α → Reply} (hanswer : ∀ a, (answer a).halt? = none)
    (a : α) (r : Option Halt × Handler) :
    (Halting.reply answer (orHalt a r)).2 = r.2 ∧
      (Halting.reply answer (orHalt a r)).1.halt? = r.1 := by
  obtain ⟨halt, h⟩ := r
  cases halt with
  | none => exact ⟨rfl, hanswer a⟩
  | some halt => exact ⟨rfl, rfl⟩

/-- An operation that does not clear does to the handler what emitting its diagnostics does. -/
theorem perform_eq_emitAll (h : Handler) {op : Operation} (hop : op.isClear = false) :
    (h.perform op).2 = (h.emitAll op.emissions).2 ∧
      (h.perform op).1.halt? = (h.emitAll op.emissions).1 := by
  cases op with
  | error line message =>
    rw [Operation.emissions, emitAll_singleton]
    exact reply_orHalt (fun _ => rfl) () _
  | emit d =>
    rw [Operation.emissions, emitAll_singleton]
    exact reply_orHalt (fun _ => rfl) () _
  | build draft =>
    rw [Operation.emissions, emitAll_singleton]
    exact reply_orHalt (fun _ => rfl) () _
  | scan source =>
    rw [perform, scan_eq]
    exact reply_orHalt (fun _ => rfl) _ _
  | report source =>
    rw [perform, Operation.emissions]
    cases Lox.scan source with
    | ok s => exact reply_orHalt (fun _ => rfl) _ _
    | error e => exact ⟨rfl, rfl⟩
  | reportScanned s => exact reply_orHalt (fun _ => rfl) () _
  | diagnostics => exact ⟨rfl, rfl⟩
  | render => exact ⟨rfl, rfl⟩
  | write s => exact ⟨rfl, rfl⟩
  | clear => exact absurd hop (by simp [Operation.isClear])

/-- An operation is halted at the first error that it emits, and only by a handler that halts. -/
theorem halt?_perform (h : Handler) (op : Operation) :
    (h.perform op).1.halt? = (op.emissions.find? h.haltsOn).map Halt.mk := by
  cases hop : op.isClear with
  | true =>
    obtain rfl := Operation.eq_clear_of_isClear hop
    rfl
  | false => rw [(h.perform_eq_emitAll hop).2, emitAll_eq]

theorem haltsOn_eq_of_mem_emissions (h : Handler) {op : Operation} {d d' : Diagnostic}
    (hd : d ∈ op.emissions) (hd' : d' ∈ op.emissions) : h.haltsOn d = h.haltsOn d' := by
  rw [haltsOn, haltsOn, Operation.level_eq_of_mem_emissions hd hd']

/-- The diagnostics before the first that halts are all that do not halt: all of them, or none. -/
theorem takeWhile_emissions (h : Handler) (op : Operation) :
    (op.emissions.takeWhile fun d => !h.haltsOn d) = op.emissions.filter fun d => !h.haltsOn d := by
  cases hds : op.emissions with
  | nil => rfl
  | cons d ds =>
    have hsame : ∀ d' ∈ d :: ds, h.haltsOn d' = h.haltsOn d := fun d' hd' =>
      h.haltsOn_eq_of_mem_emissions (hds ▸ hd') (hds ▸ List.mem_cons_self)
    cases hd : h.haltsOn d with
    | true =>
      rw [List.takeWhile_cons_of_neg (by simp [hd]), eq_comm, List.filter_eq_nil_iff]
      intro d' hd'
      simp [hsame d' hd', hd]
    | false =>
      have hall : ∀ d' ∈ d :: ds, (!h.haltsOn d') = true := by
        intro d' hd'
        rw [hsame d' hd', hd]
        rfl
      rw [List.takeWhile_eq_self_iff.mpr hall, List.filter_eq_self.mpr hall]

/-- What an operation emits is kept, unless it is an error and the handler halts. -/
theorem perform_of_not_isClear (h : Handler) {op : Operation} (hop : op.isClear = false) :
    (h.perform op).2 = h.extend (op.emissions.filter fun d => !h.haltsOn d) := by
  rw [(h.perform_eq_emitAll hop).1, emitAll_eq, takeWhile_emissions]

/-- An operation that is halted leaves the handler as it was. -/
theorem perform_of_halted {h : Handler} {op : Operation} {halt : Halt}
    (hhalt : (h.perform op).1 = .halted halt) : (h.perform op).2 = h := by
  cases hop : op.isClear with
  | true =>
    obtain rfl := Operation.eq_clear_of_isClear hop
    cases hhalt
  | false =>
    have hfind := h.halt?_perform op
    rw [hhalt] at hfind
    obtain ⟨d, hd, _⟩ := Option.map_eq_some_iff.mp hfind.symm
    -- one diagnostic halts, and so would all others
    have hnone : op.emissions.filter (fun d => !h.haltsOn d) = [] := by
      rw [List.filter_eq_nil_iff]
      intro d' hd'
      rw [h.haltsOn_eq_of_mem_emissions hd' (List.mem_of_find?_eq_some hd), List.find?_some hd]
      simp
    rw [h.perform_of_not_isClear hop, hnone, extend_nil]

/-! ## A sequence of operations -/

theorem after_concat (h : Handler) (ops : List Operation) (op : Operation) :
    h.after (ops ++ [op]) = ((h.after ops).perform op).2 := by
  rw [after, List.foldl_append]
  rfl

theorem emittedSinceClear_concat (ops : List Operation) (op : Operation) :
    emittedSinceClear (ops ++ [op]) =
      if op.isClear then [] else emittedSinceClear ops ++ op.emissions := by
  rw [emittedSinceClear, List.rtakeWhile_concat]
  cases op.isClear with
  | true => rfl
  | false => simp [emittedSinceClear]

/-- Each operation is performed by the handler that the operations before it have led to. -/
theorem getElem?_performAll (h : Handler) (ops : List Operation) (i : Nat) :
    (h.performAll ops)[i]? = ops[i]?.map (h.after (ops.take i)).perform := by
  induction ops generalizing h i with
  | nil => rfl
  | cons op ops ih =>
    cases i with
    | zero => rfl
    | succ i => exact ih (h.perform op).2 i

/-- What a handler of a kind keeps of what is emitted to it: one that halts keeps no errors. -/
def kept (halts : Bool) (ds : List Diagnostic) : List Diagnostic :=
  if halts then ds.filter fun d => d.level ≠ .error else ds

theorem kept_append (halts : Bool) (ds ds' : List Diagnostic) :
    kept halts (ds ++ ds') = kept halts ds ++ kept halts ds' := by
  cases halts with
  | true => exact List.filter_append ..
  | false => rfl

/-- What is kept of some diagnostics is what does not halt. -/
theorem filter_haltsOn_eq_kept (h : Handler) (ds : List Diagnostic) :
    (ds.filter fun d => !h.haltsOn d) = kept h.haltsOnError ds := by
  cases hh : h.haltsOnError with
  | true => simp [kept, haltsOn, hh]
  | false => simp [kept, haltsOn, hh]

/-- A new handler after a sequence of operations. -/
theorem after_eq (halts : Bool) (ops : List Operation) :
    (Handler.mk halts #[]).after ops = ⟨halts, (kept halts (emittedSinceClear ops)).toArray⟩ := by
  induction ops using List.reverseRecOn with
  | nil => cases halts <;> rfl
  | append_singleton ops op ih =>
    rw [after_concat, ih, emittedSinceClear_concat]
    cases hop : op.isClear with
    | true =>
      obtain rfl := Operation.eq_clear_of_isClear hop
      cases halts <;> rfl
    | false =>
      rw [perform_of_not_isClear _ hop, filter_haltsOn_eq_kept, if_neg Bool.false_ne_true,
        kept_append, extend, List.append_toArray]

/-- A handler of either kind holds the diagnostics, and looking at it does not change it. -/
structure Shows (h : Handler) (ds : List Diagnostic) : Prop where
  diagnostics : h.perform .diagnostics = (.diagnostics ds, h)
  render : h.perform .render = (.text (String.join (ds.map fun d => d.shown ++ "\n")), h)
  write : ∀ s, (h.perform (.write s)).2 = h
  errorCount : h.errorCount = (ds.filter fun d => d.level = .error).length
  warningCount : h.warningCount = (ds.filter fun d => d.level = .warning).length
  hasErrors : h.hasErrors = true ↔ 0 < h.errorCount

theorem shows_diagnostics (h : Handler) : h.Shows h.diagnostics.toList where
  diagnostics := rfl
  render := rfl
  write _ := rfl
  errorCount := by
    rw [errorCount, Array.countP_eq_size_filter, ← Array.length_toList, Array.toList_filter]
  warningCount := by
    rw [warningCount, Array.countP_eq_size_filter, ← Array.length_toList, Array.toList_filter]
  hasErrors := by rw [hasErrors, errorCount, Array.countP_pos_iff, Array.any_eq_true']

/--
An operation is halted by its first error, if the handler halts on errors, and by nothing else.
Then the handler is as it was.
-/
structure Performs (h : Handler) (op : Operation) : Prop where
  halted_iff : ∀ halt : Halt, (h.perform op).1 = .halted halt ↔
    h.haltsOnError = true ∧ op.emissions.find? (fun d => d.level = .error) = some halt.cause
  eq_of_halted : ∀ halt, (h.perform op).1 = .halted halt → (h.perform op).2 = h

theorem performs (h : Handler) (op : Operation) : h.Performs op where
  halted_iff halt := by
    rw [← Reply.halt?_eq_some_iff, halt?_perform]
    cases hh : h.haltsOnError with
    | true =>
      have hon : h.haltsOn = fun d => decide (d.level = .error) := by
        funext d
        rw [haltsOn, hh, Bool.true_and]
      rw [hon, Option.map_eq_some_iff]
      constructor
      · rintro ⟨d, hd, rfl⟩
        exact ⟨rfl, hd⟩
      · exact fun hd => ⟨halt.cause, hd.2, rfl⟩
    | false =>
      have hon : h.haltsOn = fun _ => false := by
        funext d
        rw [haltsOn, hh, Bool.false_and]
      have hnone : op.emissions.find? (fun _ => false) = none := List.find?_eq_none.mpr (by simp)
      rw [hon, hnone]
      simp
  eq_of_halted _ := perform_of_halted

/--
**A handler over a session.** After any sequence of operations a new handler holds what has been
emitted since it was last cleared, in that order, or what of it is no error if the handler halts on
errors. So one that halts never has errors. Each operation is performed by the handler that those
before it have led to.
-/
theorem session_keeps_emissions (halts : Bool) (ops : List Operation) :
    ((Handler.mk halts #[]).after ops).Shows (kept halts (emittedSinceClear ops)) ∧
      (halts = true → ((Handler.mk halts #[]).after ops).hasErrors = false) ∧
      (∀ op, ((Handler.mk halts #[]).after ops).Performs op) ∧
      ((Handler.mk halts #[]).after ops).haltsOnError = halts ∧
      ∀ i, ((Handler.mk halts #[]).performAll ops)[i]? =
        ops[i]?.map ((Handler.mk halts #[]).after (ops.take i)).perform := by
  have hafter := after_eq halts ops
  refine ⟨?_, fun hh => ?_, performs _, by rw [hafter], getElem?_performAll _ ops⟩
  · have hshows := shows_diagnostics ((Handler.mk halts #[]).after ops)
    rwa [congrArg Handler.diagnostics hafter] at hshows
  · rw [hafter, hh]
    simp [hasErrors, kept]

-- a warning is kept, and neither an error nor a full sink changes that
example : (Handler.mk true #[]).after
    [.emit { level := .note, message := "n", line := 1 }, .clear,
      .emit { level := .warning, message := "w", line := 2 }, .error 3 "e",
      .write { room := some 3 }] =
    ⟨true, #[{ level := .warning, message := "w", line := 2 }]⟩ := rfl

end Lox.Handler

import Lox.Scan.Reporting
import Mathlib.Data.List.Forall2
import Mathlib.Data.List.TakeWhile

/-!
# What a handler is told of a scan

Reporting a scan adds to a handler what the scan has found and nothing else: a diagnostic for each
fault that was passed over, in their order, or the one of a string that is never closed, which
takes the place of all others. A handler that halts on errors is told of the first of these only,
and keeps what it held before.

A list of diagnostics is emitted one by one, so the statement that carries the proofs is about the
whole loop: `Handler.emitAll_eq` says where it stops, for either kind of handler and for diagnostics
of any level.
-/

namespace Lox

namespace Handler

/-- Emitting `d` halts. -/
def haltsOn (h : Handler) (d : Diagnostic) : Bool := h.haltsOnError && d.level = .error

/-- The handler with more diagnostics behind its own. -/
def extend (h : Handler) (ds : List Diagnostic) : Handler :=
  { h with diagnostics := h.diagnostics ++ ds.toArray }

@[simp] theorem extend_nil (h : Handler) : h.extend [] = h := by simp [extend]

theorem extend_cons (h : Handler) (d : Diagnostic) (ds : List Diagnostic) :
    h.extend (d :: ds) = (h.extend [d]).extend ds := by simp [extend]

@[simp] theorem haltsOn_extend (h : Handler) (ds : List Diagnostic) :
    (h.extend ds).haltsOn = h.haltsOn := rfl

/-! ## Emitting one, and emitting many -/

theorem emit_of_haltsOn {h : Handler} {d : Diagnostic} (hd : h.haltsOn d = true) :
    h.emit d = (some ⟨d⟩, h) := by
  rw [haltsOn, Bool.and_eq_true, decide_eq_true_eq] at hd
  rw [emit, if_pos hd]

theorem emit_of_not_haltsOn {h : Handler} {d : Diagnostic} (hd : h.haltsOn d = false) :
    h.emit d = (none, h.extend [d]) := by
  have hn : ¬ (h.haltsOnError = true ∧ d.level = .error) := by
    rintro ⟨hh, hl⟩
    rw [haltsOn, hh, hl] at hd
    exact absurd hd (by simp)
  rw [emit, if_neg hn, extend]
  simp

/-- Emitting halts at the first diagnostic that halts, and keeps those before it. -/
theorem emitAll_eq (h : Handler) (ds : List Diagnostic) :
    h.emitAll ds =
      ((ds.find? h.haltsOn).map Halt.mk, h.extend (ds.takeWhile fun d => !h.haltsOn d)) := by
  induction ds generalizing h with
  | nil => rw [List.takeWhile_nil, extend_nil]; rfl
  | cons d ds ih =>
    rw [emitAll]
    cases hd : h.haltsOn d with
    | true =>
      rw [emit_of_haltsOn hd, List.find?_cons_of_pos hd, List.takeWhile_cons_of_neg (by simp [hd]),
        extend_nil]
      rfl
    | false =>
      have hn : ¬ h.haltsOn d = true := by simp [hd]
      rw [emit_of_not_haltsOn hd, List.find?_cons_of_neg hn,
        List.takeWhile_cons_of_pos (by simp [hd]), extend_cons h d (ds.takeWhile _)]
      exact ih (h.extend [d])

/-- A handler that does not halt keeps everything. -/
theorem emitAll_of_not_halts (ds : Array Diagnostic) (new : List Diagnostic) :
    emitAll ⟨false, ds⟩ new = (none, ⟨false, ds ++ new.toArray⟩) := by
  have hn : (Handler.mk false ds).haltsOn = fun _ => false := rfl
  have hall : new.takeWhile (fun _ => true) = new := List.takeWhile_eq_self_iff.mpr (by simp)
  rw [emitAll_eq, hn]
  simp [extend, hall]

/-- A handler that halts is told of the first of a list of errors, and keeps none. -/
theorem emitAll_of_halts (ds : Array Diagnostic) {new : List Diagnostic}
    (herror : ∀ d ∈ new, d.level = .error) :
    emitAll ⟨true, ds⟩ new = (new.head?.map Halt.mk, ⟨true, ds⟩) := by
  cases new with
  | nil => rfl
  | cons d new =>
    have hd : (Handler.mk true ds).haltsOn d = true := by
      simp [haltsOn, herror d List.mem_cons_self]
    rw [emitAll, emit_of_haltsOn hd]
    rfl

end Handler

/-! ## What a scan has to tell -/

/-- The diagnostic says of the fault what there is to say. -/
structure Diagnostic.Tells (d : Diagnostic) (e : ScanError) : Prop where
  level : d.level = .error
  message : d.message = e.message
  line : d.line = e.line
  code : d.code = some e.code
  location : d.location = none

/-- The diagnostics tell of the faults that a scan passes over, or of the one that it fails with. -/
def Tells (new : List Diagnostic) : Except ScanError Scanned → Prop
  | .ok s => List.Forall₂ Diagnostic.Tells new s.errors
  | .error e => ∃ d : Diagnostic, d.Tells e ∧ new = [d]

theorem ScanError.tells_toDiagnostic (e : ScanError) : e.toDiagnostic.Tells e :=
  ⟨rfl, rfl, rfl, rfl, rfl⟩

/-- What is reported of the result of a scan. -/
def diagnosticsOf : Except ScanError Scanned → List Diagnostic
  | .ok s => s.errors.map ScanError.toDiagnostic
  | .error e => [e.toDiagnostic]

theorem tells_diagnosticsOf (r : Except ScanError Scanned) : Tells (diagnosticsOf r) r := by
  cases r with
  | ok s =>
    show List.Forall₂ Diagnostic.Tells (s.errors.map ScanError.toDiagnostic) s.errors
    rw [List.forall₂_map_left_iff, List.forall₂_same]
    exact fun e _ => e.tells_toDiagnostic
  | error e => exact ⟨e.toDiagnostic, e.tells_toDiagnostic, rfl⟩

theorem level_of_mem_diagnosticsOf {r : Except ScanError Scanned} {d : Diagnostic}
    (h : d ∈ diagnosticsOf r) : d.level = .error := by
  cases r with
  | ok s =>
    obtain ⟨e, _, rfl⟩ := List.mem_map.mp h
    rfl
  | error e =>
    rw [List.mem_singleton.mp h]
    rfl

/-- There is nothing to report of a scan that succeeds and passes over nothing, and only of it. -/
theorem diagnosticsOf_eq_nil_iff {r : Except ScanError Scanned} :
    diagnosticsOf r = [] ↔ ∃ s, r = .ok s ∧ s.isClean = true := by
  cases r with
  | ok s => simp [diagnosticsOf, Scanned.isClean]
  | error e => simp [diagnosticsOf]

/-- The tokens of a scan, if there are any. -/
def tokensOf (r : Except ScanError Scanned) : Option (List Token) := r.toOption.map Scanned.tokens

namespace Handler

/-- Scanning into a handler emits what there is to report of the scan, and then answers. -/
theorem scan_eq (h : Handler) (source : String) :
    h.scan source =
      orHalt (tokensOf (Lox.scan source)) (h.emitAll (diagnosticsOf (Lox.scan source))) := by
  rw [scan]
  cases Lox.scan source with
  | ok s => rfl
  | error e =>
    show orHalt none (h.emit e.toDiagnostic) = orHalt none (h.emitAll [e.toDiagnostic])
    rw [emitAll]
    cases h.emit e.toDiagnostic with
    | mk halt h' =>
      cases halt with
      | none => rfl
      | some halt => rfl

theorem hasErrors_eq_false_iff {new : List Diagnostic} (herror : ∀ d ∈ new, d.level = .error) :
    hasErrors ⟨false, #[] ++ new.toArray⟩ = false ↔ new = [] := by
  cases new with
  | nil => simp [hasErrors]
  | cons d new =>
    have hd := herror d List.mem_cons_self
    simp [hasErrors, hd]

end Handler

/--
**Reporting agrees with scanning.** There is a list of diagnostics that tell of the scan, and a
handler that does not halt has them behind its own, whether the text is scanned into it or the
result of the scan is reported. If it was empty, it has no errors exactly when the scan succeeds and
is clean. A handler that halts does so exactly when the list is not empty, at the first of them, and
is as it was.
-/
theorem reporting_agrees_with_scan (source : String) (ds : Array Diagnostic) :
    ∃ new, Tells new (scan source) ∧
      Handler.scan ⟨false, ds⟩ source =
        (.ok (tokensOf (scan source)), ⟨false, ds ++ new.toArray⟩) ∧
      (∀ s, scan source = .ok s → s.report ⟨false, ds⟩ = (none, ⟨false, ds ++ new.toArray⟩)) ∧
      ((Handler.scan ⟨false, #[]⟩ source).2.hasErrors = false ↔
        ∃ s, scan source = .ok s ∧ s.isClean = true) ∧
      (new = [] → Handler.scan ⟨true, ds⟩ source = (.ok (tokensOf (scan source)), ⟨true, ds⟩) ∧
        ∀ s, scan source = .ok s → s.report ⟨true, ds⟩ = (none, ⟨true, ds⟩)) ∧
      (∀ d rest, new = d :: rest → ∃ halt, halt.message = "Diagnostic error: " ++ d.shown ∧
        Handler.scan ⟨true, ds⟩ source = (.error halt, ⟨true, ds⟩) ∧
        ∀ s, scan source = .ok s → s.report ⟨true, ds⟩ = (some halt, ⟨true, ds⟩)) := by
  have herror : ∀ d ∈ diagnosticsOf (scan source), d.level = .error := fun d =>
    level_of_mem_diagnosticsOf
  have hhalts := Handler.emitAll_of_halts ds herror
  have hreport : ∀ (h : Handler) s, scan source = .ok s →
      s.report h = h.emitAll (diagnosticsOf (scan source)) := by
    intro h s hs
    rw [hs]
    rfl
  refine ⟨diagnosticsOf (scan source), tells_diagnosticsOf _, ?_, fun s hs => ?_, ?_,
    fun hnil => ?_, fun d rest hcons => ?_⟩
  · rw [Handler.scan_eq, Handler.emitAll_of_not_halts]
    rfl
  · rw [hreport _ s hs, Handler.emitAll_of_not_halts]
  · rw [← diagnosticsOf_eq_nil_iff, Handler.scan_eq, Handler.emitAll_of_not_halts]
    exact Handler.hasErrors_eq_false_iff herror
  · rw [hnil] at hhalts
    refine ⟨?_, fun s hs => ?_⟩
    · rw [Handler.scan_eq, hnil, hhalts]
      rfl
    · rw [hreport _ s hs, hnil, hhalts]
      rfl
  · rw [hcons] at hhalts
    refine ⟨⟨d⟩, rfl, ?_, fun s hs => ?_⟩
    · rw [Handler.scan_eq, hcons, hhalts]
      rfl
    · rw [hreport _ s hs, hcons, hhalts]
      rfl

end Lox

import Lox.Handler.Session

/-!
# The last setting stands

A diagnostic is made with its line, and then takes a code and a location. A draft takes the line
among its other settings, and keeps an account of its own of all three. Of many settings of one kind
the last one stands with either, and a setting of one kind does not touch the others. So both come
to the same diagnostic, and the order between settings of different kinds does not matter.

Two statements carry this, each an induction over the settings: a draft follows the diagnostic that
is made with the last line (`Draft.finish_setAll`), and a diagnostic has the last code and the last
location (`Diagnostic.setAll_eq`).
-/

namespace Lox

/-! ## Settings of one kind -/

namespace Diagnostic

def Setting.code? : Setting → Option Code
  | .code c => some c
  | .location _ => none

def Setting.location? : Setting → Option String
  | .code _ => none
  | .location place => some place

/-- The codes that are set, one after the other. -/
def codes (settings : List Setting) : List Code := settings.filterMap Setting.code?

/-- The locations that are set, one after the other. -/
def locations (settings : List Setting) : List String := settings.filterMap Setting.location?

end Diagnostic

namespace Draft

def Setting.line? : Setting → Option Nat
  | .line n => some n
  | _ => none

/-- The setting as one of a diagnostic, which takes no line any more. -/
def Setting.ofDiagnostic? : Setting → Option Diagnostic.Setting
  | .line _ => none
  | .code c => some (.code c)
  | .location place => some (.location place)

/-- The lines that are set, one after the other. -/
def lines (settings : List Setting) : List Nat := settings.filterMap Setting.line?

/-- The settings other than lines, one after the other. -/
def others (settings : List Setting) : List Diagnostic.Setting :=
  settings.filterMap Setting.ofDiagnostic?

/-- The last line, the last code and the last location are the same. -/
structure SameLast (settings settings' : List Setting) : Prop where
  line : (lines settings).getLast? = (lines settings').getLast?
  code : (Diagnostic.codes (others settings)).getLast? =
    (Diagnostic.codes (others settings')).getLast?
  location : (Diagnostic.locations (others settings)).getLast? =
    (Diagnostic.locations (others settings')).getLast?

/-- The settings are the same, and those of one kind are in the same order. -/
structure Reordered (settings settings' : List Setting) : Prop where
  lines : lines settings = lines settings'
  codes : Diagnostic.codes (others settings) = Diagnostic.codes (others settings')
  locations : Diagnostic.locations (others settings) = Diagnostic.locations (others settings')

variable {settings settings' : List Setting}

/-- A sequence of settings is put together from those of each kind. -/
theorem perm_kinds (settings : List Setting) :
    settings.Perm ((lines settings).map .line ++ ((Diagnostic.codes (others settings)).map .code ++
      (Diagnostic.locations (others settings)).map .location)) := by
  induction settings with
  | nil => rfl
  | cons x settings ih =>
    cases x with
    | line n => exact ih.cons _
    | code c => exact (ih.cons _).trans List.perm_middle.symm
    | location place =>
      refine (ih.cons _).trans ?_
      rw [← List.append_assoc, ← List.append_assoc]
      exact List.perm_middle.symm

/-- No setting gets lost on the way, and none is added. -/
theorem Reordered.perm (h : Reordered settings settings') : settings.Perm settings' := by
  have hkinds := perm_kinds settings
  rw [h.lines, h.codes, h.locations] at hkinds
  exact hkinds.trans (perm_kinds settings').symm

theorem Reordered.sameLast (h : Reordered settings settings') : SameLast settings settings' :=
  ⟨by rw [h.lines], by rw [h.codes], by rw [h.locations]⟩

end Draft

/-! ## A sequence of settings -/

/-- What is set first stands only if nothing is set behind it. -/
theorem getLast?_cons_or {α : Type} (a : α) (l : List α) (o : Option α) :
    (a :: l).getLast?.or o = l.getLast?.or (some a) := by
  rw [List.getLast?_cons, Option.some_or, Option.or_some]

/-- Of the codes and of the locations the last one stands. -/
theorem Diagnostic.setAll_eq (d : Diagnostic) (settings : List Setting) :
    d.setAll settings = { d with
      code := (codes settings).getLast?.or d.code
      location := (locations settings).getLast?.or d.location } := by
  induction settings generalizing d with
  | nil => rfl
  | cons x settings ih =>
    have hcons : d.setAll (x :: settings) = (d.set x).setAll settings := rfl
    rw [hcons, ih]
    cases x with
    | code c =>
      have hcodes : codes (.code c :: settings) = c :: codes settings := rfl
      rw [hcodes, getLast?_cons_or]
      rfl
    | location place =>
      have hlocations : locations (.location place :: settings) = place :: locations settings := rfl
      rw [hlocations, getLast?_cons_or]
      rfl

/-- A draft leads to the diagnostic that is made with the last line and takes the other settings. -/
theorem Draft.finish_setAll (d : Draft) (settings : List Setting) :
    (d.setAll settings).finish =
      { d.finish with line := ((lines settings).getLast?.or d.line).getD 1 }.setAll
        (others settings) := by
  induction settings generalizing d with
  | nil => rfl
  | cons x settings ih =>
    cases x with
    | line n =>
      have hlines : lines (.line n :: settings) = n :: lines settings := rfl
      rw [hlines, getLast?_cons_or]
      exact ih (d.set (.line n))
    | code c => exact ih (d.set (.code c))
    | location place => exact ih (d.set (.location place))

/-! ## Two ways to a diagnostic -/

/-- A draft that takes settings one after the other, from none. -/
def Draft.made (level : Level) (message : String) (settings : List Draft.Setting) : Draft :=
  { level, message : Draft }.setAll settings

/-- A diagnostic that is made with the last line, or 1, and takes the other settings. -/
def Diagnostic.made (level : Level) (message : String) (settings : List Draft.Setting) :
    Diagnostic :=
  { level, message, line := (Draft.lines settings).getLast?.getD 1 : Diagnostic }.setAll
    (Draft.others settings)

theorem Draft.finish_made (level : Level) (message : String) (settings : List Draft.Setting) :
    (Draft.made level message settings).finish = Diagnostic.made level message settings := by
  rw [Draft.made, Draft.finish_setAll, Option.or_none]
  rfl

theorem Diagnostic.made_eq (level : Level) (message : String) (settings : List Draft.Setting) :
    Diagnostic.made level message settings =
      { level, message
        line := (Draft.lines settings).getLast?.getD 1
        code := (codes (Draft.others settings)).getLast?
        location := (locations (Draft.others settings)).getLast? } := by
  rw [made, setAll_eq, Option.or_none, Option.or_none]

theorem Draft.SameLast.made_eq {settings settings' : List Draft.Setting}
    (h : Draft.SameLast settings settings') (level : Level) (message : String) :
    Diagnostic.made level message settings' = Diagnostic.made level message settings := by
  rw [Diagnostic.made_eq, Diagnostic.made_eq, h.line, h.code, h.location]

/--
**A draft and a diagnostic with the same settings come to the same.** It has the last line, the last
code and the last location that are set. So other settings with the same last ones lead to the same
diagnostic either way, and so do the same settings in another order, as long as those of one kind
stay in theirs; what is shown is then the same too. Building a draft into a handler that does not
halt adds this diagnostic and nothing else.
-/
theorem drafts_agree_with_diagnostics (level : Level) (message : String)
    (settings : List Draft.Setting) :
    (Draft.made level message settings).finish = Diagnostic.made level message settings ∧
      Diagnostic.made level message settings =
        { level, message
          line := (Draft.lines settings).getLast?.getD 1
          code := (Diagnostic.codes (Draft.others settings)).getLast?
          location := (Diagnostic.locations (Draft.others settings)).getLast? } ∧
      (∀ settings', Draft.SameLast settings settings' →
        (Draft.made level message settings').finish = (Draft.made level message settings).finish ∧
        Diagnostic.made level message settings' = Diagnostic.made level message settings) ∧
      (∀ settings', Draft.Reordered settings settings' →
        (Draft.made level message settings').finish = (Draft.made level message settings).finish ∧
        Diagnostic.made level message settings' = Diagnostic.made level message settings ∧
        (Draft.made level message settings').finish.shown =
          (Draft.made level message settings).finish.shown) ∧
      ∀ ds, Handler.perform ⟨false, ds⟩ (.build (Draft.made level message settings)) =
        (.done, ⟨false, ds.push (Diagnostic.made level message settings)⟩) := by
  have hlast : ∀ settings', Draft.SameLast settings settings' →
      (Draft.made level message settings').finish = (Draft.made level message settings).finish ∧
      Diagnostic.made level message settings' = Diagnostic.made level message settings := by
    intro settings' h
    rw [Draft.finish_made, Draft.finish_made]
    exact ⟨h.made_eq level message, h.made_eq level message⟩
  refine ⟨Draft.finish_made level message settings, Diagnostic.made_eq level message settings,
    hlast, fun settings' h => ?_, fun ds => ?_⟩
  · obtain ⟨hdraft, hmade⟩ := hlast settings' h.sameLast
    exact ⟨hdraft, hmade, congrArg Diagnostic.shown hdraft⟩
  · rw [← Draft.finish_made]
    rfl

-- the line is the last of two, and it does not matter that the code is set between them
example : Draft.Reordered [.line 3, .code ⟨"W", 1⟩, .line 12, .location "at 'x'"]
    [.location "at 'x'", .line 3, .line 12, .code ⟨"W", 1⟩] := ⟨rfl, rfl, rfl⟩

end Lox

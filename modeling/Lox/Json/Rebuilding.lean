import Lox.Json.Basic

/-!
# The symbols of a value determine it

Reading the symbols of a value gives the value back. The statement that carries the proof is about
a value inside of a larger text: where a value is expected, its symbols lead to the state behind
it, whatever is still open and whatever comes after.
-/

namespace Lox.Json

/-- A value begins with a symbol that neither closes nor separates. -/
theorem symbols_eq_cons (v : Json) :
    ∃ s ss, v.symbols = s :: ss ∧ s ≠ .closeArray ∧ s ≠ .closeObject := by
  cases v <;> simp [symbols]

/-- An array with items opens, and its first item is expected. -/
theorem build_openArray {opened : List Frame} {s : Symbol} {ss : List Symbol}
    (h : s ≠ .closeArray) :
    build .value opened (.openArray :: s :: ss) = build .value (.array [] :: opened) (s :: ss) := by
  cases s with
  | closeArray => exact absurd rfl h
  | _ => simp only [build]

mutual

theorem build_symbols (opened : List Frame) (ss : List Symbol) :
    ∀ v : Json, build .value opened (v.symbols ++ ss) = build (.behind v) opened ss
  | .null => by simp [symbols, build]
  | .bool b => by simp [symbols, build]
  | .number n => by simp [symbols, build]
  | .string t => by simp [symbols, build]
  | .array [] => by simp [symbols, itemSymbols, build]
  | .array (v :: vs) => by
    have hi := build_itemSymbols opened ss [] (v :: vs) (by simp)
    obtain ⟨s, tail, hs, hc⟩ :
        ∃ s tail, itemSymbols (v :: vs) = s :: tail ∧ s ≠ .closeArray := by
      obtain ⟨s, tail, hs, hc, -⟩ := v.symbols_eq_cons
      cases vs with
      | nil => exact ⟨s, tail, by rw [itemSymbols, hs], hc⟩
      | cons w ws => exact ⟨s, _, by rw [itemSymbols, hs, List.cons_append], hc⟩
    rw [hs] at hi
    simp only [symbols, hs, List.cons_append, List.append_assoc, List.nil_append] at hi ⊢
    rw [build_openArray hc]
    exact hi
  | .object [] => by simp [symbols, memberSymbols, build]
  | .object ((k, v) :: ms) => by
    have hm := build_memberSymbols opened ss [] ((k, v) :: ms) (by simp)
    obtain ⟨tail, ht⟩ : ∃ tail, memberSymbols ((k, v) :: ms) = .string k :: tail := by
      cases ms with
      | nil => exact ⟨_, by rw [memberSymbols]⟩
      | cons m ms => exact ⟨_, by rw [memberSymbols, List.cons_append]⟩
    rw [ht] at hm
    simp only [symbols, ht, List.cons_append, List.append_assoc, List.nil_append] at hm ⊢
    simp only [build]
    exact hm

theorem build_itemSymbols (opened : List Frame) (ss : List Symbol) (before : List Json) :
    ∀ vs : List Json, vs ≠ [] →
      build .value (.array before :: opened) (itemSymbols vs ++ .closeArray :: ss) =
        build (.behind (.array (before.reverse ++ vs))) opened ss
  | [], h => absurd rfl h
  | [v], _ => by
    rw [itemSymbols, build_symbols _ _ v, build, List.reverse_cons]
  | v :: w :: ws, _ => by
    rw [itemSymbols, List.append_assoc, build_symbols _ _ v, List.cons_append, build,
      build_itemSymbols opened ss (v :: before) (w :: ws) (by simp)]
    simp

theorem build_memberSymbols (opened : List Frame) (ss : List Symbol) (before : List Member) :
    ∀ ms : List (Option String × Json), ms ≠ [] →
      build (.member before) opened (memberSymbols ms ++ .closeObject :: ss) =
        build (.behind (.object (before.reverse ++ ms))) opened ss
  | [], h => absurd rfl h
  | [(k, v)], _ => by
    rw [memberSymbols, List.cons_append, List.cons_append, build, build_symbols _ _ v, build,
      List.reverse_cons]
  | (k, v) :: m :: ms, _ => by
    have ih := build_memberSymbols opened ss ((k, v) :: before) (m :: ms) (by simp)
    rw [memberSymbols, List.cons_append, List.cons_append, List.cons_append, List.cons_append,
      build, List.append_assoc, build_symbols _ _ v, List.cons_append, build, ih]
    simp

end

/-- Reading the symbols of a value gives the value back. -/
theorem ofSymbols?_symbols (v : Json) : ofSymbols? v.symbols = some v := by
  have h := build_symbols [] [] v
  rw [List.append_nil] at h
  rw [ofSymbols?, h]
  simp [build]

end Lox.Json

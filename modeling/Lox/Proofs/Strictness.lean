import Lox.Proofs.Grammar
import Mathlib.Data.List.TakeWhile

/-!
# Nothing else is read

The texts that are read as a value are exactly its spellings. A point without digits, a zero in
front of other digits, a control character in a string, an unknown escape, a comma at the end of an
array or anything but blanks behind the value: in each of these the text has no spelling, and it is
not read.

The arrays and objects that are still open when a symbol is read are the invariant of the reading:
what they hold so far, and what comes next, has been written in front of the symbols that are left.
-/

namespace Lox.Json

/-! ## Numbers -/

namespace Number

variable {cs ds rest : List Char}

theorem digits?_eq_some (h : digits? cs = some (ds, rest)) : IsDigits ds ∧ cs = ds ++ rest := by
  unfold digits? at h
  split at h
  · exact absurd h (by simp)
  · next d tail ht =>
    obtain ⟨rfl, rfl⟩ := Prod.mk.inj (Option.some.inj h)
    rw [← ht]
    refine ⟨⟨by simp [ht], fun c hc => List.mem_takeWhile_imp hc⟩, ?_⟩
    exact List.takeWhile_append_dropWhile.symm

theorem whole?_eq_some (h : whole? cs = some (ds, rest)) : Whole ds ∧ cs = ds ++ rest := by
  unfold whole? at h
  split at h
  · obtain ⟨rfl, rfl⟩ := Prod.mk.inj (Option.some.inj h)
    exact ⟨.zero, rfl⟩
  · next hzero =>
    obtain ⟨hds, rfl⟩ := digits?_eq_some h
    refine ⟨.digits hds ?_, rfl⟩
    intro hhead
    obtain ⟨tail, rfl⟩ := List.head?_eq_some_iff.mp hhead
    exact hzero (tail ++ rest) rfl

theorem fraction?_eq_some (h : fraction? cs = some (ds, rest)) :
    ∃ fs, Fraction ds fs ∧ cs = fs ++ rest := by
  unfold fraction? at h
  split at h
  · obtain ⟨hds, rfl⟩ := digits?_eq_some h
    exact ⟨_, .present hds, rfl⟩
  · obtain ⟨rfl, rfl⟩ := Prod.mk.inj (Option.some.inj h)
    exact ⟨[], .absent, rfl⟩

theorem power?_eq_some {e : Int} (h : power? cs = some (e, rest)) :
    ∃ es, Power e es ∧ cs = es ++ rest := by
  unfold power? at h
  split at h
  all_goals
    obtain ⟨⟨ds, tail⟩, hds, heq⟩ := Option.map_eq_some_iff.mp h
    obtain ⟨rfl, rfl⟩ := Prod.mk.inj heq
    obtain ⟨hdigits, rfl⟩ := digits?_eq_some hds
  · exact ⟨_, .minus hdigits, rfl⟩
  · exact ⟨_, .plus hdigits, rfl⟩
  · exact ⟨_, .bare hdigits, rfl⟩

theorem exponent?_eq_some {e : Option Int} (h : exponent? cs = some (e, rest)) :
    ∃ es, Exponent e es ∧ cs = es ++ rest := by
  unfold exponent? at h
  split at h
  · obtain ⟨⟨e', tail⟩, hp, heq⟩ := Option.map_eq_some_iff.mp h
    obtain ⟨rfl, rfl⟩ := Prod.mk.inj heq
    obtain ⟨es, hes, rfl⟩ := power?_eq_some hp
    exact ⟨_, .present (.inl rfl) hes, rfl⟩
  · obtain ⟨⟨e', tail⟩, hp, heq⟩ := Option.map_eq_some_iff.mp h
    obtain ⟨rfl, rfl⟩ := Prod.mk.inj heq
    obtain ⟨es, hes, rfl⟩ := power?_eq_some hp
    exact ⟨_, .present (.inr rfl) hes, rfl⟩
  · obtain ⟨rfl, rfl⟩ := Prod.mk.inj (Option.some.inj h)
    exact ⟨[], .absent, rfl⟩

theorem unsigned?_eq_some {negative : Bool} {n : Numeral}
    (h : unsigned? negative cs = some (n, rest)) :
    ∃ ns, cs = ns ++ rest ∧ Spelled n ((if negative then ['-'] else []) ++ ns) := by
  unfold unsigned? at h
  split at h
  · exact absurd h (by simp)
  · next hw =>
    split at h
    · exact absurd h (by simp)
    · next hf =>
      split at h
      · exact absurd h (by simp)
      · next he =>
        obtain ⟨rfl, rfl⟩ := Prod.mk.inj (Option.some.inj h)
        obtain ⟨hwhole, rfl⟩ := whole?_eq_some hw
        obtain ⟨fs, hfraction, rfl⟩ := fraction?_eq_some hf
        obtain ⟨es, hexponent, rfl⟩ := exponent?_eq_some he
        refine ⟨_, ?_, .mk negative hwhole hfraction hexponent⟩
        simp only [List.append_assoc]

theorem read?_eq_some {n : Numeral} (h : read? cs = some (n, rest)) :
    ∃ ns, Spelled n ns ∧ cs = ns ++ rest := by
  unfold read? at h
  split at h
  · obtain ⟨ns, rfl, hn⟩ := unsigned?_eq_some h
    exact ⟨_, hn, rfl⟩
  · obtain ⟨ns, rfl, hn⟩ := unsigned?_eq_some h
    exact ⟨_, hn, rfl⟩

end Number

/-! ## Strings -/

namespace Quoted

theorem toNat_lt_of_hexValue? {c : Char} {v : Nat} (h : Digits.hexValue? c = some v) :
    c.toNat < 128 := by
  have hle : ∀ d : Char, c ≤ d → c.toNat ≤ d.toNat := fun d hd => UInt32.le_iff_toNat_le.mp hd
  unfold Digits.hexValue? at h
  split at h
  · next hc => exact Nat.lt_of_le_of_lt (hle _ hc.2) (by decide)
  · split at h
    · next hc => exact Nat.lt_of_le_of_lt (hle _ hc.2) (by decide)
    · split at h
      · next hc => exact Nat.lt_of_le_of_lt (hle _ hc.2) (by decide)
      · exact absurd h (by simp)

theorem isHex_of_hexValue? {c : Char} {v : Nat} (h : Digits.hexValue? c = some v) : IsHex v c := by
  have hall : ∀ n < 128, ∀ v ∈ Digits.hexValue? (Char.ofNat n),
      v < 16 ∧ (Char.ofNat n = Nat.digitChar v ∨ Char.ofNat n = (Nat.digitChar v).toUpper) := by
    decide +kernel
  have hc := hall c.toNat (toNat_lt_of_hexValue? h) v
  rw [Char.ofNat_toNat] at hc
  exact hc h

theorem item_of_ofHex? {a b c d : Char} {n : Nat} (h : Digits.ofHex? [a, b, c, d] = some n) :
    (Item.unit n).Spelled ['\\', 'u', a, b, c, d] := by
  simp only [Digits.ofHex?, List.foldlM_cons, List.foldlM_nil, Option.bind_eq_bind,
    Option.bind_eq_some_iff, Option.map_eq_some_iff, Option.pure_def, Option.some.injEq] at h
  obtain ⟨_, ⟨w, hw, rfl⟩, _, ⟨x, hx, rfl⟩, _, ⟨y, hy, rfl⟩, _, ⟨z, hz, rfl⟩, rfl⟩ := h
  have hitem := Item.Spelled.digits (isHex_of_hexValue? hw) (isHex_of_hexValue? hx)
    (isHex_of_hexValue? hy) (isHex_of_hexValue? hz)
  rwa [Nat.mul_zero, Nat.zero_add]

theorem itemsAfter_eq_some {before items : List Item} {cs rest : List Char}
    (h : itemsAfter before cs = some (items, rest)) :
    ∃ more body, items = before.reverse ++ more ∧ ItemsSpelled more body ∧
      cs = body ++ '"' :: rest := by
  fun_induction itemsAfter before cs with
  | case1 before rest' =>
    obtain ⟨rfl, rfl⟩ := Prod.mk.inj (Option.some.inj h)
    exact ⟨[], [], (List.append_nil _).symm, .nil, rfl⟩
  | case2 before a b c d tail n hn ih =>
    obtain ⟨more, body, rfl, hmore, rfl⟩ := ih h
    refine ⟨.unit n :: more, _, ?_, .cons (item_of_ofHex? hn) hmore, rfl⟩
    rw [List.reverse_cons, List.append_assoc, List.singleton_append]
  | case3 => exact absurd h (by simp)
  | case4 before e tail hne c hc ih =>
    obtain ⟨more, body, rfl, hmore, rfl⟩ := ih h
    refine ⟨.char c :: more, _, ?_, .cons (.short hc) hmore, rfl⟩
    rw [List.reverse_cons, List.append_assoc, List.singleton_append]
  | case5 => exact absurd h (by simp)
  | case6 => exact absurd h (by simp)
  | case7 before c tail h1 h2 h3 hspace ih =>
    obtain ⟨more, body, rfl, hmore, rfl⟩ := ih h
    have hback : c ≠ '\\' := by
      intro hc
      obtain ⟨e, tail, htail⟩ : ∃ e tail, body ++ '"' :: rest = e :: tail :=
        List.exists_cons_of_ne_nil (by simp)
      exact h3 e tail hc htail
    refine ⟨.char c :: more, _, ?_, .cons (.raw hspace h1 hback) hmore, rfl⟩
    rw [List.reverse_cons, List.append_assoc, List.singleton_append]
  | case8 => exact absurd h (by simp)

theorem read?_eq_some {cs rest : List Char} {t : Option String} (h : read? cs = some (t, rest)) :
    ∃ body, Spelled t ('"' :: (body ++ ['"'])) ∧ cs = body ++ '"' :: rest := by
  unfold read? at h
  split at h
  · next items tail hitems =>
    obtain ⟨rfl, rfl⟩ := Prod.mk.inj (Option.some.inj h)
    obtain ⟨more, body, hmore, hspelled, rfl⟩ := itemsAfter_eq_some hitems
    rw [List.reverse_nil, List.nil_append] at hmore
    rw [← hmore] at hspelled
    refine ⟨body, ?_, rfl⟩
    cases ht : textAfter "" items with
    | some s =>
      obtain ⟨cs, hcs⟩ := exists_denotes hspelled.unit_lt ht
      have hsame := hcs.textAfter ""
      rw [String.empty_append, ht] at hsame
      rw [hsame]
      exact .text hspelled hcs
    | none =>
      refine .noText hspelled fun cs hcs => ?_
      rw [hcs.textAfter] at ht
      exact absurd ht (by simp)
  · exact absurd h (by simp)

end Quoted

/-! ## Symbols -/

namespace Symbol

theorem read?_eq_some {cs rest : List Char} {s : Symbol} (h : read? cs = some (s, rest)) :
    ∃ text, s.Spelled text ∧ cs = text ++ rest := by
  unfold read? at h
  split at h
  case h_10 =>
    obtain ⟨⟨t, tail⟩, ht, heq⟩ := Option.map_eq_some_iff.mp h
    obtain ⟨rfl, rfl⟩ := Prod.mk.inj heq
    obtain ⟨body, hbody, rfl⟩ := Quoted.read?_eq_some ht
    refine ⟨_, .string hbody, ?_⟩
    rw [List.cons_append, List.append_assoc, List.singleton_append]
  case h_11 =>
    obtain ⟨⟨n, tail⟩, hn, heq⟩ := Option.map_eq_some_iff.mp h
    obtain ⟨rfl, rfl⟩ := Prod.mk.inj heq
    obtain ⟨ns, hns, rfl⟩ := Number.read?_eq_some hn
    exact ⟨ns, .number hns, rfl⟩
  all_goals
    obtain ⟨rfl, rfl⟩ := Prod.mk.inj (Option.some.inj h)
    exact ⟨_, .mark rfl, rfl⟩

theorem Written.cons_blank {ss : List Symbol} {text : List Char} {c : Char} (hc : isBlank c = true)
    (h : Written ss text) : Written ss (c :: text) := by
  cases h with
  | nil hb => exact .nil (List.forall_mem_cons.mpr ⟨hc, hb⟩)
  | cons hb hs ht =>
    rw [← List.cons_append]
    exact .cons (List.forall_mem_cons.mpr ⟨hc, hb⟩) hs ht

theorem readAllAfter_eq_some {before : Array Symbol} {cs : List Char} {ss : List Symbol}
    (h : readAllAfter before cs = some ss) :
    ∃ more, ss = before.toList ++ more ∧ Written more cs := by
  fun_induction readAllAfter before cs with
  | case1 before =>
    obtain rfl := Option.some.inj h
    exact ⟨[], (List.append_nil _).symm, .nil (List.forall_mem_nil _)⟩
  | case2 before c rest hc ih =>
    obtain ⟨more, rfl, hmore⟩ := ih h
    exact ⟨more, rfl, hmore.cons_blank hc⟩
  | case3 before c rest hc s tail hread ih =>
    obtain ⟨more, rfl, hmore⟩ := ih h
    obtain ⟨text, htext, heq⟩ := read?_eq_some hread
    refine ⟨s :: more, by simp, ?_⟩
    have hwritten : Written (s :: more) ([] ++ (text ++ tail)) :=
      .cons (List.forall_mem_nil _) htext hmore
    rwa [List.nil_append, ← heq] at hwritten
  | case4 => exact absurd h (by simp)

/-- The symbols of a text are written in it. -/
theorem written_of_readAll {cs : List Char} {ss : List Symbol} (h : readAll cs = some ss) :
    Written ss cs := by
  obtain ⟨more, rfl, hmore⟩ := readAllAfter_eq_some h
  exact hmore

end Symbol

/-! ## Values -/

/-- The symbols of items or members, each with the comma that follows it. -/
def separated (parts : List (List Symbol)) : List Symbol := parts.flatMap fun ss => ss ++ [.comma]

/-- The symbols of a member. -/
def Member.symbols (m : Member) : List Symbol := .string m.1 :: .colon :: m.2.symbols

theorem separated_append (parts : List (List Symbol)) (ss : List Symbol) :
    separated (parts ++ [ss]) = separated parts ++ (ss ++ [.comma]) := by
  simp [separated]

theorem itemSymbols_append (vs : List Json) (v : Json) :
    itemSymbols (vs ++ [v]) = separated (vs.map Json.symbols) ++ v.symbols := by
  induction vs with
  | nil => rfl
  | cons w vs ih =>
    obtain ⟨u, us, hu⟩ : ∃ u us, vs ++ [v] = u :: us := List.exists_cons_of_ne_nil (by simp)
    rw [hu] at ih
    rw [List.cons_append, hu, itemSymbols, ih]
    simp [separated]

theorem memberSymbols_append (ms : List Member) (m : Member) :
    memberSymbols (ms ++ [m]) = separated (ms.map Member.symbols) ++ m.symbols := by
  induction ms with
  | nil => rfl
  | cons n ms ih =>
    obtain ⟨u, us, hu⟩ : ∃ u us, ms ++ [m] = u :: us := List.exists_cons_of_ne_nil (by simp)
    obtain ⟨k, w⟩ := n
    rw [hu] at ih
    rw [List.cons_append, hu, memberSymbols, ih]
    simp [separated, Member.symbols]

/-- What has been read of an array or object that is still open. -/
def Frame.symbols : Frame → List Symbol
  | .array items => .openArray :: separated (items.reverse.map Json.symbols)
  | .object members k =>
    .openObject :: separated (members.reverse.map Member.symbols) ++ [.string k, .colon]

/-- What has been read of everything that is open, the outermost first. -/
def openedSymbols (opened : List Frame) : List Symbol := opened.reverse.flatMap Frame.symbols

theorem openedSymbols_cons (f : Frame) (opened : List Frame) :
    openedSymbols (f :: opened) = openedSymbols opened ++ f.symbols := by
  simp [openedSymbols]

/-- What has been read inside of the innermost one. -/
def Expected.symbols : Expected → List Symbol
  | .value => []
  | .member before => .openObject :: separated (before.reverse.map Member.symbols)
  | .behind v => v.symbols

/--
What is read is written: by what is open, by what has been read inside of it, and by the symbols
that are left.
-/
theorem build_eq_some {e : Expected} {opened : List Frame} {ss : List Symbol} {v : Json}
    (h : build e opened ss = some v) :
    v.symbols = openedSymbols opened ++ (e.symbols ++ ss) := by
  fun_induction build e opened ss with
  | case1 opened ss ih => exact ih h
  | case2 opened b ss ih => exact ih h
  | case3 opened n ss ih => exact ih h
  | case4 opened t ss ih => exact ih h
  | case5 opened ss ih => exact ih h
  | case6 opened ss _ ih =>
    rw [ih h, openedSymbols_cons]
    simp [Frame.symbols, Expected.symbols, separated]
  | case7 opened ss ih => exact ih h
  | case8 opened ss _ ih => exact ih h
  | case9 before opened k ss ih =>
    rw [ih h, openedSymbols_cons]
    simp [Frame.symbols, Expected.symbols]
  | case10 v items opened ss ih =>
    rw [ih h, openedSymbols_cons, openedSymbols_cons]
    simp [Frame.symbols, Expected.symbols, separated_append]
  | case11 v items opened ss ih =>
    rw [ih h, openedSymbols_cons]
    simp [Frame.symbols, Expected.symbols, Json.symbols, itemSymbols_append]
  | case12 v members k opened ss ih =>
    rw [ih h, openedSymbols_cons]
    simp [Frame.symbols, Expected.symbols, separated_append, Member.symbols]
  | case13 v members k opened ss ih =>
    rw [ih h, openedSymbols_cons]
    simp [Frame.symbols, Expected.symbols, Json.symbols, memberSymbols_append, Member.symbols]
  | case14 w =>
    obtain rfl := Option.some.inj h
    simp [openedSymbols, Expected.symbols]
  | case15 => exact absurd h (by simp)

/-- The symbols of which a value is built are those of the value. -/
theorem symbols_of_ofSymbols? {ss : List Symbol} {v : Json} (h : ofSymbols? ss = some v) :
    v.symbols = ss := build_eq_some h

/-- **A text is read as a value if and only if it spells the value.** -/
theorem read?_eq_some_iff {text : String} {v : Json} : read? text = some v ↔ v.Spelled text := by
  refine ⟨?_, fun h => h.read?⟩
  intro h
  obtain ⟨ss, hss, hv⟩ := Option.bind_eq_some_iff.mp h
  obtain rfl := symbols_of_ofSymbols? hv
  exact Symbol.written_of_readAll hss

end Lox.Json

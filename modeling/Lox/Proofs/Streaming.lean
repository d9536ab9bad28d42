import Lox.Handler.Session
import Mathlib

/-!
# Writing to a sink delivers a beginning of the rendered text

Diagnostics can be rendered to one text, or written to a sink part by part. The parts are many and
small, some are empty, and the sink may take each of them in portions. None of this shows in what is
delivered: it is the UTF-8 form of the rendered text, cut off where the sink is full, be that within
a part, within a character or exactly at the end.

So the number of bytes that the sink has room for decides everything. `Sink.writeAll_eq` says so for
one run of bytes, and then writing part after part is writing their bytes in one go.
-/

namespace Lox

/-- Bytes could not be written. The other failure is that of a sink that has taken all of them. -/
def WriteError.isOfWriting : WriteError → Bool
  | failed _ => true
  | tookNothing => true
  | notPassedOn _ => false

namespace Sink

/-- How many of `n` bytes the sink still takes. -/
def capacity (s : Sink) (n : Nat) : Nat :=
  match s.room with
  | none => n
  | some limit => min limit n

/-- What a full sink makes of bytes that it is offered. -/
def refused (s : Sink) : WriteError :=
  match s.refusal with
  | .fails => .failed s.failure
  | .takesNothing => .tookNothing

/-- The sink is full before it has taken `n` bytes. -/
def FullBefore (s : Sink) (n : Nat) : Prop := ∃ limit, s.room = some limit ∧ limit < n

theorem capacity_lt_iff {s : Sink} {n : Nat} : s.capacity n < n ↔ s.FullBefore n := by
  unfold capacity FullBefore
  cases s.room with
  | none => simp
  | some limit =>
    show min limit n < n ↔ ∃ limit', some limit = some limit' ∧ limit' < n
    refine ⟨fun h => ⟨limit, rfl, by omega⟩, ?_⟩
    rintro ⟨limit', hlimit, h⟩
    obtain rfl := Option.some.inj hlimit
    omega

theorem take_nil (s : Sink) : s.take [] = s := by simp [take]

theorem take_take (s : Sink) (as bs : List UInt8) : (s.take as).take bs = s.take (as ++ bs) := by
  simp [take, Function.comp_def, Nat.sub_sub]

/-- What has been taken is no longer room. -/
theorem capacity_take (s : Sink) (as : List UInt8) (n : Nat) :
    (s.take as).capacity (n - as.length) = s.capacity n - as.length := by
  unfold capacity take
  cases s.room with
  | none => simp
  | some limit => simp; omega

theorem accepted_eq (s : Sink) (bytes : List UInt8) :
    s.accepted bytes = min (s.capacity bytes.length) (max 1 (s.portion s.taken bytes)) := by
  unfold accepted capacity
  cases s.room with
  | none => simp
  | some limit => simp [Nat.min_comm]

theorem capacity_le (s : Sink) (n : Nat) : s.capacity n ≤ n := by
  unfold capacity
  split <;> omega

theorem capacity_mono (s : Sink) {m n : Nat} (h : m ≤ n) : s.capacity m ≤ s.capacity n := by
  unfold capacity
  split <;> omega

/-- A sink that is full before it has taken `m` bytes takes no more of longer runs. -/
theorem capacity_of_lt {s : Sink} {m n : Nat} (h : s.capacity m < m) (hmn : m ≤ n) :
    s.capacity n = s.capacity m := by
  unfold capacity at *
  split at h <;> omega

/-! ## One run of bytes -/

/-- What a sink may answer to bytes, and the sink after it: it takes some unless it is full. -/
inductive IsWrite (s : Sink) (bytes : List UInt8) : Except WriteError Nat × Sink → Prop
  | took {n : Nat} : 0 < n → n ≤ s.capacity bytes.length →
      IsWrite s bytes (.ok n, s.take (bytes.take n))
  | failed : s.capacity bytes.length = 0 → s.refused = .failed s.failure →
      IsWrite s bytes (.error (.failed s.failure), s)
  | tookNothing : s.capacity bytes.length = 0 → s.refused = .tookNothing →
      IsWrite s bytes (.ok 0, s)

theorem isWrite_write {s : Sink} {bytes : List UInt8} (h : bytes ≠ []) :
    s.IsWrite bytes (s.write bytes) := by
  have hlen := List.length_pos_iff.mpr h
  have haccepted := s.accepted_eq bytes
  rw [write]
  rcases Nat.eq_zero_or_pos (s.accepted bytes) with hn | hn
  · -- a portion is at least one byte, so there is no room
    have hcap : s.capacity bytes.length = 0 := by omega
    rw [hn]
    cases hr : s.refusal with
    | fails => exact .failed hcap (by rw [refused, hr])
    | takesNothing =>
      show s.IsWrite bytes (.ok 0, s.take [])
      rw [take_nil]
      exact .tookNothing hcap (by rw [refused, hr])
  · have hle : s.accepted bytes ≤ s.capacity bytes.length := by omega
    split
    · omega
    · exact .took hn hle

/-- Offered again and again, as many bytes are taken as there is room for, whatever the portions. -/
theorem writeAll_eq (s : Sink) (bytes : List UInt8) :
    s.writeAll bytes = (if s.capacity bytes.length < bytes.length then some s.refused else none,
      s.take (bytes.take (s.capacity bytes.length))) := by
  fun_induction writeAll s bytes with
  | case1 s => simp [capacity, take_nil]
  | case2 s bytes hne e s' hw =>
    have h := isWrite_write (s := s) hne
    rw [hw] at h
    cases h with
    | failed hcap hr =>
      rw [hcap, if_pos (List.length_pos_iff.mpr hne), List.take_zero, take_nil, hr]
  | case3 s bytes hne s' hw =>
    have h := isWrite_write (s := s) hne
    rw [hw] at h
    cases h with
    | took hn _ => exact absurd hn (Nat.lt_irrefl 0)
    | tookNothing hcap hr =>
      rw [hcap, if_pos (List.length_pos_iff.mpr hne), List.take_zero, take_nil, hr]
  | case4 s bytes hne n s' hw ih =>
    have h := isWrite_write (s := s) hne
    rw [hw] at h
    cases h with
    | took _ hle =>
      have hlen : (bytes.take (n + 1)).length = n + 1 := by
        have := s.capacity_le bytes.length
        rw [List.length_take]
        omega
      have hcap := s.capacity_take (bytes.take (n + 1)) bytes.length
      rw [hlen] at hcap
      rw [ih, List.length_drop, hcap, take_take, ← List.take_add, Nat.add_sub_cancel' hle]
      -- what is left over and what there is room for have both shrunk by the portion
      have hiff : s.capacity bytes.length - (n + 1) < bytes.length - (n + 1) ↔
          s.capacity bytes.length < bytes.length := by omega
      simp only [hiff]
      rfl

/-! ## One run after the other -/

theorem writeAll_append (s : Sink) (as bs : List UInt8) :
    s.writeAll (as ++ bs) = match s.writeAll as with
      | (none, s') => s'.writeAll bs
      | (some e, s') => (some e, s') := by
  have hle : as.length ≤ (as ++ bs).length := by simp
  have hmono := s.capacity_mono hle
  rw [writeAll_eq, writeAll_eq s as]
  by_cases h : s.capacity as.length < as.length
  · -- the sink is full before the second run begins
    have hcap := capacity_of_lt h hle
    rw [if_pos h, if_pos (by omega), hcap, List.take_append_of_le_length (Nat.le_of_lt h)]
  · -- the second run begins with the room that the first has left
    have hall : s.capacity as.length = as.length := by
      have := s.capacity_le as.length
      omega
    have hcap := s.capacity_take as (as ++ bs).length
    have hlen : (as ++ bs).length - as.length = bs.length := by simp
    rw [hlen] at hcap
    rw [if_neg h, hall, List.take_length]
    dsimp only
    rw [writeAll_eq, hcap, take_take, List.take_append, List.take_of_length_le (by omega)]
    have hiff : s.capacity (as ++ bs).length - as.length < bs.length ↔
        s.capacity (as ++ bs).length < (as ++ bs).length := by omega
    simp only [hiff]
    rfl

/-- Writing texts one after the other is writing their bytes in one go. -/
theorem writeTexts_eq (s : Sink) (ts : List String) :
    s.writeTexts ts = s.writeAll (ts.flatMap Bytes.ofText) := by
  induction ts generalizing s with
  | nil => rw [writeTexts, List.flatMap_nil, writeAll, if_pos rfl]
  | cons t ts ih =>
    rw [writeTexts, List.flatMap_cons, writeAll_append]
    cases s.writeAll (Bytes.ofText t) with
    | mk e s' =>
      cases e with
      | none => exact ih s'
      | some e => rfl

end Sink

theorem Bytes.ofText_join (ts : List String) :
    Bytes.ofText (String.join ts) = ts.flatMap Bytes.ofText := by
  induction ts with
  | nil => rfl
  | cons t ts ih => rw [String.join_cons, Bytes.ofText_append, ih, List.flatMap_cons]

namespace Handler

/-- The parts that are written, put together, are the rendered text. -/
theorem flatMap_parts (h : Handler) :
    (h.diagnostics.toList.flatMap fun d => d.parts ++ ["\n"]).flatMap Bytes.ofText =
      Bytes.ofText h.render := by
  rw [← Bytes.ofText_join, render]
  congr 1
  induction h.diagnostics.toList with
  | nil => rfl
  | cons d ds ih =>
    rw [List.flatMap_cons, List.map_cons, String.join_append, String.join_append, d.join_parts, ih,
      String.join_cons, String.join_cons, String.join_nil, String.append_empty]

/-- Writing the parts one after the other is writing the rendered text in one go. -/
theorem writeTo_eq (h : Handler) (s : Sink) :
    h.writeTo s = match s.writeAll (Bytes.ofText h.render) with
      | (none, s') => s'.flush
      | (some e, s') => (some e, s') := by
  show (match s.writeTexts (h.diagnostics.toList.flatMap fun d => d.parts ++ ["\n"]) with
      | (none, s') => s'.flush
      | (some e, s') => (some e, s')) = _
  rw [Sink.writeTexts_eq, flatMap_parts]

end Handler

/-! ## What is delivered -/

/-- How writing `bytes` to the sink `s` may end: with `e`, and with the sink `s'`. -/
structure Sink.Delivered (s : Sink) (bytes : List UInt8) (e : Option WriteError) (s' : Sink) :
    Prop where
  /-- As many of the bytes as there is room for have been taken, from the first one on. -/
  taken : s'.taken = s.taken ++ bytes.take (s.capacity bytes.length)
  isOfWriting_iff : (∃ e', e = some e' ∧ e'.isOfWriting = true) ↔ s.FullBefore bytes.length
  /-- A sink that is full says why, and is not asked to pass anything on. -/
  cut : s.FullBefore bytes.length → s'.flushed = s.flushed ∧
    e.map WriteError.reason = some (match s.refusal with
      | .fails => s.failure
      | .takesNothing => "failed to write whole buffer")
  /-- A sink that has taken everything is asked to pass it on, and nothing else can go wrong. -/
  complete : ¬ s.FullBefore bytes.length → s'.flushed = true ∧
    e = if s.flushFails then some (.notPassedOn s.flushFailure) else none

theorem Sink.isOfWriting_refused (s : Sink) : s.refused.isOfWriting = true := by
  unfold refused
  split <;> rfl

theorem Sink.reason_refused (s : Sink) :
    s.refused.reason = match s.refusal with
      | .fails => s.failure
      | .takesNothing => "failed to write whole buffer" := by
  unfold refused
  split <;> rfl

/--
**Writing delivers a beginning of the rendered text.** It is as long as the sink has room for. If
that is not all of it, writing fails as the sink refuses the next byte; otherwise only passing on
what was taken can fail. The handler stays as it is.
-/
theorem writeTo_delivers_render (h : Handler) (s : Sink) :
    s.Delivered (Bytes.ofText h.render) (h.writeTo s).1 (h.writeTo s).2 ∧
      h.perform (.write s) = (.written (h.writeTo s).2 (h.writeTo s).1, h) := by
  refine ⟨?_, rfl⟩
  rw [Handler.writeTo_eq, Sink.writeAll_eq]
  by_cases hfull : s.FullBefore (Bytes.ofText h.render).length
  · rw [if_pos (Sink.capacity_lt_iff.mpr hfull)]
    refine ⟨rfl, ⟨fun _ => hfull, fun _ => ⟨_, rfl, s.isOfWriting_refused⟩⟩, fun _ => ⟨rfl, ?_⟩,
      fun hn => absurd hfull hn⟩
    exact congrArg some s.reason_refused
  · have hcap := mt Sink.capacity_lt_iff.mp hfull
    rw [if_neg hcap]
    refine ⟨rfl, ⟨?_, fun hf => absurd hf hfull⟩, fun hf => absurd hf hfull, fun _ => ⟨rfl, rfl⟩⟩
    rintro ⟨e, he, hw⟩
    exfalso
    simp only [Sink.flush] at he
    split at he
    · rw [← Option.some.inj he] at hw
      exact absurd hw (by simp [WriteError.isOfWriting])
    · exact absurd he (by simp)

-- the sink is full after the first of the two bytes of a character
example : Bytes.shown (Handler.writeTo ⟨false, #[⟨.error, "é", 1, none, none⟩]⟩
    { room := some 17, portion := fun _ _ => 4 }).2.taken = "[line 1] Error: \uFFFD" := by cbv

end Lox

import Lox.Handler.Basic
import Lox.Text.Bytes

/-!
# Writing diagnostics to a sink

A sink takes bytes. It may take fewer than it is offered, and it may have room for only so many;
when it is full it either fails or takes nothing. What was taken stays taken, so after a failure
the sink holds a beginning of what was to be written.

A diagnostic is written in the parts that its shown form is made of, each offered on its own. So a
failure may come between two parts as well as within one, even inside a character.
-/

namespace Lox

/-- Why writing came to an end early. -/
inductive WriteError where
  /-- The sink failed to take bytes, for a reason of its own. -/
  | failed (reason : String)
  /-- The sink took none of the bytes it was offered. -/
  | tookNothing
  /-- The sink failed to pass on what it had taken, for a reason of its own. -/
  | notPassedOn (reason : String)
deriving DecidableEq, Repr

namespace WriteError

/-- The reason in words. -/
def reason : WriteError → String
  | failed reason => reason
  | tookNothing => "failed to write whole buffer"
  | notPassedOn reason => reason

/-- What is said when diagnostics could not be written. -/
def message (e : WriteError) : String := "Failed to write diagnostics: " ++ e.reason

end WriteError

/-- How a full sink treats bytes that it is offered. -/
inductive Refusal where
  | fails
  | takesNothing
deriving DecidableEq, Repr

/-- Something that takes bytes. -/
structure Sink where
  /-- The bytes taken so far. -/
  taken : List UInt8 := []
  /-- How many more bytes the sink takes; without a number it takes all. -/
  room : Option Nat := none
  /--
  How many of the bytes it is offered the sink takes at once, if it has room for them. This may
  depend on all that it has taken before.
  -/
  portion : List UInt8 → List UInt8 → Nat := fun _ offered => offered.length
  refusal : Refusal := .takesNothing
  /-- What the sink says when it fails to take bytes. -/
  failure : String := "disk full"
  flushFails : Bool := false
  /-- What the sink says when it fails to pass on what it has taken. -/
  flushFailure : String := "pipe closed"
  /-- The sink has been asked to pass on what it has taken. -/
  flushed : Bool := false

namespace Sink

/-- How many of some bytes are taken at once: at least one as long as there is room. -/
def accepted (s : Sink) (bytes : List UInt8) : Nat :=
  min (min bytes.length (s.room.getD bytes.length)) (max 1 (s.portion s.taken bytes))

/-- The sink after taking some bytes. -/
def take (s : Sink) (bytes : List UInt8) : Sink :=
  { s with taken := s.taken ++ bytes, room := s.room.map (· - bytes.length) }

/-- Offers bytes to the sink, which takes some of them. -/
def write (s : Sink) (bytes : List UInt8) : Except WriteError Nat × Sink :=
  match s.accepted bytes, s.refusal with
  | 0, .fails => (.error (.failed s.failure), s)
  | n, _ => (.ok n, s.take (bytes.take n))

/-- Offers bytes again and again until all are taken. No bytes are never offered. -/
def writeAll (s : Sink) (bytes : List UInt8) : Option WriteError × Sink :=
  if bytes = [] then (none, s)
  else
    match s.write bytes with
    | (.error e, s') => (some e, s')
    | (.ok 0, s') => (some .tookNothing, s')
    | (.ok (n + 1), s') => s'.writeAll (bytes.drop (n + 1))
termination_by bytes.length
decreasing_by
  have : 0 < bytes.length := List.length_pos_iff.2 ‹_›
  rw [List.length_drop]
  omega

/-- Writes pieces of text one after the other, up to the first failure. -/
def writeTexts (s : Sink) : List String → Option WriteError × Sink
  | [] => (none, s)
  | t :: ts =>
    match s.writeAll (Bytes.ofText t) with
    | (none, s') => s'.writeTexts ts
    | (some e, s') => (some e, s')

/-- Asks the sink to pass on what it has taken. -/
def flush (s : Sink) : Option WriteError × Sink :=
  (if s.flushFails then some (.notPassedOn s.flushFailure) else none, { s with flushed := true })

end Sink

/--
Writes all diagnostics to a sink, each followed by a line feed, and flushes the sink unless
writing failed.
-/
def Handler.writeTo (h : Handler) (s : Sink) : Option WriteError × Sink :=
  match s.writeTexts (h.diagnostics.toList.flatMap fun d => d.parts ++ ["\n"]) with
  | (none, s') => s'.flush
  | (some e, s') => (some e, s')

end Lox

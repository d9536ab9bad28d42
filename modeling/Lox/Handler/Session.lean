import Lox.Handler.Sink
import Lox.Scan.Reporting

/-!
# A handler over time

The operations on a handler, one after the other. An operation that is halted is given up, and
the next one finds the handler as the halted one left it.
-/

namespace Lox.Handler

/-- An operation on a handler. -/
inductive Operation where
  | error (line : Nat) (message : String)
  | emit (d : Diagnostic)
  | build (draft : Draft)
  /-- Scans a text and reports its faults. -/
  | scan (source : String)
  /-- Scans a text on its own, and then reports the faults of the scan. -/
  | report (source : String)
  /-- Reports the faults of a scan that was made before. -/
  | reportScanned (s : Scanned)
  | diagnostics
  | render
  | write (s : Sink)
  | clear

/-- What an operation answers. -/
inductive Reply where
  | done
  | halted (halt : Halt)
  /-- The tokens of a text, unless a string is never closed. -/
  | tokens (ts : Option (List Token))
  | clean (isClean : Bool)
  | fault (e : ScanError)
  | diagnostics (ds : List Diagnostic)
  | text (s : String)
  /-- The sink after writing, and what went wrong. -/
  | written (s : Sink) (e : Option WriteError)

/-- The reply to something that may be halted. -/
def Halting.reply {α : Type} (answer : α → Reply) : Halting α → Reply × Handler
  | (.ok a, h) => (answer a, h)
  | (.error halt, h) => (.halted halt, h)

/-- The reply to an operation, and the handler after it. -/
def perform (h : Handler) : Operation → Reply × Handler
  | .error line message => Halting.reply (fun _ => .done) (orHalt () (h.error line message))
  | .emit d => Halting.reply (fun _ => .done) (orHalt () (h.emit d))
  | .build draft => Halting.reply (fun _ => .done) (orHalt () (h.emit draft.finish))
  | .scan source => Halting.reply .tokens (h.scan source)
  | .report source =>
    match Lox.scan source with
    | .ok s => Halting.reply .clean (orHalt s.isClean (s.report h))
    | .error e => (.fault e, h)
  | .reportScanned s => Halting.reply (fun _ => .done) (orHalt () (s.report h))
  | .diagnostics => (.diagnostics h.diagnostics.toList, h)
  | .render => (.text h.render, h)
  | .write s => (.written (h.writeTo s).2 (h.writeTo s).1, h)
  | .clear => (.done, h.clear)

/-- The replies to a sequence of operations, each with the handler after it. -/
def performAll (h : Handler) : List Operation → List (Reply × Handler)
  | [] => []
  | op :: ops => h.perform op :: (h.perform op).2.performAll ops

end Lox.Handler

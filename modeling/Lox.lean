import Lox.Cursor.Bytes
import Lox.Lexer.Bytes
import Lox.Cursor.Request
import Lox.Cursor.View
import Lox.Handler.Session
import Lox.Json.Rebuilding
import Lox.Proofs.Gluing
import Lox.Proofs.Lines
import Lox.Proofs.OpenString
import Lox.Scan.Log
import Lox.Wire.Basic
import Lox.Proofs.Stepping
import Lox.Proofs.Log
import Lox.Proofs.Reporting
import Lox.Proofs.Rounding
import Lox.Proofs.JsonText
import Lox.Proofs.Decimals
import Lox.Proofs.Shortest
import Lox.Proofs.RoundTrip
import Lox.Proofs.Streaming
import Lox.Proofs.Session
import Lox.Proofs.Context
import Lox.Proofs.Lookahead
import Lox.Proofs.LineByLine
import Lox.Proofs.Boundary
import Lox.Proofs.Interior
import Lox.Proofs.Blanks
import Lox.Proofs.Recovery
import Lox.Proofs.NumberLiterals
import Lox.Proofs.PrintedNumbers
import Lox.Proofs.Abridging
import Lox.Proofs.Strictness
import Lox.Proofs.Writable
import Lox.Proofs.Presentation
import Lox.Proofs.ByteCursor
import Lox.Proofs.Zipper
import Lox.Proofs.ByteLexer
import Lox.Proofs.Progress
import Lox.Proofs.Keywords
import Lox.Proofs.ByteOffsets
import Lox.Proofs.Codes
import Lox.Proofs.Settings

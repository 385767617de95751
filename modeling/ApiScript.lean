import ApiScript.Proofs.Recovery.Boundary
import ApiScript.Proofs.Spelling.Spans
import ApiScript.Report.Basic
import ApiScript.Session
import ApiScript.Tree.Layout
import ApiScript.Tree.Node
import ApiScript.Value.Match
import ApiScript.Proofs.Ladder.Basic
import ApiScript.Proofs.Ladder.Chain
import ApiScript.Proofs.Lexing.Cover
import ApiScript.Proofs.Lexing.Longest
import ApiScript.Proofs.Lexing.Enclosed
import ApiScript.Proofs.Lexing.Interpolated
import ApiScript.Proofs.Lexing.Lines
import ApiScript.Proofs.Pairing.Agree
import ApiScript.Proofs.Pairing.Block
import ApiScript.Proofs.Pairing.Declaration
import ApiScript.Proofs.Pairing.Expression
import ApiScript.Proofs.Pairing.Isolation
import ApiScript.Proofs.Pairing.Layout
import ApiScript.Proofs.Limit.Raised
import ApiScript.Proofs.Limit.Nesting
import ApiScript.Proofs.Places.Program
import ApiScript.Proofs.Shape.Program
import ApiScript.Proofs.Sequel.Carry
import ApiScript.Proofs.Sequel.Literal
import ApiScript.Proofs.Sequel.Declaration
import ApiScript.Proofs.Limit.Exact
import ApiScript.Proofs.Pairing.Composition
import ApiScript.Proofs.Ladder.Alone
import ApiScript.Proofs.Shape.Embedded
import ApiScript.Proofs.Reading.Iteration
import ApiScript.Proofs.Session.Calls
import ApiScript.Proofs.Ladder.Lambda
import ApiScript.Proofs.Reading.Brace
import ApiScript.Proofs.Value.Range
import ApiScript.Proofs.RoundTrip.Binding
import ApiScript.Proofs.Value.Selection
import ApiScript.Proofs.Value.Written
import ApiScript.Proofs.Lexing.Stream
import ApiScript.Proofs.Lexing.Decoders
import ApiScript.Proofs.Value.Reordering
import ApiScript.Proofs.Lexing.Unescape
import ApiScript.Proofs.Lexing.Nested
import ApiScript.Proofs.Spelling.Bindings
import ApiScript.Proofs.Reprint.Program

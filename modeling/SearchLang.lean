import SearchLang.Calendar
import SearchLang.Chunk
import SearchLang.Command
import SearchLang.Json.Basic
import SearchLang.Json.Print
import SearchLang.Json.Read
import SearchLang.Limits
import SearchLang.Link
import SearchLang.Main
import SearchLang.Node.Basic
import SearchLang.Node.Canonical
import SearchLang.Node.Finite
import SearchLang.Node.Json
import SearchLang.Node.Plain
import SearchLang.Node.Readable
import SearchLang.Node.Render
import SearchLang.Node.Shape
import SearchLang.Node.Tokens
import SearchLang.Node.Values
import SearchLang.Node.Walk
import SearchLang.Number.Basic
import SearchLang.Number.Decimal
import SearchLang.Number.Layout
import SearchLang.Number.Shortest
import SearchLang.Query.Basic
import SearchLang.Query.Cursor
import SearchLang.Query.Parse
import SearchLang.Query.Span
import SearchLang.Query.Trace
import SearchLang.Settings.Block
import SearchLang.Settings.Flow
import SearchLang.Settings.Read
import SearchLang.Settings.Scalar
import SearchLang.Text.Basic
import SearchLang.Text.Emoji
import SearchLang.Text.Letter
import SearchLang.Text.Punycode
import SearchLang.Text.Space
import SearchLang.Token.Basic
import SearchLang.Token.Bracketing
import SearchLang.Token.Counter
import SearchLang.Token.Cursor
import SearchLang.Token.Json
import SearchLang.Token.Pattern
import SearchLang.Token.Scan
import SearchLang.Token.Symbol
import SearchLang.Token.WellFormed
import SearchLang.Proofs.Chunk.Cut
import SearchLang.Proofs.Chunk.Join
import SearchLang.Proofs.Cursor.Counter
import SearchLang.Proofs.Json.ReadBack
import SearchLang.Proofs.Node.ReadBack
import SearchLang.Proofs.Number.Json
import SearchLang.Proofs.Number.ReadBack
import SearchLang.Proofs.Number.Rounding
import SearchLang.Proofs.Parse.Amounts
import SearchLang.Proofs.Parse.Entries
import SearchLang.Proofs.Parse.Extent
import SearchLang.Proofs.Parse.Finish
import SearchLang.Proofs.Parse.Outline
import SearchLang.Proofs.Parse.Shape
import SearchLang.Proofs.Parse.TokenForm
import SearchLang.Proofs.Parse.Trace
import SearchLang.Proofs.Parse.Values
import SearchLang.Proofs.Query.CanonicalText
import SearchLang.Proofs.Query.JsonRoundTrip
import SearchLang.Proofs.Query.Limits
import SearchLang.Proofs.Query.Parts
import SearchLang.Proofs.Query.RoundTrip
import SearchLang.Proofs.Query.Subqueries
import SearchLang.Proofs.Scan.Alone
import SearchLang.Proofs.Scan.Blanks
import SearchLang.Proofs.Scan.Bracketing
import SearchLang.Proofs.Scan.Join
import SearchLang.Proofs.Scan.Piece
import SearchLang.Proofs.Scan.Render
import SearchLang.Proofs.Scan.Restart
import SearchLang.Proofs.Scan.Signs
import SearchLang.Proofs.Scan.Spacing
import SearchLang.Proofs.Scan.TokenLaw
import SearchLang.Proofs.Scan.WellFormed
import SearchLang.Proofs.Cursor.Parse
import SearchLang.Proofs.Cursor.Range
import SearchLang.Proofs.Parse.ModifierChain
import SearchLang.Proofs.Chunk.Spaces
import SearchLang.Proofs.Chunk.LastMark
import SearchLang.Proofs.Scan.SpacedModifier
import SearchLang.Proofs.Scan.BareText
import SearchLang.Proofs.Query.NestedField
import SearchLang.Proofs.Query.DottedRange
import SearchLang.Proofs.Scan.ChunkSpaces
import SearchLang.Proofs.Scan.Spaces
import SearchLang.Proofs.Scan.WordCount
import SearchLang.Proofs.Chunk.Unbroken
import SearchLang.Proofs.Scan.BareWord
import SearchLang.Proofs.Query.BareBound
import SearchLang.Proofs.Parse.Connective
import SearchLang.Proofs.Parse.Mirror
import SearchLang.Proofs.Scan.Unclosed
import SearchLang.Proofs.Scan.Numerals
import SearchLang.Proofs.Scan.TokenCount
import SearchLang.Proofs.Node.Walk
import SearchLang.Query.Machine
import SearchLang.Proofs.Cursor.Machine
import SearchLang.Proofs.Chunk.Forms

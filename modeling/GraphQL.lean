import GraphQL.Export.Tree
import GraphQL.Number.Decimal
import GraphQL.Number.Integer
import GraphQL.Parse.Document
import GraphQL.Token.Stream
import GraphQL.Traversal.Folder
import GraphQL.Traversal.Preorder
import GraphQL.Traversal.Visitor
import GraphQL.Proofs.Reading.Outcome
import GraphQL.Proofs.Reading.Budget
import GraphQL.Proofs.Lexical.Text
import GraphQL.Proofs.Tree.Depth
import GraphQL.Proofs.Tree.Spelling
import GraphQL.Proofs.Tree.WellFormed
import GraphQL.Proofs.Reading.Derivation
import GraphQL.Proofs.Reading.Lookahead
import GraphQL.Proofs.Reading.Completeness
import GraphQL.Proofs.Reading.Document
import GraphQL.Proofs.Reading.Relocation
import GraphQL.Proofs.Lexical.Number
import GraphQL.Proofs.Lexical.Lexeme
import GraphQL.Proofs.Lexical.Tokens
import GraphQL.Proofs.Tree.Form
import GraphQL.Proofs.Grammar.Renders
import GraphQL.Proofs.Grammar.Soundness
import GraphQL.Proofs.Grammar.Covers
import GraphQL.Proofs.Grammar.Accepted
import GraphQL.Proofs.Reading.Kinds
import GraphQL.Proofs.Parse.Spelling
import GraphQL.Proofs.Parse.Depth
import GraphQL.Proofs.Reading.Locality
import GraphQL.Proofs.Reading.Sample
import GraphQL.Proofs.Reading.Continuation
import GraphQL.Proofs.Reading.Failure
import GraphQL.Proofs.Reading.Exactness
import GraphQL.Proofs.Literal.Content
import GraphQL.Proofs.Lexical.Tiling
import GraphQL.Proofs.Parse.Layout
import GraphQL.Proofs.Parse.Failure
import GraphQL.Proofs.Traversal.Enumeration
import GraphQL.Proofs.Traversal.Address
import GraphQL.Proofs.Traversal.Visit
import GraphQL.Proofs.Tree.Positions
import GraphQL.Proofs.Tree.TypeTokens
import GraphQL.Proofs.Grammar.Placement
import GraphQL.Proofs.Grammar.Positions
import GraphQL.Proofs.Lexical.Places
import GraphQL.Proofs.Lexical.Concatenation
import GraphQL.Proofs.Parse.Positions
import GraphQL.Proofs.Parse.Concatenation
import GraphQL.Proofs.Parse.Copies
import GraphQL.Proofs.Parse.Resume
import GraphQL.Proofs.Parse.WellFormed
import GraphQL.Proofs.Traversal.Contents
import GraphQL.Proofs.Parse.Extension
import GraphQL.Proofs.Lexical.BlockLiteral
import GraphQL.Proofs.Literal.Block
import GraphQL.Proofs.Literal.Dedent
import GraphQL.Proofs.Literal.Relayout
import GraphQL.Proofs.Lexical.StreamState
import GraphQL.Proofs.Parse.TypeText
import GraphQL.Proofs.Number.Conversion
import GraphQL.Proofs.Bytes.Cuts
import GraphQL.Proofs.Bytes.Keyword
import GraphQL.Proofs.Bytes.Literal
import GraphQL.Proofs.Bytes.Dedent
import GraphQL.Proofs.Bytes.Ignored
import GraphQL.Proofs.Bytes.Lexeme
import GraphQL.Proofs.Bytes.Scan
import GraphQL.Proofs.Grammar.Strings
import GraphQL.Proofs.Parse.Pull
import GraphQL.Proofs.Parse.StreamSession
import GraphQL.Proofs.Parse.Strings
import GraphQL.Proofs.Grammar.Productions
import GraphQL.Proofs.Parse.Descent
import GraphQL.Proofs.Parse.Frames
import GraphQL.Proofs.Parse.Returning
import GraphQL.Proofs.Parse.Termination

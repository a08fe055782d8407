import GraphQL.Grammar.Document
import GraphQL.Lexical.Tokens
import GraphQL.Parse.Error

/-!
# Parsing sessions

A session stands at some token of a source text.  It can be moved token by token, check which
token it stands at, or parse all that is left as one document (`Session.parse`).  Without a
maximum depth the nesting budget exceeds the number of tokens, so it is never used up: each level
of nesting takes a token.
-/

namespace GraphQL

/-- How to parse. -/
structure ParseOptions where
  /-- How deep selection sets, values and types may nest within each other, if that is limited. -/
  maxDepth? : Option Nat
  deriving DecidableEq, Repr

/-- Parsing without limits. -/
def ParseOptions.unlimited : ParseOptions := ⟨none⟩

/-- A source text and its tokens from some token on. -/
structure Session where
  /-- The source text. -/
  source : String
  /-- How to parse it. -/
  options : ParseOptions
  /-- The tokens that are left. -/
  rest : List Token
  deriving DecidableEq, Repr

namespace Session

/-- The session at the first token of a source text. -/
def ofString (source : String) (options : ParseOptions) : Session :=
  ⟨source, options, tokens source⟩

/-- The kind of the token at which the session stands; none at the end of the input. -/
def current? (s : Session) : Option TokenKind := s.rest.head?.map Token.kind

/-- Moves to the next token. -/
def accept (s : Session) : Session := { s with rest := s.rest.drop 1 }

/-- The nesting budget for the tokens left. -/
def budget (s : Session) : Nat := s.options.maxDepth?.getD (s.rest.length + 1)

/-- The line of the first of some tokens, or of the end of the input. -/
def lineOf (s : Session) : List Token → Nat
  | t :: _ => lineAt s.source t.offset
  | [] => lineAt s.source (byteLength s.source.toList)

/-- The error that stopped reading before some of the tokens. -/
def errorAt (s : Session) (failure : Failure) : ParseError :=
  let line := s.lineOf failure.rest
  let found? := failure.rest.head?.map Token.lexeme
  match failure.obstacle with
  | .unexpected expected => .unexpectedToken expected found? line
  | .unknownPlace => .unknownPlace ((found?.map Lexeme.text).getD "") line
  | .tooDeep => .nestingTooDeep s.budget line

/-- Reads one token by a reader, and moves past it. -/
def step {α : Type} (s : Session) (reader : Reader α) : Except ParseError (α × Session) :=
  match reader s.rest with
  | .ok (a, rest) => .ok (a, { s with rest })
  | .error failure => .error (s.errorAt failure)

/-- Moves past a token of the given kind, if the session stands at one. -/
def expect (s : Session) (kind : TokenKind) : Except ParseError (Token × Session) :=
  s.step (Reader.token (· == kind) [kind])

/-- Moves past a token of one of the given kinds, if the session stands at one. -/
def expectOneOf (s : Session) (kinds : List TokenKind) : Except ParseError (Token × Session) :=
  s.step (Reader.token kinds.contains kinds)

/-- Parses the tokens left as one document. -/
def parse (s : Session) : Except ParseError Document :=
  match readDocument s.budget s.rest with
  | .ok d => .ok d
  | .error failure => .error (s.errorAt failure)

end Session

end GraphQL

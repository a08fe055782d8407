import GraphQL.Parse.Session
import GraphQL.Text.Utf8

/-!
# Parsing documents

The whole way from a source text, or its bytes, to a document.  Each attempt can be recorded as
one line of a log.
-/

namespace GraphQL

/-- Parses a source text. -/
def parseWith (options : ParseOptions) (source : String) : Except ParseError Document :=
  (Session.ofString source options).parse

/-- Parses a source text without limits. -/
def parse (source : String) : Except ParseError Document := parseWith .unlimited source

/-- The source text that some bytes hold. -/
def sourceOfBytes (bytes : List UInt8) : Except ParseError String :=
  match decodeUtf8 bytes with
  | .ok source => .ok source
  | .error offset => .error (.invalidUtf8 offset)

/-- Parses the bytes of a source text. -/
def parseBytes (options : ParseOptions) (bytes : List UInt8) : Except ParseError Document :=
  match sourceOfBytes bytes with
  | .ok source => parseWith options source
  | .error e => .error e

/-- How much a log record matters. -/
inductive LogLevel where
  /-- For a document that parses. -/
  | trace
  /-- For one that does not. -/
  | debug
  deriving DecidableEq, Repr

/-- The log record of an attempt to parse: its level and wording. -/
def logRecord : Except ParseError Document → LogLevel × String
  | .ok d => (.trace, s!"Parsed a document with {d.definitions.length} definition(s).")
  | .error e => (.debug, s!"Failed to parse document: {e.message}")

end GraphQL

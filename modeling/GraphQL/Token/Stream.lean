import GraphQL.Lexical.Tokens

/-!
# Token streams

A token stream hands out the tokens of a source text one at a time and answers questions about
the latest one.  The value of a string literal can be taken out of the stream once; the next
step forgets it, and also why an invalid string had no value.
-/

namespace GraphQL

/-- A source text, the place reached in it and the latest token. -/
structure TokenStream where
  /-- The source text. -/
  source : String
  /-- The place reached. -/
  cursor : Cursor
  /-- The latest token, if the last step found one. -/
  token? : Option Token
  /-- The byte offset where the latest token starts, or where the text was found to end. -/
  tokenOffset : Nat
  /-- The value of the latest token, if it is a string literal and the value is not taken yet. -/
  value? : Option String
  /-- Why the latest token has no value, if it is an invalid string. -/
  error? : Option StringError
  deriving DecidableEq, Repr

namespace TokenStream

/-- The stream of a source text, before its first token. -/
def ofString (source : String) : TokenStream :=
  ⟨source, Cursor.ofString source, none, 0, none, none⟩

/-- Moves to the next token, or past ignored text to the end. -/
def advance (s : TokenStream) : TokenStream :=
  match s.cursor.next? with
  | some (t, after) =>
    { s with
      cursor := after, token? := some t, tokenOffset := t.offset, value? := t.lexeme.value?,
      error? := t.lexeme.error? }
  | none =>
    let stop := s.cursor.skipIgnored
    { s with
      cursor := stop, token? := none, tokenOffset := stop.offset, value? := none, error? := none }

/-- Moves on and hands out the token that is found. -/
def next (s : TokenStream) : Option Token × TokenStream :=
  let s := s.advance
  (s.token?, s)

/-- The kind of the latest token. -/
def kind? (s : TokenStream) : Option TokenKind := s.token?.map Token.kind

/-- The text of the latest token. -/
def tokenText (s : TokenStream) : String := (s.token?.map Token.text).getD ""

/-- The offset that is reported for the start of the latest token, or for the end of the text. -/
def tokenStart (s : TokenStream) : Nat := reportedOffset s.tokenOffset

/-- Takes the value of the latest token out of the stream. -/
def takeValue (s : TokenStream) : Option String × TokenStream :=
  (s.value?, { s with value? := none })

/-- The line of the place reached. -/
def line (s : TokenStream) : Nat := lineAt s.source s.cursor.offset

/-- The line where the latest token starts. -/
def tokenLine (s : TokenStream) : Nat := lineAt s.source s.tokenOffset

/-- Whether only ignored text is left. -/
def isDone (s : TokenStream) : Bool := s.cursor.skipIgnored.rest.isEmpty

/-- At most the given number of further states that have a token, and the state after them. -/
def takeStates : Nat → TokenStream → List TokenStream × TokenStream
  | 0, s => ([], s.advance)
  | n + 1, s =>
    let s := s.advance
    if s.token?.isSome then
      let (states, last) := takeStates n s
      (s :: states, last)
    else ([], s)

/-- The states at each of the remaining tokens, and the state at the end. -/
def remaining (s : TokenStream) : List TokenStream × TokenStream :=
  s.takeStates s.cursor.rest.length

end TokenStream

end GraphQL

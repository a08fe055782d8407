/-!
# Ignored text

Between lexemes stand blanks, commas, line ends, byte order marks and comments.  A comment runs
from a number sign up to the next line end, which is not part of it, or to the end of the text.
-/

namespace GraphQL

/-- Whether a character is ignored between lexemes. -/
def isBlank (c : Char) : Bool :=
  c = ' ' || c = '\t' || c = '\n' || c = '\r' || c = ',' || c = '\uFEFF'

/-- The ignored text at the start of some source text that stands inside a comment, or not. -/
def ignoredFrom : Bool → List Char → List Char
  | _, [] => []
  | true, c :: rest => c :: ignoredFrom (c != '\n' && c != '\r') rest
  | false, c :: rest =>
    if c = '#' then c :: ignoredFrom true rest
    else if isBlank c then c :: ignoredFrom false rest
    else []

/-- The longest ignored text at the start of some source text. -/
def ignored (source : List Char) : List Char := ignoredFrom false source

end GraphQL

import GraphQL.Grammar.Rule

/-!
# Reading tokens by a rule

`Rule.read` follows a rule over a list of tokens with one token of lookahead.  It yields the tree
and the tokens left over, or stops at the first token that cannot continue the rule
(`Failure`).

Reading a nesting construct uses up one unit of a *budget*, before any token is looked at.  The
budget bounds how deep selection sets, values and types can nest within each other; `readNest`
recurses on it.
-/

namespace GraphQL

/-- Why reading stopped. -/
inductive Obstacle where
  /-- The next token is of none of the expected kinds. -/
  | unexpected (expected : List TokenKind)
  /-- The next token is not the name of a place for directives. -/
  | unknownPlace
  /-- The nesting budget is used up. -/
  | tooDeep
  deriving DecidableEq, Repr

/-- Why and where reading stopped: the tokens from the one at fault on. -/
structure Failure where
  /-- Why reading stopped. -/
  obstacle : Obstacle
  /-- The tokens from the one at fault on. -/
  rest : List Token
  deriving DecidableEq, Repr

/-- A tree and the tokens left over, or a failure. -/
abbrev Outcome (α : Type) := Except Failure (α × List Token)

/-- A way to read a tree from the start of a list of tokens. -/
abbrev Reader (α : Type) := List Token → Outcome α

namespace Reader

/-- Stops before the next token. -/
def fail {α : Type} (obstacle : Obstacle) : Reader α := fun ts => .error ⟨obstacle, ts⟩

/-- Reads one token of an accepted kind. -/
def token (accepts : TokenKind → Bool) (expected : List TokenKind) : Reader Token
  | [] => fail (.unexpected expected) []
  | t :: ts => if accepts t.kind then .ok (t, ts) else fail (.unexpected expected) (t :: ts)

/-- Reads one name that is no keyword and that `read` knows. -/
def place (read : Token → Option DirectiveLocation) : Reader DirectiveLocation
  | [] => fail (.unexpected [.name]) []
  | t :: ts =>
    if t.kind = .name then
      match read t with
      | some location => .ok (location, ts)
      | none => fail .unknownPlace (t :: ts)
    else fail (.unexpected [.name]) (t :: ts)

/-- Reads a tree and turns it into another. -/
def map {α β : Type} (f : α → β) (r : Reader α) : Reader β := fun ts =>
  match r ts with
  | .ok (a, rest) => .ok (f a, rest)
  | .error e => .error e

/-- Reads two trees in turn and applies the first to the second. -/
def seq {α β : Type} (f : Reader (α → β)) (r : Reader α) : Reader β := fun ts =>
  match f ts with
  | .ok (g, rest) => map g r rest
  | .error e => .error e

/-- Whether a token of a tested kind is next. -/
def nextIs (test : TokenKind → Bool) : List Token → Bool
  | [] => false
  | t :: _ => test t.kind

/-- Reads by `yes` or by `no`, depending on the kind of the next token. -/
def branch {α : Type} (test : TokenKind → Bool) (yes no : Reader α) : Reader α := fun ts =>
  if nextIs test ts then yes ts else no ts

/-- Reads items as long as a token of a tested kind is next, and at most `bound` of them. -/
def whileAt {α : Type} (test : TokenKind → Bool) (item : Reader α) : Nat → Reader (List α)
  | 0, ts => .ok ([], ts)
  | bound + 1, ts =>
    if nextIs test ts then
      match item ts with
      | .ok (a, rest) => map (a :: ·) (whileAt test item bound) rest
      | .error e => .error e
    else .ok ([], ts)

/-- Reads items up to a closing token, at most `bound` of them, and the closing token. -/
def upTo {α : Type} (close : TokenKind) (item : Reader α) : Nat → Reader (List α)
  | 0, ts => .ok ([], ts)
  | bound + 1, ts =>
    if nextIs (· == close) ts then .ok ([], ts.drop 1)
    else
      match item ts with
      | .ok (a, rest) => map (a :: ·) (upTo close item bound) rest
      | .error e => .error e

/-- Reads a tree and hands it the offset of the next token. -/
def located {α : Type} (r : Reader (Nat → α)) : Reader α := fun ts =>
  map (· ((ts.head?.map Token.start).getD 0)) r ts

end Reader

/-- Reads by a rule, given how to read the nesting constructs.  An item of a repetition takes a
token at least, so the number of tokens bounds the number of items. -/
def Rule.read (nested : (n : Nest) → Reader n.Tree) : {α : Type} → Rule α → Reader α
  | _, .done a => fun ts => .ok (a, ts)
  | _, .token accepts expected => Reader.token accepts expected
  | _, .place read => Reader.place read
  | _, .stuck expected => Reader.fail (.unexpected expected)
  | _, .map f r => Reader.map f (r.read nested)
  | _, .seq f r => Reader.seq (f.read nested) (r.read nested)
  | _, .branch test yes no => Reader.branch test (yes.read nested) (no.read nested)
  | _, .whileAt test item => fun ts => Reader.whileAt test (item.read nested) (ts.length + 1) ts
  | _, .upTo close item => fun ts => Reader.upTo close (item.read nested) (ts.length + 1) ts
  | _, .nest n => nested n
  | _, .located r => Reader.located (r.read nested)

/-- Reads a nesting construct by the rule that `body` gives for it, within a budget. -/
def readNest (body : (n : Nest) → Rule n.Tree) : Nat → (n : Nest) → Reader n.Tree
  | 0, _ => Reader.fail .tooDeep
  | budget + 1, n => (body n).read (readNest body budget)

end GraphQL

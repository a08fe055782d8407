import GraphQL.Proofs.Lexical.StreamState
import GraphQL.Proofs.Reading.Progress

/-!
# Pulling tokens from a stream

A parser that pulls its tokens from a stream has only the latest of them at hand.  Reading a string
literal takes its value out of the stream, and then moves on.  A value can be taken once; if it is
wanted when it is gone already, that is a fault of its own (`Halt.valueTaken`) and not made up for
by another value.

`Rule.pull` follows a rule in this way.  It does what reading from the list of the tokens left does
(`Rule.follows_pull`): wherever a part of a rule starts, the stream still has the value of its
latest token (`TokenStream.StandsAt`), so none is ever wanted in vain.
-/

namespace GraphQL

variable {α β : Type}

/-! ### Pulling -/

/-- Why pulling ends without a result. -/
inductive Halt (ε : Type) where
  /-- The input stops it. -/
  | failure (e : ε)
  /-- The value of a string literal is wanted that has been taken out of the stream before. -/
  | valueTaken
  deriving DecidableEq, Repr

/-- Why and where pulling stopped: the stream, with the token at fault as its latest. -/
structure StreamFailure where
  /-- Why pulling stopped. -/
  obstacle : Obstacle
  /-- The stream there. -/
  stream : TokenStream
  deriving DecidableEq, Repr

/-- A tree and the stream after it, or why there is none. -/
abbrev Pulled (α : Type) := Except (Halt StreamFailure) (α × TokenStream)

/-- A way to pull a tree from a stream. -/
abbrev Puller (α : Type) := TokenStream → Pulled α

namespace TokenStream

/-- The tokens from the latest one on. -/
def left (s : TokenStream) : List Token := s.token?.toList ++ s.cursor.tokens

/-- Whether the latest token is of a tested kind. -/
def latestIs (test : TokenKind → Bool) (s : TokenStream) : Bool := s.kind?.any test

/-- Moves past the latest token, and takes its value if it is a string literal. -/
def consume (t : Token) (s : TokenStream) : Pulled Token :=
  match t.lexeme with
  | .string text _ =>
    match s.takeValue with
    | (some value, s) => .ok (⟨.string text value, t.offset⟩, s.advance)
    | (none, _) => .error .valueTaken
  | _ => .ok (t, s.advance)

end TokenStream

namespace Puller

/-- Stops at the latest token. -/
def stop (obstacle : Obstacle) : Puller α := fun s => .error (.failure ⟨obstacle, s⟩)

/-- Pulls one token of an accepted kind. -/
def token (accepts : TokenKind → Bool) (expected : List TokenKind) : Puller Token := fun s =>
  match s.token? with
  | some t => if accepts t.kind then s.consume t else stop (.unexpected expected) s
  | none => stop (.unexpected expected) s

/-- Pulls one name that is no keyword and that `read` knows. -/
def place (read : Token → Option DirectiveLocation) : Puller DirectiveLocation := fun s =>
  match s.token? with
  | some t =>
    if t.kind = .name then
      match read t with
      | some location => .ok (location, s.advance)
      | none => stop .unknownPlace s
    else stop (.unexpected [.name]) s
  | none => stop (.unexpected [.name]) s

/-- Pulls a tree and turns it into another. -/
def map (f : α → β) (p : Puller α) : Puller β := fun s =>
  match p s with
  | .ok (a, s) => .ok (f a, s)
  | .error e => .error e

/-- Pulls two trees in turn and applies the first to the second. -/
def seq (f : Puller (α → β)) (p : Puller α) : Puller β := fun s =>
  match f s with
  | .ok (g, s) => map g p s
  | .error e => .error e

/-- Pulls by `yes` or by `no`, depending on the kind of the latest token. -/
def branch (test : TokenKind → Bool) (yes no : Puller α) : Puller α := fun s =>
  if s.latestIs test then yes s else no s

/-- Pulls items as long as the latest token is of a tested kind, and at most `bound` of them. -/
def whileAt (test : TokenKind → Bool) (item : Puller α) : Nat → Puller (List α)
  | 0, s => .ok ([], s)
  | bound + 1, s =>
    if s.latestIs test then
      match item s with
      | .ok (a, s) => map (a :: ·) (whileAt test item bound) s
      | .error e => .error e
    else .ok ([], s)

/-- Pulls items up to a closing token, at most `bound` of them, and moves past that token. -/
def upTo (close : TokenKind) (item : Puller α) : Nat → Puller (List α)
  | 0, s => .ok ([], s)
  | bound + 1, s =>
    if s.latestIs (· == close) then .ok ([], s.advance)
    else
      match item s with
      | .ok (a, s) => map (a :: ·) (upTo close item bound) s
      | .error e => .error e

/-- Pulls a tree and hands it the offset of the latest token. -/
def located (p : Puller (Nat → α)) : Puller α := fun s => map (· s.tokenStart) p s

end Puller

/-- Pulls by a rule, given how to pull the nesting constructs. -/
def Rule.pull (nested : (n : Nest) → Puller n.Tree) : {α : Type} → Rule α → Puller α
  | _, .done a => fun s => .ok (a, s)
  | _, .token accepts expected => Puller.token accepts expected
  | _, .place read => Puller.place read
  | _, .stuck expected => Puller.stop (.unexpected expected)
  | _, .map f r => Puller.map f (r.pull nested)
  | _, .seq f r => Puller.seq (f.pull nested) (r.pull nested)
  | _, .branch test yes no => Puller.branch test (yes.pull nested) (no.pull nested)
  | _, .whileAt test item => fun s => Puller.whileAt test (item.pull nested) (s.left.length + 1) s
  | _, .upTo close item => fun s => Puller.upTo close (item.pull nested) (s.left.length + 1) s
  | _, .nest n => nested n
  | _, .located r => Puller.located (r.pull nested)

/-- Pulls a nesting construct by the rule that `body` gives for it, within a budget. -/
def pullNest (body : (n : Nest) → Rule n.Tree) : Nat → (n : Nest) → Puller n.Tree
  | 0, _ => Puller.stop .tooDeep
  | budget + 1, n => (body n).pull (pullNest body budget)

/-! ### Where a stream stands -/

namespace TokenStream

variable {source : String} {s : TokenStream} {t : Token} {ts : List Token}

/-- The stream of a source text stands at the first of the tokens, or at the end if there are none,
and has the value of that token if it is a string literal. -/
structure StandsAt (source : String) (s : TokenStream) (ts : List Token) : Prop where
  /-- Nothing has been taken out since the latest step. -/
  steady : Steady source s false
  /-- The latest token is the first of them. -/
  token : s.token? = ts.head?
  /-- The others are ahead. -/
  ahead : s.cursor.tokens = ts.tail
  /-- The stream knows where the latest token starts. -/
  offset : ∀ t ∈ ts.head?, s.tokenOffset = t.offset
  /-- At the end nothing is ahead. -/
  finished : ts = [] → s.cursor.rest = []

/-- A step makes a stream stand at the tokens that were ahead, even if a value has been taken. -/
theorem Steady.standsAt_advance {taken : Bool} (h : Steady source s taken) :
    StandsAt source s.advance s.cursor.tokens := by
  rw [Cursor.tokens_eq]
  rcases hnext : s.cursor.next? with _ | ⟨t, after⟩
  · obtain ⟨htoken, hcursor, -⟩ := advance_of_none hnext
    exact ⟨.advance h, htoken, by rw [hcursor]; rfl, (fun t ht => nomatch ht), by simp [hcursor]⟩
  · obtain ⟨htoken, hcursor⟩ := advance_of_some hnext
    refine ⟨.advance h, htoken, by rw [hcursor]; rfl, ?_, fun h => absurd h (List.cons_ne_nil _ _)⟩
    rintro _ ⟨⟩
    rw [TokenStream.advance, hnext]

/-- A new stream stands at all tokens after its first step. -/
theorem standsAt_ofString (source : String) :
    StandsAt source (ofString source).advance (tokens source) :=
  (Steady.ofString source).standsAt_advance

namespace StandsAt

theorem advance (h : StandsAt source s ts) : StandsAt source s.advance ts.tail := by
  have hadvance := h.steady.standsAt_advance
  rwa [h.ahead] at hadvance

theorem start (h : StandsAt source s ts) : ∀ t ∈ ts.head?, s.tokenStart = t.start :=
  fun t ht => congrArg reportedOffset (h.offset t ht)

theorem left_eq (h : StandsAt source s ts) : s.left = ts := by
  rw [left, h.token, h.ahead]
  cases ts <;> rfl

theorem kind?_eq (h : StandsAt source s ts) : s.kind? = ts.head?.map Token.kind := by
  rw [kind?, h.token]

theorem latestIs_eq (h : StandsAt source s ts) (test : TokenKind → Bool) :
    s.latestIs test = Reader.nextIs test ts := by
  rw [latestIs, h.kind?_eq]
  cases ts <;> rfl

/-- At a string literal the stream has its value, which is that of decoding its content. -/
theorem exists_value (h : StandsAt source s ts) (hk : s.kind? = some .string) :
    ∃ value, s.value? = some value ∧ LiteralDecodes s.tokenText (.ok value) := by
  obtain ⟨value, hvalue⟩ := Option.isSome_iff_exists.1 (h.steady.isSome_value?_iff.2 ⟨hk, rfl⟩)
  exact ⟨value, hvalue, h.steady.consistent.decoded value hvalue⟩

/-- The first token is moved past with its value. -/
theorem consume_eq (h : StandsAt source s (t :: ts)) : s.consume t = .ok (t, s.advance) := by
  have hvalue : s.value? = t.lexeme.value? := by
    rw [h.steady.value_eq, h.token]
    rfl
  obtain ⟨l, start⟩ := t
  cases l with
  | string text value =>
    simp only [consume, takeValue, show s.value? = some value from hvalue]
    rfl
  | _ => rfl

end StandsAt

end TokenStream

open TokenStream

/-! ### Pulling is reading -/

/-- What is pulled is what is read, and the stream stands at the tokens left over or at fault. -/
inductive Pulled.Matches (source : String) : Pulled α → Outcome α → Prop where
  | ok (a : α) {s : TokenStream} {rest : List Token} (h : StandsAt source s rest) :
    Matches source (.ok (a, s)) (.ok (a, rest))
  | error (obstacle : Obstacle) {s : TokenStream} {rest : List Token} (h : StandsAt source s rest) :
    Matches source (.error (.failure ⟨obstacle, s⟩)) (.error ⟨obstacle, rest⟩)

/-- Pulling from a stream does what reading the tokens does at which it stands. -/
def Puller.Follows (source : String) (p : Puller α) (r : Reader α) : Prop :=
  ∀ ⦃s : TokenStream⦄ ⦃ts : List Token⦄, StandsAt source s ts → (p s).Matches source (r ts)

namespace Pulled.Matches

variable {source : String}

/-- What goes on alike after a tree matches in whole. -/
theorem bind {x : Pulled α} {o : Outcome α} {f : α → TokenStream → Pulled β}
    {g : α → List Token → Outcome β} :
    x.Matches source o →
    (∀ a s rest, StandsAt source s rest → (f a s).Matches source (g a rest)) →
    Pulled.Matches source
      (match x with
        | .ok (a, s) => f a s
        | .error e => .error e)
      (match o with
        | .ok (a, rest) => g a rest
        | .error e => .error e) := by
  rintro (⟨a, h⟩ | ⟨obstacle, h⟩) hfg
  · exact hfg a _ _ h
  · exact .error obstacle h

end Pulled.Matches

namespace Puller.Follows

variable {source : String} {p : Puller α} {r : Reader α}

theorem stop (obstacle : Obstacle) :
    Follows source (Puller.stop obstacle : Puller α) (Reader.fail obstacle) :=
  fun _ _ h => .error obstacle h

theorem token (accepts : TokenKind → Bool) (expected : List TokenKind) :
    Follows source (Puller.token accepts expected) (Reader.token accepts expected) := by
  intro s ts h
  rw [Puller.token, h.token]
  cases ts with
  | nil => exact stop _ h
  | cons t ts =>
    simp only [List.head?_cons, Reader.token]
    split
    · rw [h.consume_eq]
      exact .ok t h.advance
    · exact stop _ h

theorem place (read : Token → Option DirectiveLocation) :
    Follows source (Puller.place read) (Reader.place read) := by
  intro s ts h
  rw [Puller.place, h.token]
  cases ts with
  | nil => exact stop _ h
  | cons t ts =>
    simp only [List.head?_cons, Reader.place]
    split
    · cases read t with
      | some location => exact .ok location h.advance
      | none => exact stop _ h
    · exact stop _ h

theorem map (hp : Follows source p r) (f : α → β) :
    Follows source (Puller.map f p) (Reader.map f r) :=
  fun _ _ h => (hp h).bind fun a _ _ h => .ok (f a) h

theorem seq {f : Puller (α → β)} {g : Reader (α → β)} (hf : Follows source f g)
    (hp : Follows source p r) : Follows source (Puller.seq f p) (Reader.seq g r) := by
  intro s ts h
  have hm := hf h
  rw [Puller.seq, Reader.seq]
  generalize f s = x, g ts = o at hm ⊢
  cases hm with
  | ok g h => exact hp.map g h
  | error obstacle h => exact .error obstacle h

theorem branch {no : Puller α} {no' : Reader α} (hp : Follows source p r)
    (hno : Follows source no no') (test : TokenKind → Bool) :
    Follows source (Puller.branch test p no) (Reader.branch test r no') := by
  intro s ts h
  rw [Puller.branch, Reader.branch, h.latestIs_eq]
  split
  · exact hp h
  · exact hno h

theorem whileAt (hp : Follows source p r) (test : TokenKind → Bool) (bound : Nat) :
    Follows source (Puller.whileAt test p bound) (Reader.whileAt test r bound) := by
  induction bound with
  | zero => exact fun _ _ h => .ok [] h
  | succ bound ih =>
    intro s ts h
    rw [Puller.whileAt, Reader.whileAt, h.latestIs_eq]
    split
    · exact (hp h).bind fun a _ _ h => ih.map (a :: ·) h
    · exact .ok [] h

theorem upTo (hp : Follows source p r) (close : TokenKind) (bound : Nat) :
    Follows source (Puller.upTo close p bound) (Reader.upTo close r bound) := by
  induction bound with
  | zero => exact fun _ _ h => .ok [] h
  | succ bound ih =>
    intro s ts h
    rw [Puller.upTo, Reader.upTo, h.latestIs_eq, List.drop_one]
    split
    · exact .ok [] h.advance
    · exact (hp h).bind fun a _ _ h => ih.map (a :: ·) h

/-- The stream knows where a tree starts that takes a token. -/
theorem located {p : Puller (Nat → α)} {r : Reader (Nat → α)} (hp : Follows source p r)
    (hr : r.Progresses) : Follows source (Puller.located p) (Reader.located r) := by
  intro s ts h
  cases ts with
  | cons t ts =>
    rw [Puller.located, h.start t rfl]
    exact hp.map _ h
  | nil =>
    -- Without a token there is no tree, so that it does not matter what it would be handed.
    have hm := hp h
    rw [Puller.located, Puller.map, Reader.located, Reader.map]
    rcases hread : r [] with e | ⟨g, rest⟩ <;> rw [hread] at hm
    · generalize p s = x at hm
      cases hm with
      | error obstacle h => exact .error obstacle h
    · exact absurd (hr hread) (Nat.not_lt_zero _)

end Puller.Follows

section

variable {source : String} {nested : (n : Nest) → Reader n.Tree}
  {nested' : (n : Nest) → Puller n.Tree}
  (hs : ∀ n ts, ∃ u, ts = u ++ (nested n ts).rest) (hp : ∀ n, (nested n).Progresses)
  (hn : ∀ n, Puller.Follows source (nested' n) (nested n))

include hs hp hn

/-- Pulling by a steady rule does what reading by it does. -/
theorem Rule.follows_pull (r : Rule α) (hst : r.steady = true) :
    Puller.Follows source (r.pull nested') (r.read nested) := by
  induction r with
  | done a => exact fun _ _ h => .ok a h
  | token accepts expected => exact .token accepts expected
  | place read => exact .place read
  | stuck expected => exact .stop _
  | map f r ih => exact (ih hst).map f
  | seq f r ihf ihr =>
    obtain ⟨hf, hr⟩ := Bool.and_eq_true_iff.1 hst
    exact (ihf hf).seq (ihr hr)
  | branch test yes no ihy ihn =>
    simp only [steady, Bool.and_eq_true] at hst
    exact (ihy hst.1.1).branch (ihn hst.1.2) test
  | whileAt test item ih =>
    intro s ts h
    have hitem := ih (Bool.and_eq_true_iff.1 hst).1
    simpa only [pull, read, h.left_eq] using hitem.whileAt test (ts.length + 1) h
  | upTo close item ih =>
    intro s ts h
    have hitem := ih (Bool.and_eq_true_iff.1 hst).1
    simpa only [pull, read, h.left_eq] using hitem.upTo close (ts.length + 1) h
  | nest n => exact hn n
  | located r ih =>
    simp only [steady, Bool.and_eq_true, Bool.not_eq_true'] at hst
    exact (ih hst.1).located (progresses_read hs hp r hst.1 hst.2)

end

theorem follows_pullNest (source : String) (budget : Nat) (n : Nest) :
    Puller.Follows source (pullNest Nest.body budget n) (readNest Nest.body budget n) := by
  induction budget generalizing n with
  | zero => exact .stop .tooDeep
  | succ budget ih =>
    exact Rule.follows_pull (readNest_suffix budget) (readNest_progresses budget) ih n.body
      (steady_body n)

end GraphQL

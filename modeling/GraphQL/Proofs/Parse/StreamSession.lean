import GraphQL.Proofs.Parse.Pull
import GraphQL.Proofs.Parse.Resume

/-!
# Sessions on a token stream

A session can keep a token stream in place of the tokens left.  Moving on leaves the value of a
string literal behind in the stream, and only parsing takes values out.  Such a session does what
the session does that stands at the same token (`StreamSession.Follows`), whatever calls have been
made on it and on copies of it before (`StreamSession.follows_of_mem_copies`).
-/

namespace GraphQL

open TokenStream

/-- A token stream, and how to parse what is left of its text. -/
structure StreamSession where
  /-- The stream, with the token at which the session stands as its latest. -/
  stream : TokenStream
  /-- How to parse. -/
  options : ParseOptions
  deriving DecidableEq, Repr

namespace StreamSession

/-- The session at the first token of a source text. -/
def ofString (source : String) (options : ParseOptions) : StreamSession :=
  ⟨(TokenStream.ofString source).advance, options⟩

/-- The kind of the token at which the session stands; none at the end of the input. -/
def current? (x : StreamSession) : Option TokenKind := x.stream.kind?

/-- Moves to the next token. -/
def accept (x : StreamSession) : StreamSession := { x with stream := x.stream.advance }

/-- The nesting budget for the tokens left. -/
def budget (x : StreamSession) : Nat := x.options.maxDepth?.getD (x.stream.left.length + 1)

/-- The error for the latest token of a stream. -/
def errorAt (x : StreamSession) (failure : StreamFailure) : ParseError :=
  let s := failure.stream
  match failure.obstacle with
  | .unexpected expected => .unexpectedToken expected (s.token?.map Token.lexeme) s.tokenLine
  | .unknownPlace => .unknownPlace s.tokenText s.tokenLine
  | .tooDeep => .nestingTooDeep x.budget s.tokenLine

/-- Moves past a token of one of the given kinds, if the session stands at one; its kind. -/
def expectOneOf (x : StreamSession) (kinds : List TokenKind) :
    Except ParseError (TokenKind × StreamSession) :=
  match x.current? with
  | some kind =>
    if kinds.contains kind then .ok (kind, x.accept)
    else .error (x.errorAt ⟨.unexpected kinds, x.stream⟩)
  | none => .error (x.errorAt ⟨.unexpected kinds, x.stream⟩)

/-- Moves past a token of the given kind, if the session stands at one; its offset. -/
def expect (x : StreamSession) (kind : TokenKind) : Except ParseError (Nat × StreamSession) :=
  if x.current? = some kind then .ok (x.stream.tokenStart, x.accept)
  else .error (x.errorAt ⟨.unexpected [kind], x.stream⟩)

/-- Parses what is left as one document. -/
def parse (x : StreamSession) : Except (Halt ParseError) Document :=
  match definitions.pull (pullNest Nest.body x.budget) x.stream with
  | .ok (ds, _) => .ok ⟨ds, if x.current?.isSome then x.stream.tokenStart else 0⟩
  | .error (.failure failure) => .error (.failure (x.errorAt failure))
  | .error .valueTaken => .error .valueTaken

/-- The session after a call, or why the call fails. -/
def call (x : StreamSession) : SessionCall → Except ParseError StreamSession
  | .accept => .ok x.accept
  | .expect kind => (x.expect kind).map Prod.snd
  | .expectOneOf kinds => (x.expectOneOf kinds).map Prod.snd

/-- Makes a call and counts it, if it succeeds. -/
def countCall (c : SessionCall) : StreamSession × Nat → StreamSession × Nat
  | (x, count) =>
    match x.call c with
    | .ok x' => (x', count + 1)
    | .error _ => (x, count)

/-- The sessions that calls on a new session and on copies of it lead to, with the number of calls
on each that have succeeded. -/
def copies (source : String) (options : ParseOptions) (calls : List (CopyCall SessionCall)) :
    List (StreamSession × Nat) :=
  runCopies countCall calls [(ofString source options, 0)]

/-! ### What a session does on a stream -/

/-- Both sessions stand at the same token and parse in the same way. -/
structure Follows (x : StreamSession) (y : Session) : Prop where
  /-- The stream stands at the tokens left. -/
  stands : x.stream.StandsAt y.source y.rest
  /-- The options are the same. -/
  options : x.options = y.options

variable {x : StreamSession} {y : Session}

theorem follows_ofString (source : String) (options : ParseOptions) :
    Follows (ofString source options) (Session.ofString source options) :=
  ⟨standsAt_ofString source, rfl⟩

namespace Follows

theorem accept (h : x.Follows y) : x.accept.Follows y.accept := by
  refine ⟨?_, h.options⟩
  have hadvance := h.stands.advance
  rwa [← List.drop_one] at hadvance

theorem current?_eq (h : x.Follows y) : x.current? = y.current? := h.stands.kind?_eq

theorem budget_eq (h : x.Follows y) : x.budget = y.budget := by
  rw [budget, h.options, h.stands.left_eq, Session.budget]

theorem lineOf_eq {s : TokenStream} {ts : List Token} (hs : s.StandsAt y.source ts) :
    s.tokenLine = y.lineOf ts := by
  rw [tokenLine, hs.steady.source_eq]
  cases ts with
  | cons t ts => rw [hs.offset t rfl, Session.lineOf]
  | nil =>
    obtain ⟨before, hsource, hstart, -⟩ := hs.steady.place
    rw [tokenText, hs.token, hs.finished rfl] at hsource
    have hbefore : y.source.toList = before := by simpa using hsource
    rw [hstart, Session.lineOf, hbefore]

theorem errorAt_eq (h : x.Follows y) (obstacle : Obstacle) {s : TokenStream} {ts : List Token}
    (hs : s.StandsAt y.source ts) : x.errorAt ⟨obstacle, s⟩ = y.errorAt ⟨obstacle, ts⟩ := by
  have hline := lineOf_eq hs
  cases obstacle with
  | unexpected expected => simp only [errorAt, Session.errorAt, hs.token, hline]
  | unknownPlace =>
    simp only [errorAt, Session.errorAt, tokenText, hs.token, hline, Option.map_map]
    rfl
  | tooDeep => simp only [errorAt, Session.errorAt, h.budget_eq, hline]

/-- A session on a stream moves past the tokens that a session moves past. -/
theorem expectOneOf_eq (h : x.Follows y) (kinds : List TokenKind) :
    x.expectOneOf kinds = (y.expectOneOf kinds).map fun (t, _) => (t.kind, x.accept) := by
  have herror := h.errorAt_eq (.unexpected kinds) h.stands
  obtain ⟨source, options, _ | ⟨t, rest⟩⟩ := y
  · rw [expectOneOf, h.current?_eq, herror]
    rfl
  · rw [expectOneOf, h.current?_eq, herror, Session.expectOneOf, Session.step, Reader.token]
    simp only [Session.current?, List.head?_cons, Option.map_some]
    split <;> rfl

theorem expect_eq (h : x.Follows y) (kind : TokenKind) :
    x.expect kind = (y.expect kind).map fun (t, _) => (t.start, x.accept) := by
  have herror := h.errorAt_eq (.unexpected [kind]) h.stands
  have hstart := h.stands.start
  obtain ⟨source, options, _ | ⟨t, rest⟩⟩ := y
  · rw [expect, h.current?_eq, herror]
    rfl
  · rw [expect, h.current?_eq, herror, hstart t rfl, Session.expect, Session.step, Reader.token]
    simp only [Session.current?, List.head?_cons, Option.map_some, Option.some.injEq, beq_iff_eq]
    split <;> rfl

theorem call_eq (h : x.Follows y) (c : SessionCall) :
    x.call c = (y.call c).map fun _ => x.accept := by
  cases c with
  | accept => rfl
  | expect kind =>
    rw [call, Session.call, h.expect_eq]
    cases y.expect kind <;> rfl
  | expectOneOf kinds =>
    rw [call, Session.call, h.expectOneOf_eq]
    cases y.expectOneOf kinds <;> rfl

/-- The offset that a document keeps is that of the token at which a session stands. -/
theorem start_eq (h : x.Follows y) :
    (if x.current?.isSome then x.stream.tokenStart else 0) =
      (y.rest.head?.map Token.start).getD 0 := by
  have hstart := h.stands.start
  rw [h.current?_eq, Session.current?]
  rcases hrest : y.rest with _ | ⟨t, ts⟩
  · rfl
  · rw [hstart t (by rw [hrest]; rfl)]
    rfl

/-- **Parsing from a stream** is parsing the tokens left: the value of each string literal is there
when it is wanted. -/
theorem parse_eq (h : x.Follows y) : x.parse = y.parse.mapError .failure := by
  have hm := Rule.follows_pull (readNest_suffix y.budget) (readNest_progresses y.budget)
    (follows_pullNest y.source y.budget) definitions steady_definitions h.stands
  rw [parse, Session.parse, readDocument, h.budget_eq]
  generalize definitions.pull (pullNest Nest.body y.budget) x.stream = p at hm ⊢
  generalize definitions.read (readNest Nest.body y.budget) y.rest = o at hm ⊢
  cases hm with
  | error obstacle hs => exact congrArg (Except.error ∘ Halt.failure) (h.errorAt_eq obstacle hs)
  | ok ds hs => rw [h.start_eq]; rfl

end Follows

/-- Copies of a session on a stream stand at the token of the number of calls that have
succeeded. -/
theorem follows_of_mem_copies {source : String} {options : ParseOptions}
    {calls : List (CopyCall SessionCall)} {p : StreamSession × Nat}
    (h : p ∈ copies source options calls) :
    p.1.Follows (Session.atToken source options p.2) := by
  refine forall_mem_runCopies (P := fun p => p.1.Follows (Session.atToken source options p.2))
    ?_ calls ?_ p h
  · rintro c ⟨x, k⟩ (hx : x.Follows (Session.atToken source options k))
    rw [countCall, hx.call_eq]
    rcases (Session.atToken source options k).call c with e | y
    · exact hx
    · have haccept := hx.accept
      rwa [Session.accept_atToken] at haccept
  · rintro _ (_ | ⟨_, ⟨⟩⟩)
    exact follows_ofString source options

end StreamSession

end GraphQL

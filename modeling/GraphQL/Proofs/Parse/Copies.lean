import GraphQL.Parse.Session
import GraphQL.Token.Stream

/-!
# Calls on copies

A token stream or a session can be copied at any time, and each copy goes its own way from then on.
`runCopies` carries out a sequence of calls on a pool of copies; what every call preserves holds of
all copies afterwards (`forall_mem_runCopies`).
-/

namespace GraphQL

/-- A call on one of several copies of something, or one more copy of it. -/
inductive CopyCall (γ : Type) where
  /-- A call on the copy of the given number. -/
  | call (copy : Nat) (c : γ)
  /-- A new copy, as the copy of the given number is now. -/
  | clone (copy : Nat)
  deriving DecidableEq, Repr

variable {γ σ : Type}

/-- The copies after some calls.  Calls on a copy that there is not do nothing. -/
def runCopies (act : γ → σ → σ) : List (CopyCall γ) → List σ → List σ
  | [], pool => pool
  | .call copy c :: calls, pool => runCopies act calls (pool.modify copy (act c))
  | .clone copy :: calls, pool => runCopies act calls (pool ++ pool[copy]?.toList)

theorem forall_mem_modify {P : σ → Prop} {f : σ → σ} (hf : ∀ s, P s → P (f s)) {pool : List σ}
    (h : ∀ s ∈ pool, P s) (i : Nat) : ∀ s ∈ pool.modify i f, P s := by
  intro s' hs'
  obtain ⟨j, hj⟩ := List.mem_iff_getElem?.1 hs'
  rw [List.getElem?_modify] at hj
  obtain ⟨s, hs, rfl⟩ := Option.map_eq_some_iff.1 hj
  have hP := h s (List.mem_of_getElem? hs)
  split
  · exact hf s hP
  · exact hP

/-- What every call preserves holds of all copies after some calls. -/
theorem forall_mem_runCopies {P : σ → Prop} {act : γ → σ → σ} (hact : ∀ c s, P s → P (act c s))
    (calls : List (CopyCall γ)) {pool : List σ} (h : ∀ s ∈ pool, P s) :
    ∀ s ∈ runCopies act calls pool, P s := by
  induction calls generalizing pool with
  | nil => exact h
  | cons c calls ih =>
    cases c with
    | call copy c => exact ih (forall_mem_modify (hact c) h copy)
    | clone copy =>
      refine ih fun s hs => ?_
      obtain hs | hs := List.mem_append.1 hs
      · exact h s hs
      · exact h s (List.mem_of_getElem? (Option.mem_toList.1 hs))

/-! ### Token streams -/

/-- A call that changes a token stream. -/
inductive StreamCall where
  /-- Moves to the next token. -/
  | advance
  /-- Takes out the value of the latest token. -/
  | takeValue
  deriving DecidableEq, Repr

/-- A token stream after a call. -/
def TokenStream.call : StreamCall → TokenStream → TokenStream
  | .advance, s => s.advance
  | .takeValue, s => s.takeValue.2

/-- The token streams that calls on the stream of a source text and on copies of it lead to. -/
def TokenStream.copies (source : String) (calls : List (CopyCall StreamCall)) : List TokenStream :=
  runCopies call calls [ofString source]

/-! ### Sessions -/

/-- A call that moves a session on, if it succeeds. -/
inductive SessionCall where
  /-- Moves past any token. -/
  | accept
  /-- Moves past a token of the given kind. -/
  | expect (kind : TokenKind)
  /-- Moves past a token of one of the given kinds. -/
  | expectOneOf (kinds : List TokenKind)
  deriving DecidableEq, Repr

/-- The session after a call, or why the call fails. -/
def Session.call (s : Session) : SessionCall → Except ParseError Session
  | .accept => .ok s.accept
  | .expect kind => (s.expect kind).map Prod.snd
  | .expectOneOf kinds => (s.expectOneOf kinds).map Prod.snd

/-- Makes a call and counts it, if it succeeds. -/
def Session.countCall (c : SessionCall) : Session × Nat → Session × Nat
  | (s, count) =>
    match s.call c with
    | .ok s' => (s', count + 1)
    | .error _ => (s, count)

/-- The sessions that calls on a new session and on copies of it lead to, with the number of calls
on each that have succeeded. -/
def Session.copies (source : String) (options : ParseOptions)
    (calls : List (CopyCall SessionCall)) : List (Session × Nat) :=
  runCopies countCall calls [(ofString source options, 0)]

end GraphQL

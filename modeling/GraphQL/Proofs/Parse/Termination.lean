import GraphQL.Proofs.Parse.Frames
import GraphQL.Proofs.Parse.Returning

/-!
# Parsing ends

Whatever a source text is, and wherever a parser stands in it, every production that it calls comes
back: after finitely many steps, with the count of open nesting constructs as it was, whether it
succeeds or not.  What a loop calls in turn takes a token if it succeeds.  So the parser comes to
an end, which is the outcome of parsing (`StreamSession.descent_contract`).
-/

namespace GraphQL

open Descent
open TokenStream (StandsAt)

variable {α β : Type}

namespace Descent

variable {limit? : Option Nat} {d d₁ d₂ : Descent β}

/-- A descent has one end only. -/
theorem Steps.unique (h₁ : Steps limit? d d₁) (h₂ : Steps limit? d d₂)
    (hend₁ : d₁.step limit? = none) (hend₂ : d₂.step limit? = none) : d₁ = d₂ := by
  have hstuck : ∀ {e e' : Descent β}, e.step limit? = none → Steps limit? e e' → e = e' := by
    intro e e' he hsteps
    rcases hsteps.cases_head with rfl | ⟨c, hc, -⟩
    · rfl
    · rw [he] at hc
      cases hc
  rcases Relation.ReflTransGen.total_of_right_unique
    (fun _ _ _ h h' => Option.some.inj (h.symm.trans h')) h₁ h₂ with h | h
  · exact hstuck hend₁ h
  · exact (hstuck hend₂ h).symm

end Descent

/-- A production ends in one way only. -/
theorem Rule.Returns.unique {limit? : Option Nat} {r : Rule α} {s s₁ s₂ : Station}
    {ending₁ ending₂ : Ending α} (h₁ : r.Returns limit? s ending₁ s₁)
    (h₂ : r.Returns limit? s ending₂ s₂) : ending₁ = ending₂ ∧ s₁ = s₂ := by
  have h := (h₁ .done).unique (h₂ .done) rfl rfl
  cases h
  exact ⟨rfl, rfl⟩

namespace Station.Sound

variable {source : String} {limit? : Option Nat} {s s' : Station} {r : Rule α}

/-- A production of the grammar comes back from wherever a parser stands: with the count as it was,
without giving tokens back, and with a token taken if it succeeds and cannot be empty. -/
theorem exists_returns (h : s.Sound source limit?) (hr : r.InGrammar) :
    ∃ ending s', r.Returns limit? s ending s' ∧ s'.depth = s.depth ∧
      ∃ used, s.stream.left = used ++ s'.stream.left ∧
        (r.nullable = false → ∀ a, ending = .ok a → used ≠ []) := by
  obtain ⟨ts, hts⟩ := h.stands
  obtain ⟨stream, depth⟩ := s
  -- The budget is what the limit leaves; without a limit, more than there are tokens to nest with.
  obtain ⟨budget, hbudget, hfree⟩ : ∃ budget, (∀ limit ∈ limit?, limit = depth + budget) ∧
      (limit? = none → ts.length < budget) := by
    cases limit? with
    | none => exact ⟨ts.length + 1, by simp, fun _ => Nat.lt_succ_self _⟩
    | some limit =>
      refine ⟨limit - depth, fun l hl => ?_, fun hl => nomatch hl⟩
      obtain rfl : limit = l := Option.some.inj hl
      have hle := h.limited limit rfl
      simp only at hle
      omega
  obtain ⟨stream', hstands, hreturns⟩ := Rule.returns_readIn hr.steady hbudget hfree hts
  obtain ⟨used, hused⟩ := r.readIn_suffix budget ts
  refine ⟨_, ⟨stream', depth⟩, hreturns, rfl, used, ?_, fun hnull a ha hnil => ?_⟩
  · rw [hts.left_eq, hstands.left_eq]
    exact hused
  · rcases hread : r.readIn budget ts with e | ⟨b, rest⟩
    · rw [hread] at ha
      cases ha
    · have hlt := r.readIn_progresses budget hr.steady hnull hread
      rw [hread, hnil] at hused
      rw [hused] at hlt
      exact Nat.lt_irrefl _ hlt

end Station.Sound

/-- What holds of a parser at any moment. -/
structure Descent.Contract (limit? : Option Nat) (d : Descent β) : Prop where
  /-- It has not moved on past the end of the input, has closed no more nesting constructs than it
  has opened and has wanted no value that was gone. -/
  faultless : ∀ fault, d.control ≠ .fault fault
  /-- The count is the number of nesting constructs under way. -/
  counted : d.station.depth = d.control.opened
  /-- The count does not exceed the limit. -/
  limited : ∀ limit ∈ limit?, d.station.depth ≤ limit
  /-- The frames in use are bounded by the count. -/
  bounded : d.control.size ≤ frameBound * (d.station.depth + 1)
  /-- Whatever it calls is a production of the grammar. -/
  called : ∀ {α : Type} (r : Rule α) (k : Frames β α), d.control = .call r k → r.InGrammar
  /-- Each production of the grammar comes back, if it is called here. -/
  returns : ∀ {α : Type} (r : Rule α), r.InGrammar →
    ∃ ending s, r.Returns limit? d.station ending s
  /-- However it comes back, the count is as it was, and no token is given back. -/
  balanced : ∀ {α : Type} (r : Rule α), r.InGrammar → ∀ ending s,
    r.Returns limit? d.station ending s → s.depth = d.station.depth ∧
      ∃ used, d.station.stream.left = used ++ s.stream.left
  /-- What a loop calls in turn takes a token, if it succeeds. -/
  progress : ∀ {α : Type} (r : Rule α), Repeated r → ∀ a s,
    r.Returns limit? d.station (.ok a) s →
      ∃ used ≠ [], d.station.stream.left = used ++ s.stream.left

/-- A sound descent with room for its frames keeps the contract. -/
theorem Descent.Sound.contract {source : String} {limit? : Option Nat} {d : Descent β}
    (h : d.Sound source limit?) (hfits : d.control.Fits) : d.Contract limit? := by
  refine ⟨fun fault hf => ?_, h.counted, h.station.limited, h.counted ▸ hfits.size_le,
    fun r k hc => ?_, fun r hr => ?_, fun r hr ending s hreturns => ?_,
    fun r hr a s hreturns => ?_⟩
  · have hcontrol := h.inGrammar
    rw [hf] at hcontrol
    exact hcontrol
  · have hcontrol := h.inGrammar
    rw [hc] at hcontrol
    exact hcontrol.1
  · obtain ⟨ending, s, hreturns, -⟩ := h.station.exists_returns hr
    exact ⟨ending, s, hreturns⟩
  · obtain ⟨ending', s', hreturns', hdepth, used, hused, -⟩ := h.station.exists_returns hr
    obtain ⟨rfl, rfl⟩ := hreturns.unique hreturns'
    exact ⟨hdepth, used, hused⟩
  · obtain ⟨ending', s', hreturns', -, used, hused, hne⟩ :=
      h.station.exists_returns hr.inGrammar
    obtain ⟨rfl, rfl⟩ := hreturns.unique hreturns'
    exact ⟨used, hne hr.nullable a rfl, hused⟩

namespace StreamSession

/-- The parser that reads what is left as one document, before its first step. -/
def descent (x : StreamSession) : Descent (List Definition) :=
  ⟨.call definitions .done, ⟨x.stream, 0⟩⟩

/-- What is made of the end of that parser. -/
def outcome (x : StreamSession) (ending : Ending (List Definition)) (s : Station) :
    Except ParseError Document :=
  match ending with
  | .ok ds => .ok ⟨ds, if x.current?.isSome then x.stream.tokenStart else 0⟩
  | .error obstacle => .error (x.errorAt ⟨obstacle, s.stream⟩)

variable {source : String} {limit? : Option Nat} {x : StreamSession} {y : Session}

theorem Follows.sound_descent (h : x.Follows y) : x.descent.Sound y.source limit? where
  station := ⟨⟨y.rest, h.stands⟩, fun _ _ => Nat.zero_le _⟩
  counted := rfl
  inGrammar := ⟨.refl, trivial⟩

theorem fits_descent (x : StreamSession) : x.descent.control.Fits := by
  refine ⟨?_, trivial⟩
  rw [Frames.size, Frames.room, Frames.opened, Nat.zero_add, Nat.mul_one]
  exact height_definitions

/-- The parser comes to the end that parsing the tokens left has. -/
theorem Follows.descent_ends (h : x.Follows y) :
    ∃ ending s, Steps y.options.maxDepth? x.descent ⟨.back ending .done, s⟩ ∧ s.depth = 0 ∧
      y.parse = x.outcome ending s := by
  have hbudget : ∀ limit ∈ y.options.maxDepth?, limit = 0 + y.budget := by
    intro limit hl
    rw [Session.budget, hl, Nat.zero_add]
    rfl
  have hfree : y.options.maxDepth? = none → y.rest.length < y.budget := by
    intro hl
    rw [Session.budget, hl]
    exact Nat.lt_succ_self _
  obtain ⟨stream, hstands, hreturns⟩ :=
    Rule.returns_readIn steady_definitions hbudget hfree h.stands
  refine ⟨_, ⟨stream, 0⟩, hreturns .done, rfl, ?_⟩
  rw [Session.parse, readDocument]
  unfold Rule.readIn at hstands ⊢
  rcases hread : definitions.read (readNest Nest.body y.budget) y.rest with e | ⟨ds, rest⟩ <;>
    rw [hread] at hstands
  · exact congrArg Except.error (h.errorAt_eq e.obstacle hstands).symm
  · exact congrArg (fun start => Except.ok (Document.mk ds start)) h.start_eq.symm

/-- **Every production comes back, and so parsing ends**, whatever the source text and wherever in
it a parser starts.  At each moment of its work the contract holds; it comes to the end that parsing
has, with no nesting construct open; and no production comes to call itself but through a nesting
construct. -/
theorem descent_contract (source : String) (options : ParseOptions)
    (calls : List (CopyCall SessionCall)) {x : StreamSession} {count : Nat}
    (h : (x, count) ∈ copies source options calls) :
    (∀ d, Steps options.maxDepth? x.descent d → d.Contract options.maxDepth?) ∧
      (∃ ending s, Steps options.maxDepth? x.descent ⟨.back ending .done, s⟩ ∧ s.depth = 0 ∧
        (Session.atToken source options count).parse = x.outcome ending s) ∧
      ∀ (p : Production) (between : List Production),
        (p :: (between ++ [p])).IsChain Production.Uses →
          ∃ n : Nest, (Rule.nest n).production ∈ p :: between := by
  have hx := follows_of_mem_copies h
  refine ⟨fun d hd => ?_, hx.descent_ends, fun p between => exists_nest_of_cycle⟩
  have hsound : x.descent.Sound source options.maxDepth? := hx.sound_descent
  exact (hsound.steps hd).contract (fits_steps x.fits_descent hd)

/-- The entry of the list in an argument nests too deep, with the list and the selection set open;
both are closed again. -/
theorem descent_contract_list :
    ∃ x, (x, 1) ∈ copies "a {b(c:[1])}" ⟨some 2⟩ [.clone 0, .call 1 .accept] ∧
      (∃ n, (x.descent.run (some 2) n).station.depth = 2 ∧
        (x.descent.run (some 2) n).Contract (some 2)) ∧
      ∃ s, Steps (some 2) x.descent ⟨.back (.error .tooDeep) .done, s⟩ ∧ s.depth = 0 := by
  have h : (accept (ofString "a {b(c:[1])}" ⟨some 2⟩), 1) ∈
      copies "a {b(c:[1])}" ⟨some 2⟩ [.clone 0, .call 1 .accept] := by
    decide +kernel
  obtain ⟨hcontract, ⟨ending, s, hsteps, hdepth, hparse⟩, -⟩ := descent_contract _ _ _ h
  refine ⟨_, h, ⟨70, ?_, hcontract _ (steps_run _ _ _)⟩, s, ?_, hdepth⟩
  · decide +kernel
  · have hdeep : (Session.atToken "a {b(c:[1])}" ⟨some 2⟩ 1).parse =
        .error (.nestingTooDeep 2 1) := by
      decide +kernel
    rw [hdeep] at hparse
    rcases ending with (expected | _ | _) | ds
    · cases hparse
    · cases hparse
    · exact hsteps
    · cases hparse

end StreamSession

end GraphQL

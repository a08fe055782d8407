import GraphQL.Proofs.Parse.Spelling

/-!
# The maximum depth

Parsing with a maximum depth is parsing without limits, except that documents which nest deeper
are refused (`parseWith_limit`).
-/

namespace GraphQL

/-- The outcome of reading a source text, as a document or an error of a session. -/
theorem parseWith_eq (options : ParseOptions) (source : String) :
    parseWith options source =
      match readDocument (options.budget source) (tokens source) with
      | .ok d => .ok d
      | .error failure => .error ((Session.ofString source options).errorAt failure) := rfl

/-- Only a refusal to nest deeper tells the maximum depth. -/
theorem errorAt_congr {options options' : ParseOptions} {source : String} {e : Failure}
    (h : e.obstacle ≠ .tooDeep) :
    (Session.ofString source options).errorAt e = (Session.ofString source options').errorAt e := by
  rcases e with ⟨_ | _ | _, rest⟩
  · rfl
  · rfl
  · exact absurd rfl h

theorem errorAt_tooDeep (options : ParseOptions) (source : String) (rest : List Token) :
    ∃ line, (Session.ofString source options).errorAt ⟨.tooDeep, rest⟩ =
      .nestingTooDeep (options.budget source) line :=
  ⟨_, rfl⟩

/-- A bigger nesting budget keeps every outcome but a refusal to nest deeper. -/
theorem parseWith_of_budget_le (options options' : ParseOptions) {source : String}
    (hle : options.budget source ≤ options'.budget source)
    (h : ∀ limit line, parseWith options source ≠ .error (.nestingTooDeep limit line)) :
    parseWith options' source = parseWith options source := by
  have hdeep : ∀ rest, readDocument (options.budget source) (tokens source) ≠
      .error ⟨.tooDeep, rest⟩ := by
    intro rest hr
    obtain ⟨line, he⟩ := errorAt_tooDeep options source rest
    exact h _ line (parseWith_eq_error.2 ⟨_, hr, he⟩)
  rw [parseWith_eq, parseWith_eq, readDocument_of_le hle hdeep]
  rcases hr : readDocument (options.budget source) (tokens source) with e | d
  · refine congrArg Except.error (errorAt_congr fun he => hdeep e.rest ?_)
    rw [hr, ← he]
  · rfl

/-- Without limits no text nests too deep. -/
theorem parse_ne_nestingTooDeep (source : String) (limit line : Nat) :
    parse source ≠ .error (.nestingTooDeep limit line) := by
  intro h
  obtain ⟨⟨obstacle, rest⟩, hr, he⟩ := parseWith_eq_error.1 h
  cases obstacle with
  | tooDeep => exact readDocument_ne_tooDeep (Nat.lt_succ_self _) rest hr
  | unexpected expected | unknownPlace => cases he

/-- With a maximum depth, a text parses as it does without limits, or nests too deep. -/
theorem parseWith_limit_cases (source : String) (limit : Nat) :
    parseWith ⟨some limit⟩ source = parse source ∨
      ∃ line, parseWith ⟨some limit⟩ source = .error (.nestingTooDeep limit line) := by
  rcases le_total (ParseOptions.unlimited.budget source) limit with hle | hle
  · exact .inl (parseWith_of_budget_le .unlimited ⟨some limit⟩ hle
      (parse_ne_nestingTooDeep source))
  · by_cases h : ∀ l line, parseWith ⟨some limit⟩ source ≠ .error (.nestingTooDeep l line)
    · exact .inl (parseWith_of_budget_le ⟨some limit⟩ .unlimited hle h).symm
    · simp only [ne_eq, not_forall, not_not] at h
      obtain ⟨l, line, h⟩ := h
      obtain ⟨⟨obstacle, rest⟩, -, he⟩ := parseWith_eq_error.1 h
      cases obstacle with
      | tooDeep => exact .inr ⟨line, by rw [h, ← he]; cases he; rfl⟩
      | unexpected expected | unknownPlace => cases he

/-- **The maximum depth is a filter.**  A document that parses without limits still does if it
nests no deeper than the limit, and is refused if it does; what does not parse fails in the same
way or is refused.  So any outcome but a refusal is the outcome for every larger limit and
without limits. -/
theorem parseWith_limit (source : String) (limit : Nat) :
    (∀ d, parse source = .ok d → d.depth ≤ limit → parseWith ⟨some limit⟩ source = .ok d) ∧
    (∀ d, parse source = .ok d → limit < d.depth →
      ∃ line, parseWith ⟨some limit⟩ source = .error (.nestingTooDeep limit line)) ∧
    (∀ e, parse source = .error e → parseWith ⟨some limit⟩ source = .error e ∨
      ∃ line, parseWith ⟨some limit⟩ source = .error (.nestingTooDeep limit line)) ∧
    ((∀ l line, parseWith ⟨some limit⟩ source ≠ .error (.nestingTooDeep l line)) →
      parse source = parseWith ⟨some limit⟩ source ∧
      ∀ limit' ≥ limit, parseWith ⟨some limit'⟩ source = parseWith ⟨some limit⟩ source) := by
  refine ⟨fun d h hd => ?_, fun d h hd => ?_, fun e h => ?_, fun h => ⟨?_, fun limit' hle => ?_⟩⟩
  · obtain ⟨hs, hwf, -⟩ := spelled_of_parseWith h
    obtain ⟨d', hd', -⟩ := readDocument_of_spelled hs hwf hd
    have hok : parseWith ⟨some limit⟩ source = .ok d' := parseWith_eq_ok.2 hd'
    rcases parseWith_limit_cases source limit with hl | ⟨line, hl⟩
    · rw [hl, h]
    · rw [hl] at hok
      cases hok
  · rcases parseWith_limit_cases source limit with hl | hl
    · have hle := (spelled_of_parseWith (hl.trans h)).2.2
      exact absurd hle (Nat.not_le_of_lt hd)
    · exact hl
  · rcases parseWith_limit_cases source limit with hl | hl
    · exact .inl (hl.trans h)
    · exact .inr hl
  · rcases parseWith_limit_cases source limit with hl | ⟨line, hl⟩
    · exact hl.symm
    · exact absurd hl (h limit line)
  · exact parseWith_of_budget_le ⟨some limit⟩ ⟨some limit'⟩ hle h

/-- The selection set, the list in it and the item of the list count. -/
theorem parseWith_limit_list :
    parseWith ⟨some 3⟩ "{a(b:[1])}" = .ok ⟨[.operation ⟨.query, true, none, [], [],
      [.field ⟨none, "a", [⟨"b", .list [.int "1" 6] 5, 3⟩], [], none, 1⟩], 0⟩], 0⟩ ∧
      ∃ line, parseWith ⟨some 2⟩ "{a(b:[1])}" = .error (.nestingTooDeep 2 line) := by
  have h : parse "{a(b:[1])}" = .ok ⟨[.operation ⟨.query, true, none, [], [],
      [.field ⟨none, "a", [⟨"b", .list [.int "1" 6] 5, 3⟩], [], none, 1⟩], 0⟩], 0⟩ := by
    decide +kernel
  exact ⟨(parseWith_limit _ 3).1 _ h (by decide), (parseWith_limit _ 2).2.1 _ h (by decide)⟩

end GraphQL

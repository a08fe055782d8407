import GraphQL.Proofs.Lexical.Concatenation
import GraphQL.Proofs.Parse.Spelling
import GraphQL.Proofs.Reading.Continuation
import GraphQL.Proofs.Reading.Relocation

/-!
# Documents put together

A definition could go on with a block in braces and with no other token that starts a definition
(`definition_stops`).  So definitions may follow each other unless the second is an operation that
is nothing but a block, and a text that parses may be put after another with a line feed between
them: both are the document with the definitions of both (`parseWith_append_lineFeed`).
-/

namespace GraphQL

/-- What starts a definition, other than a block, never continues one. -/
theorem definition_stops {k : TokenKind} (h : definition.starts k = true)
    (hk : k ≠ .punctuator .braceOpen) : definition.stops k = true := by
  have hall : (TokenKind.every fun k => !definition.starts k || k == .punctuator .braceOpen ||
      definition.stops k) = true := by decide +kernel
  simpa [h, hk] using TokenKind.every_eq_true.1 hall k

namespace DerivesDocument

variable {b b' : Nat} {ds es : List Definition} {ts us : List Token}

theorem of_le (hb : b ≤ b') (h : DerivesDocument b ds ts) : DerivesDocument b' ds ts := by
  induction ds generalizing ts with
  | nil => exact h
  | cons d ds ih =>
    obtain ⟨u, v, rfl, hd, hv⟩ := h
    exact ⟨u, v, rfl, hd.of_le hb, ih hv⟩

theorem of_moved {m : Move} (hts : Moved m ts us) (h : DerivesDocument b ds ts) :
    DerivesDocument b (ds.map (Definition.relocate m.start)) us := by
  obtain ⟨_, rest', rfl, -, hr⟩ := (moves_definitions m b).ok hts (read_of_derivesDocument h)
  exact (derivesDocument_of_read hr).1

/-- Definitions may follow others that no token of theirs could continue. -/
theorem append (h : DerivesDocument b ds ts) (h' : DerivesDocument b es us)
    (hstop : ∀ k ∈ upcoming us, definition.stops k = true) :
    DerivesDocument b (ds ++ es) (ts ++ us) := by
  induction ds generalizing ts with
  | nil =>
    obtain rfl := h
    exact h'
  | cons d ds ih =>
    obtain ⟨u, v, rfl, hd, hv⟩ := h
    refine ⟨u, v ++ us, List.append_assoc .., Rule.derives_of_stops hd ?_, ih hv⟩
    -- What follows the definition is what followed it before, or starts the second document.
    cases v with
    | nil => exact fun k hk => .inr (hstop k hk)
    | cons t v => exact Set.subset_union_left

end DerivesDocument

/-- The document of two texts together: what they define, with the definitions of the second moved,
from the first token of both on. -/
def joined (f : Nat → Nat) (a b : String) (d e : Document) : Document :=
  ⟨d.definitions ++ e.definitions.map (Definition.relocate f),
    if tokens a ≠ [] then d.start else if tokens b ≠ [] then f e.start else 0⟩

section

variable {options : ParseOptions} {a b : String} {d e : Document}

theorem tokens_append_of_parseWith (ha : parseWith options a = .ok d) (b : String) :
    tokens (a ++ "\n" ++ b) =
      tokens a ++ (tokens b).map (Token.relocate (· + (byteLength a.toList + 1))) := by
  obtain ⟨hd, -⟩ := readDocument_eq_ok.1 (parseWith_eq_ok.1 ha)
  refine tokens_append_lineFeed fun t ht => ?_
  rw [error?_eq_none_of_derivesDocument hd t ht]
  exact nofun

section

variable (ha : parseWith options a = .ok d) (hb : parseWith options b = .ok e)
  (hbrace : ∀ t ∈ (tokens b).head?, t.kind ≠ .punctuator .braceOpen)

include ha hb hbrace

/-- Texts that parse, put together, are their documents put together, in whatever way the tokens of
the second are moved. -/
theorem parseWith_of_moved {m : Move} {us : List Token} {source : String}
    (hus : Moved m (tokens b) us) (hsource : tokens source = tokens a ++ us) :
    parseWith options source = .ok (joined m.start a b d e) := by
  obtain ⟨hd, hdstart⟩ := readDocument_eq_ok.1 (parseWith_eq_ok.1 ha)
  obtain ⟨he, hestart⟩ := readDocument_eq_ok.1 (parseWith_eq_ok.1 hb)
  have hlength : (tokens source).length = (tokens a).length + (tokens b).length := by
    rw [hsource, List.length_append, hus.length_eq]
  have hstop : ∀ k ∈ upcoming us, definition.stops k = true := by
    rintro k ⟨u, hhead, rfl⟩
    obtain ⟨us, rfl⟩ := List.head?_eq_some_iff.1 hhead
    obtain ⟨t, ts, ht, -, hts⟩ := List.forall₂_cons_right_iff.1 hus
    have hfirst : t ∈ (tokens b).head? := by
      rw [hts]
      rfl
    rw [ht.kind]
    exact definition_stops (upcoming_of_derivesDocument he ⟨t, hfirst, rfl⟩) (hbrace t hfirst)
  refine parseWith_eq_ok.2 (readDocument_eq_ok.2 ⟨?_, ?_⟩)
  · rw [hsource]
    exact (hd.of_le (options.budget_mono (by omega))).append
      ((he.of_moved hus).of_le (options.budget_mono (by omega))) hstop
  · rw [hsource, joined, hdstart, hestart]
    generalize tokens b = ts at hus
    rcases tokens a with _ | ⟨t, ts⟩
    · cases hus with
      | nil => rfl
      | cons ht _ => exact ht.start.symm
    · rfl

theorem parseWith_of_tokens {k : Nat} {source : String}
    (hsource : tokens source = tokens a ++ (tokens b).map (Token.relocate (· + k))) :
    parseWith options source = .ok (joined (laterBy k) a b d e) :=
  parseWith_of_moved ha hb hbrace (moved_later k _) hsource

/-- Where no offset is too large to report, none is cut down. -/
theorem parseWith_of_tokens_of_le {k : Nat} {source : String}
    (hsource : tokens source = tokens a ++ (tokens b).map (Token.relocate (· + k)))
    (hsize : byteLength b.toList + k ≤ maxOffset) :
    parseWith options source = .ok (joined (· + k) a b d e) :=
  parseWith_of_moved ha hb hbrace (moved_exactly_tokens hsize) hsource

end

end

/-- **Documents put together.**  If two texts parse, and the second does not start with a block,
both with a line feed between them parse as the definitions of the first and those of the second,
which start later by the length of the first text and the line feed.  Offsets that are too large to
report are cut down; no offset of a shorter text is. -/
theorem parseWith_append_lineFeed {options : ParseOptions} {a b : String} {d e : Document}
    (ha : parseWith options a = .ok d) (hb : parseWith options b = .ok e)
    (hbrace : ∀ t ∈ (tokens b).head?, t.kind ≠ .punctuator .braceOpen) :
    let k := byteLength a.toList + 1
    tokens (a ++ "\n" ++ b) = tokens a ++ (tokens b).map (Token.relocate (· + k)) ∧
      parseWith options (a ++ "\n" ++ b) = .ok (joined (laterBy k) a b d e) ∧
      (byteLength (a ++ "\n" ++ b).toList ≤ maxOffset →
        parseWith options (a ++ "\n" ++ b) = .ok (joined (· + k) a b d e)) := by
  intro k
  have htokens := tokens_append_of_parseWith ha b
  refine ⟨htokens, parseWith_of_tokens ha hb hbrace htokens, fun hsize => ?_⟩
  refine parseWith_of_tokens_of_le ha hb hbrace htokens ?_
  rw [String.toList_append, byteLength_append, String.toList_append, byteLength_append] at hsize
  exact (Nat.add_comm ..).trans_le hsize

/-- A definition that a block could continue, before an operation with its keyword. -/
theorem parseWith_append_lineFeed_scalar :
    parse "type A#\nquery{b}" = .ok ⟨[.type ⟨none, ⟨"A", [], .object [] none⟩, 0⟩,
      .operation ⟨.query, false, none, [], [], [.field ⟨none, "b", [], [], none, 14⟩], 8⟩], 0⟩ :=
  (@parseWith_append_lineFeed .unlimited "type A#" "query{b}"
    ⟨[.type ⟨none, ⟨"A", [], .object [] none⟩, 0⟩], 0⟩
    ⟨[.operation ⟨.query, false, none, [], [], [.field ⟨none, "b", [], [], none, 6⟩], 0⟩], 0⟩
    (by decide +kernel) (by decide +kernel) (by decide +kernel)).2.2 (by decide +kernel)

/-! ### Texts that are too long to report all offsets -/

/-- A scalar type, and spaces up to the end of the text, are that type. -/
theorem parse_scalarThen_empty (n : Nat) :
    parse (scalarThen n "") = .ok ⟨[.type ⟨none, ⟨"A", [], .scalar⟩, 0⟩], 0⟩ := by
  have hempty : tokens "" = [] := rfl
  refine parseWith_eq_ok.2 ?_
  rw [ParseOptions.budget, tokens_scalarThen, hempty, List.map_nil]
  decide +kernel

/-- **Offsets are cut down.**  A directive eight bytes into the second text does not start eight
bytes after the place of that text, if this place is the last but five of which the offset can be
reported. -/
theorem parse_append_cutDown :
    parse (scalarThen (maxOffset - 15) "") = .ok ⟨[.type ⟨none, ⟨"A", [], .scalar⟩, 0⟩], 0⟩ ∧
    parse "scalar B@c" = .ok ⟨[.type ⟨none, ⟨"B", [⟨"c", [], 8⟩], .scalar⟩, 0⟩], 0⟩ ∧
    (tokens "scalar B@c").head? = some ⟨.keyword .scalar, 0⟩ ∧
    byteLength (scalarThen (maxOffset - 15) "").toList + 1 = 4294967290 ∧
    parse (scalarThen (maxOffset - 15) "" ++ "\n" ++ "scalar B@c") ≠
      .ok (joined (· + 4294967290) (scalarThen (maxOffset - 15) "") "scalar B@c"
        ⟨[.type ⟨none, ⟨"A", [], .scalar⟩, 0⟩], 0⟩
        ⟨[.type ⟨none, ⟨"B", [⟨"c", [], 8⟩], .scalar⟩, 0⟩], 0⟩) := by
  have ha := parse_scalarThen_empty (maxOffset - 15)
  have hb : parse "scalar B@c" =
      .ok ⟨[.type ⟨none, ⟨"B", [⟨"c", [], 8⟩], .scalar⟩, 0⟩], 0⟩ := by decide +kernel
  have hfirst : (tokens "scalar B@c").head? = some ⟨.keyword .scalar, 0⟩ := by decide +kernel
  have hlength : byteLength (scalarThen (maxOffset - 15) "").toList + 1 = 4294967290 := by
    rw [byteLength_scalarThen]
    rfl
  refine ⟨ha, hb, hfirst, hlength, ?_⟩
  have htokens := tokens_append_of_parseWith ha "scalar B@c"
  rw [hlength] at htokens
  rw [parse, parseWith_of_tokens ha hb (by rw [hfirst]; decide) htokens]
  intro h
  have hstarts := congrArg Document.definitions (Except.ok.inj h)
  simp only [joined, List.map_cons, List.map_nil, List.append_cancel_left_eq, List.cons.injEq,
    Definition.relocate, TypeDeclaration.relocate, Directive.relocate, Definition.type.injEq,
    TypeDefinition.mk.injEq, TypeDeclaration.mk.injEq, Directive.mk.injEq, true_and,
    and_true] at hstarts
  have hdirective : laterBy 4294967290 8 = 8 + 4294967290 := hstarts.1.1
  exact absurd hdirective (by decide)

end GraphQL

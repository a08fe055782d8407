import GraphQL.Proofs.Reading.Derivation

/-!
# One token of lookahead

For each rule two sets of token kinds can be computed: those that a tree of the rule can start
with (`Rule.starts`) and those that never continue a tree that could end (`Rule.stops`).  A rule
is *clear* if, wherever something may be left out or repeated, the kind of the next token tells
whether it is there (`Rule.clear`).  The rules of the grammar are clear (`clear_definition`); only
a list of definitions is not.

* `Rule.starts_of_derives`: derived trees start as computed.
* `Rule.derives_of_stops`: a derived tree may be followed by whatever stops its rule.
-/

namespace GraphQL

variable {α : Type}

namespace TokenKind

/-- Every kind. -/
def all : List TokenKind :=
  Punctuator.all.map punctuator ++ Keyword.all.map keyword ++
    [int, float, string, name, unknownCharacter, invalidString]

theorem mem_all (k : TokenKind) : k ∈ all := by
  cases k with
  | punctuator p => cases p <;> decide
  | keyword k => cases k <;> decide
  | _ => decide

/-- Whether every kind passes a test. -/
def every (test : TokenKind → Bool) : Bool := all.all test

theorem every_eq_true {test : TokenKind → Bool} : every test = true ↔ ∀ k, test k = true := by
  simp [every, mem_all]

end TokenKind

/-- Whether a token of the kind can start a nesting construct. -/
def Nest.starts : Nest → TokenKind → Bool
  | .selectionSet, k => k == .punctuator .braceOpen
  | .value, k => valueStart.contains k || isScalarKind k
  | .typeRef, k => k.isNameLike || k == .punctuator .bracketOpen

/-- Whether a token of the kind never continues a nesting construct that could end before it. -/
def Nest.stops : Nest → TokenKind → Bool
  | .typeRef, k => k != .punctuator .bang
  | _, _ => true

namespace Rule

/-- Whether a token of the kind can start a tree of the rule. -/
def starts : {α : Type} → Rule α → TokenKind → Bool
  | _, .done _, _ | _, .stuck _, _ => false
  | _, .token accepts _, k => accepts k
  | _, .place _, k => k == .name
  | _, .map _ r, k | _, .located r, k => r.starts k
  | _, .seq f r, k => f.starts k || f.nullable && r.starts k
  | _, .branch test yes no, k => if test k then yes.starts k else no.starts k
  | _, .whileAt test item, k => test k && item.starts k
  | _, .upTo close item, k => k == close || item.starts k
  | _, .nest n, k => n.starts k

/-- Whether a token of the kind never continues a tree of the rule that could end before it. -/
def stops : {α : Type} → Rule α → TokenKind → Bool
  | _, .done _, _ | _, .stuck _, _ | _, .token _ _, _ | _, .place _, _ | _, .upTo _ _, _ => true
  | _, .map _ r, k | _, .located r, k => r.stops k
  | _, .seq f r, k => r.stops k && (!r.nullable || f.stops k)
  | _, .branch test yes no, k => yes.stops k && no.stops k && !(no.nullable && test k)
  | _, .whileAt test item, k => !test k && item.stops k
  | _, .nest n, k => n.stops k

/-- Whether the kind of the next token always tells how the rule goes on. -/
def clear : {α : Type} → Rule α → Bool
  | _, .done _ | _, .stuck _ | _, .token _ _ | _, .place _ | _, .nest _ => true
  | _, .map _ r | _, .located r => r.clear
  | _, .seq f r => f.clear && r.clear && TokenKind.every fun k => !r.starts k || f.stops k
  | _, .branch test yes no =>
    yes.clear && no.clear && TokenKind.every fun k => test k == yes.starts k
  | _, .whileAt test item =>
    item.clear && TokenKind.every fun k => !test k || item.starts k && item.stops k
  | _, .upTo close item =>
    item.clear && !item.starts close && item.stops close &&
      TokenKind.every fun k => !item.starts k || item.stops k

end Rule

theorem clear_body (n : Nest) : n.body.clear = true := by
  cases n <;> decide

theorem clear_definition : definition.clear = true := by decide +kernel

theorem starts_body (n : Nest) (k : TokenKind) : n.body.starts k = n.starts k := by
  have h : (TokenKind.every fun k => n.body.starts k == n.starts k) = true := by
    cases n <;> decide
  simpa using TokenKind.every_eq_true.1 h k

theorem stops_body (n : Nest) (k : TokenKind) : n.body.stops k = n.stops k := by
  have h : (TokenKind.every fun k => n.body.stops k == n.stops k) = true := by
    cases n <;> decide
  simpa using TokenKind.every_eq_true.1 h k

/-! ### What derived trees start with -/

section

variable {nested : (n : Nest) → Derivable n.Tree}

theorem Derivable.not_closes_nil {item : Derivable α} {close : TokenKind} (as : List α) :
    ¬ Closes item close as [] := by
  induction as with
  | nil => rintro ⟨t, h, -⟩; exact List.cons_ne_nil _ _ h.symm
  | cons a as ih =>
    rintro ⟨u, v, h, -, hv⟩
    obtain ⟨rfl, rfl⟩ := List.append_eq_nil_iff.1 h.symm
    exact ih hv

variable (hs : ∀ {n : Nest} {next : Set TokenKind} {a : n.Tree} {w : List Token},
  nested n next a w → ∃ t v, w = t :: v ∧ n.starts t.kind = true)

include hs

/-- Only nullable rules derive trees from no tokens. -/
theorem Rule.nullable_of_derives {r : Rule α} {next : Set TokenKind} {a : α}
    (h : r.Derives nested next a []) : r.nullable = true := by
  induction r generalizing next with
  | done a | whileAt test item => rfl
  | token accepts expected => exact absurd h.1.symm (List.cons_ne_nil _ _)
  | place f =>
    obtain ⟨t, ht, -⟩ := h
    exact absurd ht.symm (List.cons_ne_nil _ _)
  | stuck expected => exact h.elim
  | map f r ih | located r ih =>
    obtain ⟨a, ha, -⟩ := h
    exact ih ha
  | seq f r ihf ihr =>
    obtain ⟨g, u, a, v, huv, hg, ha, -⟩ := h
    obtain ⟨rfl, rfl⟩ := List.append_eq_nil_iff.1 huv.symm
    simp [nullable, ihf hg, ihr ha]
  | branch test yes no ihy ihn =>
    rcases h with ⟨ht, -⟩ | ⟨-, -, ha⟩
    · exact absurd rfl (ne_nil_of_nextIs ht)
    · simp [nullable, ihn ha]
  | upTo close item => exact absurd h (Derivable.not_closes_nil a)
  | nest n =>
    obtain ⟨t, v, ht, -⟩ := hs h
    exact absurd ht.symm (List.cons_ne_nil _ _)

theorem Rule.ne_nil_of_derives {r : Rule α} (hr : r.nullable = false) {next : Set TokenKind}
    {a : α} {w : List Token} (h : r.Derives nested next a w) : w ≠ [] := by
  rintro rfl
  rw [nullable_of_derives hs h] at hr
  exact Bool.noConfusion hr

/-- Derived trees start with a token of the kinds computed. -/
theorem Rule.starts_of_derives {r : Rule α} (hst : r.steady = true) {next : Set TokenKind} {a : α}
    {t : Token} {w : List Token} (h : r.Derives nested next a (t :: w)) :
    r.starts t.kind = true := by
  induction r generalizing next t w with
  | done a => exact absurd h.2 (List.cons_ne_nil _ _)
  | token accepts expected =>
    obtain ⟨ht, h⟩ := h
    obtain ⟨rfl, -⟩ := List.cons.inj ht
    exact h
  | place f =>
    obtain ⟨t', ht, h, -⟩ := h
    obtain ⟨rfl, -⟩ := List.cons.inj ht
    simp [starts, h]
  | stuck expected => exact h.elim
  | map f r ih =>
    obtain ⟨a, ha, -⟩ := h
    exact ih hst ha
  | located r ih =>
    simp only [steady, Bool.and_eq_true] at hst
    obtain ⟨a, ha, -⟩ := h
    exact ih hst.1 ha
  | seq f r ihf ihr =>
    simp only [steady, Bool.and_eq_true] at hst
    obtain ⟨g, u, a, v, huv, hg, ha, -⟩ := h
    -- The first token is one of the second part if the first part is empty.
    rcases List.cons_eq_append_iff.1 huv with ⟨rfl, rfl⟩ | ⟨u', rfl, -⟩
    · simp [starts, nullable_of_derives hs hg, ihr hst.2 ha]
    · simp [starts, ihf hst.1 hg]
  | branch test yes no ihy ihn =>
    simp only [steady, Bool.and_eq_true] at hst
    rcases h with ⟨ht, ha⟩ | ⟨ht, -, ha⟩
    · simpa [starts, show test t.kind = true from ht] using ihy hst.1.1 ha
    · simpa [starts, show test t.kind = false from ht] using ihn hst.1.2 ha
  | whileAt test item ih =>
    simp only [steady, Bool.and_eq_true] at hst
    cases a with
    | nil => exact absurd h.1 (List.cons_ne_nil _ _)
    | cons a as =>
      obtain ⟨u, v, huv, ht, hu, -⟩ := h
      rcases List.cons_eq_append_iff.1 huv with ⟨rfl, -⟩ | ⟨u', rfl, -⟩
      · exact absurd rfl (ne_nil_of_nextIs ht)
      · simp [starts, show test t.kind = true from ht, ih hst.1 hu]
  | upTo close item ih =>
    simp only [steady, Bool.and_eq_true, Bool.not_eq_true'] at hst
    cases a with
    | nil =>
      obtain ⟨t', ht, h⟩ := h
      obtain ⟨rfl, -⟩ := List.cons.inj ht
      simp [starts, h]
    | cons a as =>
      obtain ⟨u, v, huv, hu, -⟩ := h
      rcases List.cons_eq_append_iff.1 huv with ⟨rfl, -⟩ | ⟨u', rfl, -⟩
      · exact absurd rfl (ne_nil_of_derives hs hst.2 hu)
      · simp [starts, ih hst.1 hu]
  | nest n =>
    obtain ⟨t', v, ht, h⟩ := hs h
    obtain ⟨rfl, -⟩ := List.cons.inj ht
    exact h

end

theorem starts_of_deriveNest {budget : Nat} {n : Nest} {next : Set TokenKind} {a : n.Tree}
    {w : List Token} (h : deriveNest budget n next a w) :
    ∃ t v, w = t :: v ∧ n.starts t.kind = true := by
  induction budget generalizing n next w with
  | zero => exact h.elim
  | succ budget ih =>
    cases w with
    | nil => exact absurd rfl (Rule.ne_nil_of_derives ih (nullable_body n) h)
    | cons t v =>
      have := Rule.starts_of_derives ih (steady_body n) h
      exact ⟨t, v, rfl, by rwa [starts_body] at this⟩

/-- Derived trees start with a token of the kinds computed. -/
theorem Rule.DerivesIn.starts {budget : Nat} {r : Rule α} (hst : r.steady = true)
    {next : Set TokenKind} {a : α} {t : Token} {w : List Token}
    (h : r.DerivesIn budget next a (t :: w)) : r.starts t.kind = true :=
  starts_of_derives starts_of_deriveNest hst h

theorem Rule.DerivesIn.ne_nil {budget : Nat} {r : Rule α} (hr : r.nullable = false)
    {next : Set TokenKind} {a : α} {w : List Token} (h : r.DerivesIn budget next a w) : w ≠ [] :=
  ne_nil_of_derives starts_of_deriveNest hr h

/-! ### What may follow derived trees -/

/-- Whether kinds that pass a test may follow every derivable tree. -/
def Derivable.Extends (d : Derivable α) (stops : TokenKind → Bool) : Prop :=
  ∀ ⦃next next' : Set TokenKind⦄, next' ⊆ next ∪ {k | stops k = true} →
    ∀ a w, d next a w → d next' a w

theorem Derivable.Extends.repeats {item : Derivable α} {stops : TokenKind → Bool}
    (h : item.Extends stops) (test : TokenKind → Bool) :
    (Repeats item test).Extends fun k => !test k && stops k := by
  intro next next' hn as
  induction as with
  | nil =>
    rintro w ⟨rfl, hw⟩
    refine ⟨rfl, fun k hk => ?_⟩
    rcases hn hk with hk | hk
    · exact hw k hk
    · simp only [Set.mem_ofPred_eq, Bool.and_eq_true, Bool.not_eq_true'] at hk
      exact hk.1
  | cons a as ih =>
    rintro w ⟨u, v, rfl, ht, hu, hv⟩
    refine ⟨u, v, rfl, ht, h ?_ a u hu, ih v hv⟩
    rintro k ⟨rfl, hk⟩
    refine (hn hk).imp (fun hk => ⟨rfl, hk⟩) fun hk => ?_
    simp only [Set.mem_ofPred_eq, Bool.and_eq_true] at hk
    exact hk.2

theorem Rule.extends_derives {nested : (n : Nest) → Derivable n.Tree}
    (hs : ∀ {n : Nest} {next : Set TokenKind} {a : n.Tree} {w : List Token},
      nested n next a w → ∃ t v, w = t :: v ∧ n.starts t.kind = true)
    (he : ∀ n, (nested n).Extends n.stops) :
    ∀ {α : Type} (r : Rule α), (r.Derives nested).Extends r.stops := by
  intro α r
  induction r with
  | done a | token accepts expected | place f | stuck expected | upTo close item =>
    exact fun _ _ _ _ _ h => h
  | map f r ih | located r ih =>
    rintro next next' hn b w ⟨a, ha, rfl⟩
    exact ⟨a, ih hn a w ha, rfl⟩
  | seq f r ihf ihr =>
    rintro next next' hn b w ⟨g, u, a, v, rfl, hg, ha, rfl⟩
    -- What follows the sequence follows its first part only if the second is empty.
    refine ⟨g, u, a, v, rfl, ihf ?_ g u hg, ihr ?_ a v ha, rfl⟩
    · rintro k ⟨rfl, hk⟩
      refine (hn hk).imp (fun hk => ⟨rfl, hk⟩) fun hk => ?_
      simpa [stops, nullable_of_derives hs ha] using (Bool.and_eq_true_iff.1 hk).2
    · intro k hk
      exact (hn hk).imp_right fun hk => (Bool.and_eq_true_iff.1 hk).1
  | branch test yes no ihy ihn =>
    have hstops : ∀ {next next' : Set TokenKind},
        next' ⊆ next ∪ {k | (branch test yes no).stops k = true} → ∀ {k : TokenKind}, k ∈ next' →
          k ∈ next ∨ (yes.stops k = true ∧ no.stops k = true ∧
            (no.nullable = false ∨ test k = false)) := by
      intro next next' hn k hk
      refine (hn hk).imp_right fun hk => ?_
      simpa [stops, and_assoc] using hk
    rintro next next' hn a w (⟨ht, ha⟩ | ⟨ht, hk, ha⟩)
    · exact .inl ⟨ht, ihy (fun k hk => (hstops hn hk).imp_right (·.1)) a w ha⟩
    · refine .inr ⟨ht, ?_, ihn (fun k hk => (hstops hn hk).imp_right (·.2.1)) a w ha⟩
      rintro rfl k hk'
      rcases hstops hn hk' with h | ⟨-, -, h | h⟩
      · exact hk rfl k h
      · rw [nullable_of_derives hs ha] at h
        exact Bool.noConfusion h
      · exact h
  | whileAt test item ih => exact ih.repeats test
  | nest n => exact he n

theorem extends_deriveNest (budget : Nat) (n : Nest) : (deriveNest budget n).Extends n.stops := by
  induction budget generalizing n with
  | zero => exact fun _ _ _ _ _ h => h
  | succ budget ih =>
    have := Rule.extends_derives starts_of_deriveNest ih n.body
    rwa [show n.body.stops = n.stops from funext (stops_body n)] at this

/-- A derived tree may be followed by whatever stops its rule. -/
theorem Rule.derives_of_stops {budget : Nat} {r : Rule α} {next next' : Set TokenKind} {a : α}
    {w : List Token} (h : r.DerivesIn budget next a w)
    (hn : next' ⊆ next ∪ {k | r.stops k = true}) : r.DerivesIn budget next' a w :=
  extends_derives starts_of_deriveNest (extends_deriveNest budget) r hn a w h

end GraphQL

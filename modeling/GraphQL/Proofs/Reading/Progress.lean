import GraphQL.Grammar.Document
import GraphQL.Proofs.Reading.Outcome

/-!
# Progress of reading

Reading by a rule never gives tokens back: it leaves a final part of the tokens (`read_suffix`),
and a rule that spells nothing without a token takes one at least (`progresses_read`).  So the
bounds of `Reader.whileAt` and `Reader.upTo` are never used up, and a repetition reads as a loop
without a bound (`read_whileAt`, `read_upTo`).

All this is for *steady* rules, whose repetitions take a token with each item and whose choices
take the token that decides for them; the rules of the grammar are steady (`steady_definition`).
-/

namespace GraphQL

variable {α : Type}

namespace Rule

variable {nested : (n : Nest) → Reader n.Tree}

/-! ### Rules that cannot be empty -/

/-- Whether a rule may spell a tree by no token at all. -/
def nullable : {α : Type} → Rule α → Bool
  | _, .done _ | _, .whileAt _ _ => true
  | _, .token _ _ | _, .place _ | _, .stuck _ | _, .upTo _ _ | _, .nest _ => false
  | _, .map _ r | _, .located r => r.nullable
  | _, .seq f r => f.nullable && r.nullable
  | _, .branch _ yes no => yes.nullable || no.nullable

/-- Whether every item of a repetition, everything that the next token decides for, and everything
that keeps the offset of its first token takes a token. -/
def steady : {α : Type} → Rule α → Bool
  | _, .done _ | _, .token _ _ | _, .place _ | _, .stuck _ | _, .nest _ => true
  | _, .map _ r => r.steady
  | _, .seq f r => f.steady && r.steady
  | _, .branch _ yes no => yes.steady && no.steady && !yes.nullable
  | _, .whileAt _ item | _, .upTo _ item => item.steady && !item.nullable
  | _, .located r => r.steady && !r.nullable

/-- Reading leaves a final part of the tokens, whether it fails or not. -/
theorem read_suffix (hn : ∀ n ts, ∃ u, ts = u ++ (nested n ts).rest) :
    ∀ {α : Type} (r : Rule α) (ts : List Token), ∃ u, ts = u ++ (r.read nested ts).rest := by
  intro α r
  induction r with
  | done a | stuck expected => exact fun ts => ⟨[], rfl⟩
  | token accepts expected =>
    intro ts
    rcases h : Reader.token accepts expected ts with e | ⟨t, rest⟩
    · obtain ⟨-, rfl⟩ := Reader.token_eq_error.1 h
      exact ⟨[], by rw [read, h]; rfl⟩
    · obtain ⟨rfl, -⟩ := Reader.token_eq_ok.1 h
      exact ⟨[t], by rw [read, h]; rfl⟩
  | place f =>
    intro ts
    rcases h : Reader.place f ts with e | ⟨l, rest⟩
    · obtain ⟨-, rfl⟩ | ⟨-, rfl⟩ := Reader.place_eq_error.1 h
      · exact ⟨[], by rw [read, h]; rfl⟩
      · exact ⟨[], by rw [read, h]; rfl⟩
    · obtain ⟨t, rfl, -⟩ := Reader.place_eq_ok.1 h
      exact ⟨[t], by rw [read, h]; rfl⟩
  | map f r ih => intro ts; simpa [read] using ih ts
  | seq f r ihf ihr => exact Reader.suffix_seq ihf ihr
  | branch test yes no ihy ihn => exact Reader.suffix_branch ihy ihn
  | whileAt test item ih => exact fun ts => Reader.suffix_whileAt ih test _ ts
  | upTo close item ih => exact fun ts => Reader.suffix_upTo ih close _ ts
  | nest n => exact hn n
  | located r ih => intro ts; simpa [read, Reader.located] using ih ts

/-! ### Repetitions without bounds -/

section

variable {item : Rule α} (h : (item.read nested).Progresses)

include h

/-- A loop reads within any bound that is above the number of tokens. -/
theorem read_whileAt_of_lt (test : TokenKind → Bool) {bound : Nat} {ts : List Token}
    (hb : ts.length < bound) :
    (whileAt test item).read nested ts = Reader.whileAt test (item.read nested) bound ts :=
  Reader.whileAt_bound h test _ _ ts (Nat.lt_succ_self _) hb

theorem read_upTo_of_lt (close : TokenKind) {bound : Nat} {ts : List Token}
    (hb : ts.length < bound) :
    (upTo close item).read nested ts = Reader.upTo close (item.read nested) bound ts :=
  Reader.upTo_bound h close _ _ ts (Nat.lt_succ_self _) hb

theorem read_whileAt (test : TokenKind → Bool) :
    (whileAt test item).read nested =
      Reader.branch test
        (Reader.seq (Reader.map List.cons (item.read nested)) ((whileAt test item).read nested))
        fun ts => .ok ([], ts) := by
  funext ts
  rw [read_whileAt_of_lt h test (Nat.lt_succ_self _), Reader.whileAt_succ]
  refine if_congr Iff.rfl (Reader.item_congr fun a mid ha => ?_) rfl
  exact (read_whileAt_of_lt h test (h ha)).symm

theorem read_upTo (close : TokenKind) :
    (upTo close item).read nested =
      Reader.branch (· == close) (fun ts => .ok ([], ts.drop 1))
        (Reader.seq (Reader.map List.cons (item.read nested))
          ((upTo close item).read nested)) := by
  funext ts
  rw [read_upTo_of_lt h close (Nat.lt_succ_self _), Reader.upTo_succ]
  refine if_congr Iff.rfl rfl (Reader.item_congr fun a mid ha => ?_)
  exact (read_upTo_of_lt h close (h ha)).symm

/-- A loop reads an item and then others, or nothing. -/
theorem read_whileAt_eq_ok {test : TokenKind → Bool} {ts rest : List Token} {as : List α} :
    (whileAt test item).read nested ts = .ok (as, rest) ↔
      (Reader.nextIs test ts = true ∧ ∃ a mid as', item.read nested ts = .ok (a, mid) ∧
        (whileAt test item).read nested mid = .ok (as', rest) ∧ a :: as' = as) ∨
      (Reader.nextIs test ts = false ∧ [] = as ∧ ts = rest) := by
  conv_lhs => rw [read_whileAt h, Reader.branch_eq_iff, Reader.item_eq_ok]
  simp

/-- A loop fails where an item fails. -/
theorem read_whileAt_eq_error {test : TokenKind → Bool} {ts : List Token} {e : Failure} :
    (whileAt test item).read nested ts = .error e ↔
      Reader.nextIs test ts = true ∧ (item.read nested ts = .error e ∨ ∃ a mid,
        item.read nested ts = .ok (a, mid) ∧ (whileAt test item).read nested mid = .error e) := by
  conv_lhs => rw [read_whileAt h, Reader.branch_eq_iff, Reader.item_eq_error]
  simp

/-- A loop up to a closing token reads this token, or an item and then others. -/
theorem read_upTo_eq_ok {close : TokenKind} {ts rest : List Token} {as : List α} :
    (upTo close item).read nested ts = .ok (as, rest) ↔
      (∃ t, ts = t :: rest ∧ t.kind = close ∧ [] = as) ∨
      (Reader.nextIs (· == close) ts = false ∧ ∃ a mid as', item.read nested ts = .ok (a, mid) ∧
        (upTo close item).read nested mid = .ok (as', rest) ∧ a :: as' = as) := by
  conv_lhs => rw [read_upTo h, Reader.branch_eq_iff, Reader.item_eq_ok]
  refine or_congr ?_ Iff.rfl
  cases ts with
  | nil => simp [Reader.nextIs]
  | cons t ts =>
    constructor
    · rintro ⟨ht, hr⟩
      cases hr
      exact ⟨t, rfl, by simpa [Reader.nextIs] using ht, rfl⟩
    · rintro ⟨t, hts, ht, rfl⟩
      cases hts
      exact ⟨by simpa [Reader.nextIs] using ht, rfl⟩

theorem read_upTo_eq_error {close : TokenKind} {ts : List Token} {e : Failure} :
    (upTo close item).read nested ts = .error e ↔
      Reader.nextIs (· == close) ts = false ∧ (item.read nested ts = .error e ∨ ∃ a mid,
        item.read nested ts = .ok (a, mid) ∧ (upTo close item).read nested mid = .error e) := by
  conv_lhs => rw [read_upTo h, Reader.branch_eq_iff, Reader.item_eq_error]
  simp

end

/-! ### Rules that take tokens -/

/-- A steady rule that is not nullable takes a token at least. -/
theorem progresses_read (hs : ∀ n ts, ∃ u, ts = u ++ (nested n ts).rest)
    (hn : ∀ n, (nested n).Progresses) :
    ∀ {α : Type} (r : Rule α), r.steady = true → r.nullable = false →
      (r.read nested).Progresses := by
  -- In a sequence one part takes a token; of the other it is enough that it gives none back.
  have hle : ∀ {α : Type} (r : Rule α) {ts : List Token} {a : α} {rest : List Token},
      r.read nested ts = .ok (a, rest) → rest.length ≤ ts.length := by
    intro α r ts a rest h
    obtain ⟨u, hu⟩ := read_suffix hs r ts
    rw [h, Outcome.rest] at hu
    rw [hu, List.length_append]
    omega
  intro α r
  induction r with
  | done a | whileAt test item => simp [nullable]
  | token accepts expected =>
    rintro - - ts t rest h
    obtain ⟨rfl, -⟩ := Reader.token_eq_ok.1 h
    exact Nat.lt_succ_self _
  | place f =>
    rintro - - ts l rest h
    obtain ⟨t, rfl, -⟩ := Reader.place_eq_ok.1 h
    exact Nat.lt_succ_self _
  | stuck expected => rintro - - ts a rest h; cases h
  | map f r ih =>
    intro hsteady hnull ts b rest h
    obtain ⟨a, h, -⟩ := Reader.map_eq_ok.1 h
    exact ih hsteady hnull h
  | seq f r ihf ihr =>
    intro hsteady hnull ts b rest h
    simp only [steady, Bool.and_eq_true] at hsteady
    simp only [nullable, Bool.and_eq_false_iff] at hnull
    obtain ⟨g, mid, a, hg, ha, -⟩ := Reader.seq_eq_ok.1 h
    rcases hnull with hf | hr
    · exact Nat.lt_of_le_of_lt (hle r ha) (ihf hsteady.1 hf hg)
    · exact Nat.lt_of_lt_of_le (ihr hsteady.2 hr ha) (hle f hg)
  | branch test yes no ihy ihn =>
    intro hsteady hnull ts a rest h
    simp only [steady, Bool.and_eq_true] at hsteady
    simp only [nullable, Bool.or_eq_false_iff] at hnull
    obtain ⟨-, h⟩ | ⟨-, h⟩ := Reader.branch_eq_iff.1 h
    · exact ihy hsteady.1.1 hnull.1 h
    · exact ihn hsteady.1.2 hnull.2 h
  | upTo close item ih =>
    intro hsteady _ ts as rest h
    simp only [steady, Bool.and_eq_true, Bool.not_eq_true'] at hsteady
    have hitem := ih hsteady.1 hsteady.2
    obtain ⟨t, rfl, -⟩ | ⟨-, a, mid, as, ha, has, rfl⟩ := (read_upTo_eq_ok hitem).1 h
    · exact Nat.lt_succ_self _
    · exact Nat.lt_of_le_of_lt (hle (upTo close item) has) (hitem ha)
  | nest n => exact fun _ _ => hn n
  | located r ih =>
    intro hsteady hnull ts b rest h
    simp only [steady, Bool.and_eq_true] at hsteady
    obtain ⟨a, h, -⟩ := Reader.map_eq_ok.1 h
    exact ih hsteady.1 hnull h

end Rule

/-! ### Nesting constructs -/

theorem steady_body (n : Nest) : n.body.steady = true := by
  cases n <;> decide

theorem nullable_body (n : Nest) : n.body.nullable = false := by
  cases n <;> decide

theorem steady_definition : definition.steady = true := by decide

theorem nullable_definition : definition.nullable = false := by decide

theorem readNest_suffix (budget : Nat) (n : Nest) (ts : List Token) :
    ∃ u, ts = u ++ (readNest Nest.body budget n ts).rest := by
  induction budget generalizing n ts with
  | zero => exact ⟨[], rfl⟩
  | succ budget ih => exact Rule.read_suffix ih n.body ts

theorem readNest_progresses (budget : Nat) (n : Nest) :
    (readNest Nest.body budget n).Progresses := by
  induction budget generalizing n with
  | zero => intro ts a rest h; cases h
  | succ budget ih =>
    exact Rule.progresses_read (readNest_suffix budget) ih n.body (steady_body n) (nullable_body n)

/-- Reads by a rule of the grammar, within a nesting budget. -/
abbrev Rule.readIn (budget : Nat) (r : Rule α) : Reader α := r.read (readNest Nest.body budget)

theorem Rule.readIn_suffix (budget : Nat) (r : Rule α) (ts : List Token) :
    ∃ u, ts = u ++ (r.readIn budget ts).rest :=
  read_suffix (readNest_suffix budget) r ts

theorem Rule.readIn_progresses (budget : Nat) {r : Rule α} (hs : r.steady = true)
    (hn : r.nullable = false) : (r.readIn budget).Progresses :=
  progresses_read (readNest_suffix budget) (readNest_progresses budget) r hs hn

end GraphQL

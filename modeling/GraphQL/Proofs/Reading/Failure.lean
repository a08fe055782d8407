import GraphQL.Proofs.Reading.Continuation
import GraphQL.Proofs.Reading.Document

/-!
# Where reading stops

Reading stops at a token that cannot go on, and tells the kinds of tokens that it wanted there
(`Obstacle.wanted`).  Such a failure is *exact* (`Failure.Exact`): the tokens before it go on with
a token of each of these kinds, and the token at fault is of none of them.

What is wanted before any token is taken can be computed (`Rule.wants`).  A rule is *frank* if it
can start with every such kind; where a rule is not, another alternative must be.  The grammar
is *honest* in this sense (`honest_definition`), so that all its failures are exact
(`exact_definitions`).
-/

namespace GraphQL

open Derivable

variable {α β : Type}

/-- The kinds of tokens that were wanted where reading stopped. -/
def Obstacle.wanted : Obstacle → List TokenKind
  | unexpected expected => expected
  | unknownPlace => [.name]
  | tooDeep => []

/-- A failure after some tokens that go on with every kind of token that was wanted, at a token
of none of these kinds. -/
structure Failure.Exact (e : Failure) (completes : List Token → Prop) (u : List Token) : Prop where
  /-- With a token of each kind that was wanted, the tokens go on. -/
  goesOn : ∀ k ∈ e.obstacle.wanted, ∃ ks, completes (u ++ samples (k :: ks))
  /-- The token at fault is of no kind that was wanted, unless it is a name that is unknown. -/
  notWanted : e.obstacle ≠ .unknownPlace → ∀ k ∈ upcoming e.rest, k ∉ e.obstacle.wanted

theorem Failure.Exact.imp {e : Failure} {p p' : List Token → Prop} {u u' : List Token}
    (h : e.Exact p u)
    (hp : ∀ k ks, p (u ++ samples (k :: ks)) → ∃ ks, p' (u' ++ samples (k :: ks))) :
    e.Exact p' u' where
  goesOn k hk := by
    obtain ⟨ks, hks⟩ := h.goesOn k hk
    exact hp k ks hks
  notWanted := h.notWanted

/-! ### What is wanted before any token -/

/-- The kinds that may be wanted before any token of a nesting construct. -/
def Nest.wants : Nest → List TokenKind
  | .selectionSet => [.punctuator .braceOpen]
  | .value => valueStart
  | .typeRef => [.name, .punctuator .bracketOpen]

namespace Rule

/-- The kinds that may be wanted before any token of the rule is taken. -/
def wants : {α : Type} → Rule α → List TokenKind
  | _, .done _ => []
  | _, .token _ expected | _, .stuck expected => expected
  | _, .place _ => [.name]
  | _, .map _ r | _, .located r => r.wants
  | _, .seq f r => f.wants ++ if f.nullable then r.wants else []
  | _, .branch _ yes no => yes.wants ++ no.wants
  | _, .whileAt _ item | _, .upTo _ item => item.wants
  | _, .nest n => n.wants

/-- Whether the rule can start with every kind that may be wanted before any of its tokens. -/
def frank (r : Rule α) : Bool := r.wants.all r.starts

/-- Whether every part of the rule that comes after others is frank. -/
def honest : {α : Type} → Rule α → Bool
  | _, .done _ | _, .token _ _ | _, .place _ | _, .stuck _ | _, .nest _ => true
  | _, .map _ r | _, .located r => r.honest
  | _, .seq f r => f.honest && r.honest && r.frank
  | _, .branch _ yes no => yes.honest && no.honest
  | _, .whileAt test item => item.honest && (whileAt test item).frank
  | _, .upTo close item => item.honest && (upTo close item).frank

end Rule

theorem honest_body (n : Nest) : n.body.honest = true := by
  cases n <;> decide

theorem honest_definition : definition.honest = true := by decide

theorem frank_definition : definition.frank = true := by decide

theorem wants_body (n : Nest) : ∀ k ∈ n.body.wants, k ∈ n.wants := by
  cases n <;> decide

/-! ### Failures of repetitions -/

section

variable {b : Nat}

/-- Tokens left over by a failure are a final part of the tokens. -/
theorem Rule.exists_of_readIn_error {r : Rule α} {ts : List Token} {e : Failure}
    (h : r.readIn b ts = .error e) : ∃ v, ts = v ++ e.rest := by
  obtain ⟨v, hv⟩ := r.readIn_suffix b ts
  rw [h] at hv
  exact ⟨v, hv⟩

/-- If reading twice takes no token, reading once does not. -/
theorem Rule.eq_of_readIn {f : Rule α} {r : Rule β} {x mid : List Token} {a : α} {o : Obstacle}
    (hf : f.readIn b x = .ok (a, mid)) (hr : r.readIn b mid = .error ⟨o, x⟩) : mid = x := by
  obtain ⟨u, hu⟩ := f.readIn_suffix b x
  obtain ⟨v, hv⟩ := exists_of_readIn_error hr
  rw [hf] at hu
  change x = u ++ mid at hu
  change mid = v ++ x at hv
  have hlen := congrArg List.length hu
  rw [hv] at hlen
  simp only [List.length_append] at hlen
  obtain rfl : v = [] := List.eq_nil_of_length_eq_zero (by omega)
  exact hv

/-- An item takes a token, so a failure before any token is that of the first item. -/
theorem Rule.readIn_item_error {item : Rule α} {more : Rule β} (hst : item.steady = true)
    (hnull : item.nullable = false) {x : List Token} {o : Obstacle}
    (h : item.readIn b x = .error ⟨o, x⟩ ∨ ∃ a mid,
      item.readIn b x = .ok (a, mid) ∧ more.readIn b mid = .error ⟨o, x⟩) :
    item.readIn b x = .error ⟨o, x⟩ := by
  rcases h with h | ⟨a, mid, ha, hm⟩
  · exact h
  · have hlt := readIn_progresses b hst hnull ha
    rw [eq_of_readIn ha hm] at hlt
    exact absurd hlt (Nat.lt_irrefl _)

/-! ### Failures before any token -/

/-- What is wanted before any token is one of the kinds computed. -/
theorem Rule.mem_wants_of_read
    (hn : ∀ {n : Nest} {x : List Token} {o : Obstacle},
      readNest Nest.body b n x = .error ⟨o, x⟩ → ∀ k ∈ o.wanted, k ∈ n.wants)
    {r : Rule α} (hst : r.steady = true) {x : List Token} {o : Obstacle}
    (h : r.readIn b x = .error ⟨o, x⟩) {k : TokenKind} (hk : k ∈ o.wanted) : k ∈ r.wants := by
  induction r with
  | done a => cases h
  | token accepts expected =>
    cases (Reader.token_eq_error.1 h).2
    exact hk
  | place f =>
    obtain ⟨-, ho⟩ | ⟨-, ho⟩ := Reader.place_eq_error.1 h <;> cases ho <;> exact hk
  | stuck expected =>
    cases h
    exact hk
  | map f r ih => exact ih hst (Reader.map_eq_error.1 h)
  | located r ih =>
    simp only [steady, Bool.and_eq_true] at hst
    exact ih hst.1 (Reader.map_eq_error.1 h)
  | seq f r ihf ihr =>
    simp only [steady, Bool.and_eq_true] at hst
    rw [wants]
    rcases Reader.seq_eq_error.1 h with hf | ⟨g, mid, hf, hr⟩
    · exact List.mem_append_left _ (ihf hst.1 hf)
    · obtain rfl := eq_of_readIn hf hr
      -- A rule that is not nullable would have taken a token.
      by_cases hnull : f.nullable = true
      · rw [if_pos hnull]
        exact List.mem_append_right _ (ihr hst.2 hr)
      · have := readIn_progresses b hst.1 (Bool.eq_false_iff.2 hnull) hf
        omega
  | branch test yes no ihy ihn =>
    simp only [steady, Bool.and_eq_true] at hst
    rw [wants]
    obtain ⟨-, h⟩ | ⟨-, h⟩ := Reader.branch_eq_iff.1 h
    · exact List.mem_append_left _ (ihy hst.1.1 h)
    · exact List.mem_append_right _ (ihn hst.1.2 h)
  | whileAt test item ih =>
    simp only [steady, Bool.and_eq_true, Bool.not_eq_true'] at hst
    have hitem := readIn_progresses b hst.1 hst.2
    exact ih hst.1 (readIn_item_error hst.1 hst.2 ((read_whileAt_eq_error hitem).1 h).2)
  | upTo close item ih =>
    simp only [steady, Bool.and_eq_true, Bool.not_eq_true'] at hst
    have hitem := readIn_progresses b hst.1 hst.2
    exact ih hst.1 (readIn_item_error hst.1 hst.2 ((read_upTo_eq_error hitem).1 h).2)
  | nest n => exact hn h k hk

theorem mem_wants_of_readNest {n : Nest} {x : List Token} {o : Obstacle}
    (h : readNest Nest.body b n x = .error ⟨o, x⟩) : ∀ k ∈ o.wanted, k ∈ n.wants := by
  induction b generalizing n x o with
  | zero =>
    cases h
    simp [Obstacle.wanted]
  | succ b ih =>
    exact fun k hk => wants_body n k (Rule.mem_wants_of_read ih (steady_body n) h hk)

/-- Where nothing is derived before a token of a kind, the rule cannot start with one. -/
theorem Rule.starts_eq_false_of_derives {r : Rule α} (hcl : r.clear = true)
    {next : Set TokenKind} {a : α} (h : r.DerivesIn b next a []) {k : TokenKind} (hk : k ∈ next) :
    r.starts k = false := by
  induction r with
  | done a | stuck expected => rfl
  | token accepts expected => exact absurd h.1.symm (List.cons_ne_nil _ _)
  | place f =>
    obtain ⟨t, ht, -⟩ := h
    exact absurd ht.symm (List.cons_ne_nil _ _)
  | map f r ih | located r ih =>
    obtain ⟨a, ha, -⟩ := h
    exact ih hcl ha
  | seq f r ihf ihr =>
    obtain ⟨g, u, a, v, huv, hg, ha, -⟩ := h
    obtain ⟨rfl, rfl⟩ := List.append_eq_nil_iff.1 huv.symm
    simp only [clear, Bool.and_eq_true] at hcl
    have hf := ihf hcl.1.1 (Rule.DerivesIn.mono hg fun k hk => ⟨rfl, hk⟩)
    simp [starts, hf, ihr hcl.1.2 ha]
  | branch test yes no ihy ihn =>
    simp only [clear, Bool.and_eq_true] at hcl
    rcases h with ⟨ht, -⟩ | ⟨-, hw, ha⟩
    · exact absurd rfl (ne_nil_of_nextIs ht)
    · simp [starts, hw rfl k hk, ihn hcl.1.2 ha]
  | whileAt test item ih =>
    cases a with
    | nil => simp [starts, h.2 k hk]
    | cons a as =>
      obtain ⟨u, v, huv, ht, -⟩ := h
      obtain ⟨rfl, rfl⟩ := List.append_eq_nil_iff.1 huv.symm
      exact absurd rfl (ne_nil_of_nextIs ht)
  | upTo close item => exact absurd h (not_closes_nil a)
  | nest n =>
    obtain ⟨t, v, ht, -⟩ := starts_of_deriveNest h
    exact absurd ht.symm (List.cons_ne_nil _ _)

/-- A rule that wants another kind of token before any is taken can neither be empty nor start
with the token at fault. -/
theorem Rule.not_starts_of_read
    (hn : ∀ {n : Nest} {t : Token} {x : List Token} {expected : List TokenKind},
      readNest Nest.body b n (t :: x) = .error ⟨.unexpected expected, t :: x⟩ →
        n.starts t.kind = false)
    {r : Rule α} (hst : r.steady = true) (hcl : r.clear = true) {t : Token} {x : List Token}
    {expected : List TokenKind}
    (h : r.readIn b (t :: x) = .error ⟨.unexpected expected, t :: x⟩) :
    r.nullable = false ∧ r.starts t.kind = false := by
  induction r with
  | done a => cases h
  | token accepts expected => exact ⟨rfl, (Reader.token_eq_error.1 h).1⟩
  | place f =>
    obtain ⟨ht, -⟩ | ⟨-, ho⟩ := Reader.place_eq_error.1 h
    · exact ⟨rfl, ht⟩
    · cases ho
  | stuck expected => exact ⟨rfl, rfl⟩
  | map f r ih => exact ih hst hcl (Reader.map_eq_error.1 h)
  | located r ih =>
    simp only [steady, Bool.and_eq_true] at hst
    exact ih hst.1 hcl (Reader.map_eq_error.1 h)
  | seq f r ihf ihr =>
    simp only [steady, Bool.and_eq_true] at hst
    simp only [clear, Bool.and_eq_true] at hcl
    rcases Reader.seq_eq_error.1 h with hf | ⟨g, mid, hf, hr⟩
    · obtain ⟨hnull, hs⟩ := ihf hst.1 hcl.1.1 hf
      simp [nullable, starts, hnull, hs]
    · -- The first part took nothing, so it cannot start with the token at fault.
      obtain rfl := eq_of_readIn hf hr
      obtain ⟨hnull, hs⟩ := ihr hst.2 hcl.1.2 hr
      obtain ⟨w, hw, hd⟩ := derives_of_read hst.1 hf
      obtain rfl : w = [] := List.append_left_eq_self.1 hw.symm
      have hsf : f.starts t.kind = false := starts_eq_false_of_derives hcl.1.1 hd (by simp)
      simp [nullable, starts, hnull, hs, hsf]
  | branch test yes no ihy ihn =>
    have htest := nextIs_of_starts hcl t.kind
    simp only [steady, Bool.and_eq_true, Bool.not_eq_true'] at hst
    simp only [clear, Bool.and_eq_true] at hcl
    obtain ⟨ht, h⟩ | ⟨ht, h⟩ := Reader.branch_eq_iff.1 h <;>
      replace ht : test t.kind = _ := ht
    · rw [(ihy hst.1.1 hcl.1.1 h).2, ht] at htest
      cases htest
    · obtain ⟨hnull, hs⟩ := ihn hst.1.2 hcl.1.2 h
      simp [nullable, starts, hst.2, hnull, ht, hs]
  | whileAt test item ih =>
    simp only [steady, Bool.and_eq_true, Bool.not_eq_true'] at hst
    simp only [clear, Bool.and_eq_true, TokenKind.every_eq_true] at hcl
    obtain ⟨ht, hi⟩ := (read_whileAt_eq_error (readIn_progresses b hst.1 hst.2)).1 h
    have hs := (ih hst.1 hcl.1 (readIn_item_error hst.1 hst.2 hi)).2
    have := hcl.2 t.kind
    simp [show test t.kind = true from ht, hs] at this
  | upTo close item ih =>
    simp only [steady, Bool.and_eq_true, Bool.not_eq_true'] at hst
    simp only [clear, Bool.and_eq_true] at hcl
    obtain ⟨ht, hi⟩ := (read_upTo_eq_error (readIn_progresses b hst.1 hst.2)).1 h
    have hs := (ih hst.1 hcl.1.1.1 (readIn_item_error hst.1 hst.2 hi)).2
    exact ⟨rfl, by simpa [starts, hs, Reader.nextIs] using ht⟩
  | nest n => exact ⟨rfl, hn h⟩

theorem not_starts_of_readNest {n : Nest} {t : Token} {x : List Token} {expected : List TokenKind}
    (h : readNest Nest.body b n (t :: x) = .error ⟨.unexpected expected, t :: x⟩) :
    n.starts t.kind = false := by
  induction b generalizing n t x expected with
  | zero => cases h
  | succ b ih =>
    rw [← starts_body]
    exact (Rule.not_starts_of_read ih (steady_body n) (clear_body n) h).2

/-- A frank rule fails exactly before any token is taken. -/
theorem Rule.exact_of_frank {r : Rule α} (hst : r.steady = true) (hcl : r.clear = true)
    (hr : r.completable = true) (hfrank : r.frank = true) {x : List Token} {o : Obstacle}
    (h : r.readIn b x = .error ⟨o, x⟩) :
    (Failure.mk o x).Exact (fun w => ∃ a, r.DerivesIn (b + 2) ∅ a w) [] := by
  have hstarts : ∀ k ∈ o.wanted, r.starts k = true := fun k hk =>
    List.all_eq_true.1 hfrank k (mem_wants_of_read mem_wants_of_readNest hst h hk)
  refine ⟨fun k hk => ?_, fun ho k hk hw => ?_⟩
  · obtain ⟨a, ks, ha⟩ : ∃ a ks, r.DerivesIn (b + 2) ∅ a (samples (k :: ks)) :=
      exists_start hst hcl hr (hstarts k hk)
    exact ⟨ks, a, ha⟩
  · obtain ⟨t, ht, rfl⟩ := hk
    obtain ⟨x, rfl⟩ : ∃ x', x = t :: x' := List.head?_eq_some_iff.1 ht
    cases o with
    | unexpected expected =>
      have hs := (not_starts_of_read not_starts_of_readNest hst hcl h).2
      rw [hstarts _ hw] at hs
      cases hs
    | unknownPlace => exact ho rfl
    | tooDeep => cases hw

/-! ### Failures after some tokens -/

/-- Whether a rule completes some tokens within a nesting budget. -/
def Rule.Completes (b : Nat) (r : Rule α) (w : List Token) : Prop := ∃ a, r.DerivesIn b ∅ a w

/-- Whether every failure after some tokens is exact. -/
def Rule.Exact (b : Nat) (r : Rule α) : Prop :=
  ∀ ⦃u x : List Token⦄ ⦃o : Obstacle⦄, u ≠ [] → r.readIn b (u ++ x) = .error ⟨o, x⟩ →
    (Failure.mk o x).Exact (r.Completes (b + 2)) u

/-- What is read first and what is left of the tokens before a failure. -/
theorem Rule.exists_derives_append {f : Rule α} {r : Rule β} (hst : f.steady = true)
    {u x mid : List Token} {a : α} {o : Obstacle} (hf : f.readIn b (u ++ x) = .ok (a, mid))
    (hr : r.readIn b mid = .error ⟨o, x⟩) :
    ∃ w v, u = w ++ v ∧ mid = v ++ x ∧ f.DerivesIn b (upcoming mid) a w := by
  obtain ⟨w, hw, hd⟩ := derives_of_read hst hf
  obtain ⟨v, rfl⟩ := exists_of_readIn_error hr
  rw [← List.append_assoc] at hw
  exact ⟨w, v, List.append_cancel_right hw, rfl, hd⟩

theorem Rule.exact_seq {f : Rule (α → β)} {r : Rule α} (hst : (seq f r).steady = true)
    (hcl : (seq f r).clear = true) (hr : (seq f r).completable = true) (hfrank : r.frank = true)
    (hf : f.Exact b) (hrx : r.Exact b) : (seq f r).Exact b := by
  simp only [steady, Bool.and_eq_true] at hst
  simp only [clear, Bool.and_eq_true] at hcl
  simp only [completable, Bool.and_eq_true] at hr
  intro u x o hu h
  rcases Reader.seq_eq_error.1 h with h | ⟨g, mid, hg, h⟩
  · -- What completes the first part is followed by any tokens of the second.
    refine (hf hu h).imp ?_
    rintro k ks ⟨g, hg⟩
    obtain ⟨a, ks', ha⟩ : ∃ a ks, r.DerivesIn (b + 2) ∅ a (samples ks) :=
      exists_fill hst.2 hcl.1.2 hr.2
    refine ⟨ks ++ ks', g a, ?_⟩
    rw [← List.cons_append, samples_append, ← List.append_assoc]
    exact derives_seq hg ha
  · obtain ⟨w, v, rfl, rfl, hd⟩ := exists_derives_append hst.1 hg h
    have hd' : f.DerivesIn (b + 2) ∅ g w :=
      (DerivesIn.mono hd (Set.empty_subset _)).of_le (Nat.le_add_right b 2)
    -- The first part may have taken all tokens before the failure; then the second must be frank.
    have hrest : (Failure.mk o x).Exact (r.Completes (b + 2)) v := by
      by_cases hv : v = []
      · subst hv
        exact exact_of_frank hst.2 hcl.1.2 hr.1.2 hfrank h
      · exact hrx hv h
    refine hrest.imp ?_
    rintro k ks ⟨a, ha⟩
    refine ⟨ks, g a, ?_⟩
    rw [List.append_assoc]
    exact derives_seq hd' ha

/-- A repetition is exact if its items are.  Items are read while `Going` holds of the tokens that
are left. -/
theorem Rule.exact_repeat {item : Rule α} {many : Rule (List α)} (Going : List Token → Prop)
    (hst : item.steady = true) (hnull : item.nullable = false) (hi : item.Exact b)
    (hfirst : ∀ {x o}, many.readIn b x = .error ⟨o, x⟩ →
      (Failure.mk o x).Exact (many.Completes (b + 2)) [])
    (herror : ∀ {ts e}, many.readIn b ts = .error e → Going ts ∧
      (item.readIn b ts = .error e ∨ ∃ a mid,
        item.readIn b ts = .ok (a, mid) ∧ many.readIn b mid = .error e))
    (hgoing : ∀ {u x y}, u ≠ [] → Going (u ++ x) → Going (u ++ y))
    (hlast : ∀ {a w}, Going w → item.DerivesIn (b + 2) ∅ a w →
      ∃ ks, many.Completes (b + 2) (w ++ samples ks))
    (hcons : ∀ {a as w v}, Going w → item.DerivesIn (b + 2) ∅ a w →
      many.DerivesIn (b + 2) ∅ as v → many.DerivesIn (b + 2) ∅ (a :: as) (w ++ v)) :
    many.Exact b := by
  -- The tokens before the failure may be none: so it is once the last whole item is read.
  suffices h : ∀ (n : Nat) (u x : List Token) (o : Obstacle), u.length = n →
      many.readIn b (u ++ x) = .error ⟨o, x⟩ →
        (Failure.mk o x).Exact (many.Completes (b + 2)) u from
    fun u x o _ => h _ u x o rfl
  intro n
  induction n using Nat.strongRecOn with
  | ind n ih =>
    intro u x o hlen h
    by_cases hu : u = []
    · subst hu
      exact hfirst h
    · obtain ⟨hgo, h | ⟨a, mid, ha, h⟩⟩ := herror h
      · -- The failure is inside an item, which then is the last.
        refine (hi hu h).imp ?_
        rintro k ks ⟨a, ha⟩
        obtain ⟨ks', hks⟩ := hlast (hgoing hu hgo) ha
        refine ⟨ks ++ ks', ?_⟩
        rwa [← List.cons_append, samples_append, ← List.append_assoc]
      · obtain ⟨w, v, rfl, rfl, hd⟩ := exists_derives_append hst ha h
        have hw : w ≠ [] := hd.ne_nil hnull
        have hlt := readIn_progresses b hst hnull ha
        simp only [List.length_append] at hlt hlen
        have hd' : item.DerivesIn (b + 2) ∅ a w :=
          (DerivesIn.mono hd (Set.empty_subset _)).of_le (Nat.le_add_right b 2)
        refine (ih v.length (by omega) v x o rfl h).imp ?_
        rintro k ks ⟨as, has⟩
        rw [List.append_assoc] at hgo
        have hgo' : Going w := by simpa using hgoing (y := []) hw hgo
        refine ⟨ks, a :: as, ?_⟩
        rw [List.append_assoc]
        exact hcons hgo' hd' has

theorem Rule.exact_whileAt {test : TokenKind → Bool} {item : Rule α}
    (hst : (whileAt test item).steady = true) (hcl : (whileAt test item).clear = true)
    (hr : item.completable = true) (hfrank : (whileAt test item).frank = true)
    (hi : item.Exact b) : (whileAt test item).Exact b := by
  have hst' := hst
  simp only [steady, Bool.and_eq_true, Bool.not_eq_true'] at hst'
  have hitem := readIn_progresses b hst'.1 hst'.2
  refine exact_repeat (fun ts => Reader.nextIs test ts = true) hst'.1 hst'.2 hi
    (exact_of_frank hst hcl hr hfrank) (read_whileAt_eq_error hitem).1 ?_ ?_ ?_
  · intro u x y hu hgo
    rw [nextIs_append test hu] at hgo ⊢
    exact hgo
  · intro a w hgo ha
    exact ⟨[], [a], w, [], by simp, by simpa using hgo, by simpa using ha, rfl, fun _ h => h.elim⟩
  · intro a as w v hgo ha has
    exact ⟨w, v, rfl, hgo, by simpa using ha, has⟩

theorem Rule.exact_upTo {close : TokenKind} {item : Rule α}
    (hst : (upTo close item).steady = true) (hcl : (upTo close item).clear = true)
    (hr : item.completable = true) (hfrank : (upTo close item).frank = true)
    (hi : item.Exact b) : (upTo close item).Exact b := by
  have hst' := hst
  simp only [steady, Bool.and_eq_true, Bool.not_eq_true'] at hst'
  have hitem := readIn_progresses b hst'.1 hst'.2
  -- What is derived does not depend on the kind of the next token: only reading looks at it.
  refine exact_repeat (fun _ => True) hst'.1 hst'.2 hi (exact_of_frank hst hcl hr hfrank)
    (fun h => ⟨trivial, ((read_upTo_eq_error hitem).1 h).2⟩) (fun _ _ => trivial) ?_ ?_
  · intro a w _ ha
    exact ⟨[close], [a], w, samples [close], rfl, ha, _, rfl, close.kind_bare_sample⟩
  · intro a as w v _ ha has
    exact ⟨w, v, rfl, ha, has⟩

/-- A failure before some tokens is none after them. -/
theorem Failure.append_ne {u x : List Token} (hu : u ≠ []) (o o' : Obstacle) :
    (⟨o', u ++ x⟩ : Failure) ≠ ⟨o, x⟩ := fun h =>
  hu (List.append_left_eq_self.1 (congrArg Failure.rest h))

/-- Reading by an honest rule fails exactly. -/
theorem Rule.exact_read (hn : ∀ n : Nest, (Rule.nest n).Exact b) :
    ∀ {α : Type} (r : Rule α), r.steady = true → r.clear = true → r.completable = true →
      r.honest = true → r.Exact b := by
  intro α r
  induction r with
  | done a => exact fun _ _ _ _ u x o _ h => nomatch h
  | token accepts expected =>
    rintro - - - - u x o hu h
    exact absurd (Reader.token_eq_error.1 h).2 (Failure.append_ne hu _ _)
  | place f =>
    rintro - - - - u x o hu h
    obtain ⟨-, ho⟩ | ⟨-, ho⟩ := Reader.place_eq_error.1 h <;>
      exact absurd ho (Failure.append_ne hu _ _)
  | stuck expected =>
    rintro - - - - u x o hu h
    exact absurd (Except.error.inj h) (Failure.append_ne hu _ _)
  | map f r ih =>
    rintro hst hcl hr hh u x o hu h
    refine (ih hst hcl hr hh hu (Reader.map_eq_error.1 h)).imp ?_
    rintro k ks ⟨a, ha⟩
    exact ⟨ks, f a, a, ha, rfl⟩
  | located r ih =>
    rintro hst hcl hr hh u x o hu h
    simp only [steady, Bool.and_eq_true] at hst
    refine (ih hst.1 hcl hr hh hu (Reader.map_eq_error.1 h)).imp ?_
    rintro k ks ⟨g, hg⟩
    exact ⟨ks, _, g, hg, rfl⟩
  | seq f r ihf ihr =>
    intro hst hcl hr hh
    have hst' := hst
    have hcl' := hcl
    have hr' := hr
    simp only [steady, Bool.and_eq_true] at hst'
    simp only [clear, Bool.and_eq_true] at hcl'
    simp only [completable, Bool.and_eq_true] at hr'
    simp only [honest, Bool.and_eq_true] at hh
    exact exact_seq hst hcl hr hh.2 (ihf hst'.1 hcl'.1.1 hr'.1.1 hh.1.1)
      (ihr hst'.2 hcl'.1.2 hr'.1.2 hh.1.2)
  | branch test yes no ihy ihn =>
    rintro hst hcl hr hh u x o hu h
    simp only [steady, Bool.and_eq_true] at hst
    simp only [clear, Bool.and_eq_true] at hcl
    simp only [completable, Bool.and_eq_true] at hr
    simp only [honest, Bool.and_eq_true] at hh
    simp only [readIn, read, Reader.branch] at h
    rw [nextIs_append test hu] at h
    split at h <;> rename_i ht
    · refine (ihy hst.1.1 hcl.1.1 hr.1 hh.1 hu h).imp ?_
      rintro k ks ⟨a, ha⟩
      exact ⟨ks, a, .inl ⟨(nextIs_append test hu).trans ht, ha⟩⟩
    · refine (ihn hst.1.2 hcl.1.2 hr.2 hh.2 hu h).imp ?_
      rintro k ks ⟨a, ha⟩
      refine ⟨ks, a, .inr ⟨?_, fun h => absurd h (by simp), ha⟩⟩
      exact (nextIs_append test hu).trans (Bool.eq_false_iff.2 ht)
  | whileAt test item ih =>
    intro hst hcl hr hh
    have hst' := hst
    have hcl' := hcl
    simp only [steady, Bool.and_eq_true] at hst'
    simp only [clear, Bool.and_eq_true] at hcl'
    simp only [honest, Bool.and_eq_true] at hh
    exact exact_whileAt hst hcl hr hh.2 (ih hst'.1 hcl'.1 hr hh.1)
  | upTo close item ih =>
    intro hst hcl hr hh
    have hst' := hst
    have hcl' := hcl
    simp only [steady, Bool.and_eq_true] at hst'
    simp only [clear, Bool.and_eq_true] at hcl'
    simp only [honest, Bool.and_eq_true] at hh
    exact exact_upTo hst hcl hr hh.2 (ih hst'.1 hcl'.1.1.1 hr hh.1)
  | nest n => exact fun _ _ _ _ => hn n

theorem exact_nest (b : Nat) (n : Nest) : (Rule.nest n).Exact b := by
  induction b generalizing n with
  | zero =>
    intro u x o hu h
    exact absurd (Except.error.inj h) (Failure.append_ne hu _ _)
  | succ b ih =>
    intro u x o hu h
    exact Rule.exact_read ih n.body (steady_body n) (clear_body n) (completable_body n)
      (honest_body n) hu h

end

end GraphQL

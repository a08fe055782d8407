import GraphQL.Proofs.Reading.Lookahead
import GraphQL.Proofs.Reading.Sample

/-!
# How derivations go on

Samples of the kinds that are wanted complete every rule of the grammar, from nothing
(`Rule.exists_fill`) and from every kind of token that it can start with (`Rule.exists_start`).
A tree at the end of the input is a tree before a token of any kind, too, or goes on with it to
another tree (`Rule.goesOn`).
-/

namespace GraphQL

open Derivable

variable {α : Type}

/-! ### Bigger budgets -/

theorem Derivable.Repeats.imp {item item' : Derivable α} {test : TokenKind → Bool}
    (h : ∀ next a w, item next a w → item' next a w) {next : Set TokenKind} {as : List α}
    {w : List Token} (hw : Repeats item test next as w) : Repeats item' test next as w := by
  induction as generalizing w with
  | nil => exact hw
  | cons a as ih =>
    obtain ⟨u, v, rfl, ht, hu, hv⟩ := hw
    exact ⟨u, v, rfl, ht, h _ _ _ hu, ih hv⟩

theorem Derivable.Closes.imp {item item' : Derivable α} {close : TokenKind}
    (h : ∀ next a w, item next a w → item' next a w) {as : List α} {w : List Token}
    (hw : Closes item close as w) : Closes item' close as w := by
  induction as generalizing w with
  | nil => exact hw
  | cons a as ih =>
    obtain ⟨u, v, rfl, hu, hv⟩ := hw
    exact ⟨u, v, rfl, h _ _ _ hu, ih hv⟩

/-- More trees of the nesting constructs, more trees of every rule. -/
theorem Rule.Derives.imp {nested nested' : (n : Nest) → Derivable n.Tree}
    (hn : ∀ {n : Nest} {next : Set TokenKind} {a : n.Tree} {w : List Token},
      nested n next a w → nested' n next a w) :
    ∀ {α : Type} {r : Rule α} {next : Set TokenKind} {a : α} {w : List Token},
      r.Derives nested next a w → r.Derives nested' next a w := by
  intro α r
  induction r with
  | done a | token accepts expected | place f | stuck expected => exact fun h => h
  | map f r ih | located r ih =>
    rintro next b w ⟨a, ha, rfl⟩
    exact ⟨a, ih ha, rfl⟩
  | seq f r ihf ihr =>
    rintro next b w ⟨g, u, a, v, rfl, hg, ha, rfl⟩
    exact ⟨g, u, a, v, rfl, ihf hg, ihr ha, rfl⟩
  | branch test yes no ihy ihn =>
    rintro next a w (⟨ht, ha⟩ | ⟨ht, hk, ha⟩)
    · exact .inl ⟨ht, ihy ha⟩
    · exact .inr ⟨ht, hk, ihn ha⟩
  | whileAt test item ih => exact Repeats.imp fun _ _ _ => ih
  | upTo close item ih => exact Closes.imp fun _ _ _ => ih
  | nest n => exact hn

theorem deriveNest_of_le {b b' : Nat} (hb : b ≤ b') {n : Nest} {next : Set TokenKind} {a : n.Tree}
    {w : List Token} (h : deriveNest b n next a w) : deriveNest b' n next a w := by
  induction b generalizing b' n next w with
  | zero => exact h.elim
  | succ b ih =>
    obtain ⟨b', rfl⟩ : ∃ k, b' = k + 1 := ⟨b' - 1, by omega⟩
    exact Rule.Derives.imp (ih (by omega)) h

/-- What is derived within a budget is derived within every bigger one. -/
theorem Rule.DerivesIn.of_le {b b' : Nat} (hb : b ≤ b') {r : Rule α} {next : Set TokenKind} {a : α}
    {w : List Token} (h : r.DerivesIn b next a w) : r.DerivesIn b' next a w :=
  Derives.imp (deriveNest_of_le hb) h

/-! ### Completions -/

namespace Rule

/-- Whether samples can complete the rule from nothing. -/
def fillable : {α : Type} → Rule α → Bool
  | _, .done _ | _, .whileAt _ _ | _, .upTo _ _ | _, .nest _ => true
  | _, .token accepts _ => TokenKind.all.any accepts
  | _, .place read => (read (TokenKind.sample .name).bare).isSome
  | _, .stuck _ => false
  | _, .map _ r | _, .located r => r.fillable
  | _, .seq f r => f.fillable && r.fillable
  | _, .branch _ yes _ => yes.fillable

/-- Whether every part of the rule that must come after others can be completed from nothing. -/
def completable : {α : Type} → Rule α → Bool
  | _, .done _ | _, .token _ _ | _, .stuck _ | _, .nest _ => true
  | _, .place read => (read (TokenKind.sample .name).bare).isSome
  | _, .map _ r | _, .located r | _, .whileAt _ r | _, .upTo _ r => r.completable
  | _, .seq f r => f.completable && r.completable && r.fillable
  | _, .branch _ yes no => yes.completable && no.completable

end Rule

section

variable {nested : (n : Nest) → Derivable n.Tree}

/-- A nullable rule derives a tree from nothing. -/
theorem Rule.exists_derives_nil {r : Rule α} (hst : r.steady = true) (hn : r.nullable = true) :
    ∃ a, r.Derives nested ∅ a [] := by
  induction r with
  | done a => exact ⟨a, rfl, rfl⟩
  | token accepts expected | place f | stuck expected | upTo close item | nest n => cases hn
  | map f r ih =>
    obtain ⟨a, ha⟩ := ih hst hn
    exact ⟨f a, a, ha, rfl⟩
  | located r ih =>
    simp only [steady, Bool.and_eq_true, Bool.not_eq_true'] at hst
    rw [show r.nullable = true from hn] at hst
    cases hst.2
  | seq f r ihf ihr =>
    simp only [steady, Bool.and_eq_true] at hst
    obtain ⟨hf, hr⟩ := Bool.and_eq_true_iff.1 hn
    obtain ⟨g, hg⟩ := ihf hst.1 hf
    obtain ⟨a, ha⟩ := ihr hst.2 hr
    refine ⟨g a, g, [], a, [], rfl, ?_, ha, rfl⟩
    simpa using hg
  | branch test yes no ihy ihn =>
    simp only [steady, Bool.and_eq_true, Bool.not_eq_true'] at hst
    simp only [nullable, hst.2, Bool.false_or] at hn
    obtain ⟨a, ha⟩ := ihn hst.1.2 hn
    exact ⟨a, .inr ⟨rfl, fun _ _ h => h.elim, ha⟩⟩
  | whileAt test item ih => exact ⟨[], rfl, fun _ h => h.elim⟩

variable (hs : ∀ {n : Nest} {next : Set TokenKind} {a : n.Tree} {w : List Token},
    nested n next a w → ∃ t v, w = t :: v ∧ n.starts t.kind = true)
  (hfill : ∀ n, ∃ a ks, nested n ∅ a (samples ks))

/-- Two parts one after the other, when nothing follows. -/
theorem Rule.derives_seq {β : Type} {f : Rule (α → β)} {r : Rule α} {g : α → β} {a : α}
    {u v : List Token} (hg : f.Derives nested ∅ g u) (ha : r.Derives nested ∅ a v) :
    (seq f r).Derives nested ∅ (g a) (u ++ v) := by
  refine ⟨g, u, a, v, rfl, ?_, ha, rfl⟩
  simpa using hg

/-- A choice for what can start the first alternative, when the tests tell what starts it. -/
theorem Rule.nextIs_of_starts {test : TokenKind → Bool} {yes no : Rule α}
    (hcl : (branch test yes no).clear = true) (k : TokenKind) : test k = yes.starts k := by
  simp only [clear, Bool.and_eq_true, TokenKind.every_eq_true, beq_iff_eq] at hcl
  exact hcl.2 k

include hs hfill

/-- Samples complete a rule from nothing. -/
theorem Rule.exists_derives_fill {r : Rule α} (hst : r.steady = true) (hcl : r.clear = true)
    (hr : r.fillable = true) : ∃ a ks, r.Derives nested ∅ a (samples ks) := by
  induction r with
  | done a => exact ⟨a, [], rfl, rfl⟩
  | token accepts expected =>
    obtain ⟨k, -, hk⟩ := List.any_eq_true.1 hr
    exact ⟨_, [k], rfl, k.kind_bare_sample.symm ▸ hk⟩
  | place read =>
    obtain ⟨l, hl⟩ := Option.isSome_iff_exists.1 hr
    exact ⟨l, [.name], _, rfl, rfl, hl⟩
  | stuck expected => cases hr
  | map f r ih =>
    obtain ⟨a, ks, ha⟩ := ih hst hcl hr
    exact ⟨f a, ks, a, ha, rfl⟩
  | located r ih =>
    simp only [steady, Bool.and_eq_true] at hst
    obtain ⟨g, ks, hg⟩ := ih hst.1 hcl hr
    exact ⟨_, ks, g, hg, rfl⟩
  | seq f r ihf ihr =>
    simp only [steady, Bool.and_eq_true] at hst
    simp only [clear, Bool.and_eq_true] at hcl
    obtain ⟨hf, hr⟩ := Bool.and_eq_true_iff.1 hr
    obtain ⟨g, ks, hg⟩ := ihf hst.1 hcl.1.1 hf
    obtain ⟨a, ks', ha⟩ := ihr hst.2 hcl.1.2 hr
    exact ⟨g a, ks ++ ks', samples_append ks ks' ▸ derives_seq hg ha⟩
  | branch test yes no ihy ihn =>
    have htest := nextIs_of_starts hcl
    simp only [steady, Bool.and_eq_true, Bool.not_eq_true'] at hst
    simp only [clear, Bool.and_eq_true] at hcl
    obtain ⟨a, ks, ha⟩ := ihy hst.1.1 hcl.1.1 hr
    refine ⟨a, ks, .inl ⟨?_, ha⟩⟩
    -- The first alternative is always filled: by clearness its first token passes the test.
    cases ks with
    | nil => exact absurd rfl (ne_nil_of_derives hs hst.2 ha)
    | cons k ks =>
      have hk := starts_of_derives hs hst.1.1 ha
      exact (htest _).trans hk
  | whileAt test item ih => exact ⟨[], [], rfl, fun _ h => h.elim⟩
  | upTo close item ih => exact ⟨[], [close], _, rfl, close.kind_bare_sample⟩
  | nest n => exact hfill n

variable (hstart : ∀ n k, n.starts k = true → ∃ a ks, nested n ∅ a (samples (k :: ks)))

include hstart

/-- Samples complete a rule from every kind that it can start with. -/
theorem Rule.exists_derives_start {r : Rule α} (hst : r.steady = true) (hcl : r.clear = true)
    (hr : r.completable = true) {k : TokenKind} (hk : r.starts k = true) :
    ∃ a ks, r.Derives nested ∅ a (samples (k :: ks)) := by
  induction r with
  | done a | stuck expected => cases hk
  | token accepts expected => exact ⟨_, [], rfl, k.kind_bare_sample.symm ▸ hk⟩
  | place read =>
    obtain rfl := eq_of_beq hk
    obtain ⟨l, hl⟩ := Option.isSome_iff_exists.1 hr
    exact ⟨l, [], _, rfl, rfl, hl⟩
  | map f r ih =>
    obtain ⟨a, ks, ha⟩ := ih hst hcl hr hk
    exact ⟨f a, ks, a, ha, rfl⟩
  | located r ih =>
    simp only [steady, Bool.and_eq_true] at hst
    obtain ⟨g, ks, hg⟩ := ih hst.1 hcl hr hk
    exact ⟨_, ks, g, hg, rfl⟩
  | seq f r ihf ihr =>
    simp only [steady, Bool.and_eq_true] at hst
    simp only [clear, Bool.and_eq_true] at hcl
    simp only [completable, Bool.and_eq_true] at hr
    simp only [starts, Bool.or_eq_true, Bool.and_eq_true] at hk
    rcases hk with hk | ⟨hnull, hk⟩
    · obtain ⟨g, ks, hg⟩ := ihf hst.1 hcl.1.1 hr.1.1 hk
      obtain ⟨a, ks', ha⟩ : ∃ a ks, r.Derives nested ∅ a (samples ks) :=
        exists_derives_fill hs hfill hst.2 hcl.1.2 hr.2
      exact ⟨g a, ks ++ ks', samples_append (k :: ks) ks' ▸ derives_seq hg ha⟩
    · obtain ⟨g, hg⟩ := exists_derives_nil hst.1 hnull
      obtain ⟨a, ks, ha⟩ := ihr hst.2 hcl.1.2 hr.1.2 hk
      exact ⟨g a, ks, derives_seq hg ha⟩
  | branch test yes no ihy ihn =>
    simp only [steady, Bool.and_eq_true] at hst
    simp only [clear, Bool.and_eq_true] at hcl
    simp only [completable, Bool.and_eq_true] at hr
    simp only [starts] at hk
    split at hk <;> rename_i ht
    · obtain ⟨a, ks, ha⟩ := ihy hst.1.1 hcl.1.1 hr.1 hk
      exact ⟨a, ks, .inl ⟨(nextIs_samples ..).trans ht, ha⟩⟩
    · obtain ⟨a, ks, ha⟩ := ihn hst.1.2 hcl.1.2 hr.2 hk
      exact ⟨a, ks, .inr ⟨(nextIs_samples ..).trans (Bool.eq_false_iff.2 ht),
        (fun h => by cases h), ha⟩⟩
  | whileAt test item ih =>
    simp only [steady, Bool.and_eq_true] at hst
    simp only [clear, Bool.and_eq_true] at hcl
    obtain ⟨ht, hk⟩ := Bool.and_eq_true_iff.1 hk
    obtain ⟨a, ks, ha⟩ := ih hst.1 hcl.1 hr hk
    refine ⟨[a], ks, _, [], (List.append_nil _).symm, (nextIs_samples ..).trans ht, ?_, rfl,
      fun _ h => h.elim⟩
    simpa using ha
  | upTo close item ih =>
    simp only [steady, Bool.and_eq_true] at hst
    simp only [clear, Bool.and_eq_true] at hcl
    simp only [starts, Bool.or_eq_true, beq_iff_eq] at hk
    rcases hk with rfl | hk
    · exact ⟨[], [], _, rfl, k.kind_bare_sample⟩
    · obtain ⟨a, ks, ha⟩ := ih hst.1 hcl.1.1.1 hr hk
      exact ⟨[a], ks ++ [close], _, _, samples_append (k :: ks) [close], ha, _, rfl,
        close.kind_bare_sample⟩
  | nest n => exact hstart n k hk

end

/-! ### Going on -/

section

variable {nested nested' : (n : Nest) → Derivable n.Tree}
  (hs : ∀ {n : Nest} {next : Set TokenKind} {a : n.Tree} {w : List Token},
    nested' n next a w → ∃ t v, w = t :: v ∧ n.starts t.kind = true)
  (hfill : ∀ n, ∃ a ks, nested' n ∅ a (samples ks))
  (hstart : ∀ n k, n.starts k = true → ∃ a ks, nested' n ∅ a (samples (k :: ks)))
  (himp : ∀ {n : Nest} {next : Set TokenKind} {a : n.Tree} {w : List Token},
    nested n next a w → nested' n next a w)

/-- Whether every tree that goes with some tokens does so before a token of the kind, too, or goes
on with a token of this kind to another tree. -/
def Derivable.GoesOn (k : TokenKind) (d d' : Derivable α) : Prop :=
  ∀ ⦃a : α⦄ ⦃w : List Token⦄, d ∅ a w →
    d {k} a w ∨ ∃ a' ks, d' ∅ a' (w ++ samples (k :: ks))

include hs hfill hstart himp

omit hs hfill hstart in
theorem Rule.goesOn_seq {β : Type} {k : TokenKind} {f : Rule (α → β)} {r : Rule α}
    (hf : GoesOn k (f.Derives nested) (f.Derives nested'))
    (hr : GoesOn k (r.Derives nested) (r.Derives nested')) :
    GoesOn k ((seq f r).Derives nested) ((seq f r).Derives nested') := by
  rintro _ _ ⟨g, u, a, v, rfl, hg, ha, rfl⟩
  have hg₀ : f.Derives nested ∅ g u := by simpa using hg
  clear hg
  have hgo := hr ha
  -- The token that may follow comes after the first part only where the second is empty.
  rcases v with _ | ⟨t, v⟩
  · rcases hf hg₀ with hf' | ⟨g', ks, hf'⟩
    · rcases hgo with hr' | ⟨a', ks, hr'⟩
      · exact .inl ⟨g, u, a, [], rfl, by simpa using hf', hr', rfl⟩
      · refine .inr ⟨g a', ks, ?_⟩
        rw [List.append_assoc]
        exact derives_seq (Derives.imp himp hg₀) hr'
    · refine .inr ⟨g' a, ks, ?_⟩
      rw [List.append_assoc, List.nil_append, ← List.append_nil (u ++ _)]
      exact derives_seq hf' (Derives.imp himp ha)
  · rcases hgo with hr' | ⟨a', ks, hr'⟩
    · exact .inl ⟨g, u, a, t :: v, rfl, by simpa using hg₀, hr', rfl⟩
    · refine .inr ⟨g a', ks, ?_⟩
      rw [List.append_assoc]
      exact derives_seq (Derives.imp himp hg₀) hr'

omit hs hfill hstart in
theorem Rule.goesOn_whileAt {k : TokenKind} {test : TokenKind → Bool} {item : Rule α}
    (hstart : test k = true → ∃ a ks, item.Derives nested' ∅ a (samples (k :: ks)))
    (hi : GoesOn k (item.Derives nested) (item.Derives nested')) :
    GoesOn k ((whileAt test item).Derives nested) ((whileAt test item).Derives nested') := by
  intro as
  induction as with
  | nil =>
    rintro w ⟨rfl, -⟩
    by_cases ht : test k = true
    · obtain ⟨a, ks, ha⟩ := hstart ht
      refine .inr ⟨[a], ks, _, [], (List.append_nil _).symm, (nextIs_samples ..).trans ht, ?_, rfl,
        fun _ h => h.elim⟩
      simpa using ha
    · refine .inl ⟨rfl, ?_⟩
      rintro _ rfl
      exact Bool.eq_false_iff.2 ht
  | cons a as ih =>
    rintro w ⟨u, v, rfl, ht, hu, hv⟩
    have hu₀ : item.Derives nested ∅ a u := by simpa using hu
    clear hu
    have hne := ne_nil_of_nextIs ht
    -- Either another item goes on, or the last one does, when no item comes after it.
    rcases ih hv with hv' | ⟨as', ks, hv'⟩
    · rcases v with _ | ⟨t, v⟩
      · rcases hi hu₀ with hu' | ⟨a', ks, hu'⟩
        · exact .inl ⟨u, [], rfl, ht, by simpa using hu', hv'⟩
        · refine .inr ⟨[a'], ks, u ++ samples (k :: ks), [], by simp, ?_, ?_, rfl,
            fun _ h => h.elim⟩
          · rw [nextIs_append test hne]
            exact ht
          · simpa using hu'
      · exact .inl ⟨u, t :: v, rfl, ht, by simpa using hu₀, hv'⟩
    · refine .inr ⟨a :: as', ks, u, _, List.append_assoc .., ht, ?_, hv'⟩
      simpa using Derives.imp himp hu₀

/-- A tree that a rule derives is derived before a token of a kind, too, or goes on with one. -/
theorem Rule.goesOn_derives {k : TokenKind}
    (hn : ∀ n, GoesOn k (nested n) (nested' n)) :
    ∀ {α : Type} (r : Rule α), r.steady = true → r.clear = true → r.completable = true →
      GoesOn k (r.Derives nested) (r.Derives nested') := by
  intro α r
  induction r with
  | done a | token accepts expected | place f | stuck expected | upTo close item =>
    exact fun _ _ _ _ _ h => .inl h
  | map f r ih =>
    rintro hst hcl hr _ w ⟨a, ha, rfl⟩
    rcases ih hst hcl hr ha with h | ⟨a', ks, h⟩
    · exact .inl ⟨a, h, rfl⟩
    · exact .inr ⟨_, ks, a', h, rfl⟩
  | located r ih =>
    rintro hst hcl hr _ w ⟨g, hg, rfl⟩
    simp only [steady, Bool.and_eq_true] at hst
    rcases ih hst.1 hcl hr hg with h | ⟨g', ks, h⟩
    · exact .inl ⟨g, h, rfl⟩
    · exact .inr ⟨_, ks, g', h, rfl⟩
  | seq f r ihf ihr =>
    intro hst hcl hr
    simp only [steady, Bool.and_eq_true] at hst
    simp only [clear, Bool.and_eq_true] at hcl
    simp only [completable, Bool.and_eq_true] at hr
    exact goesOn_seq himp (ihf hst.1 hcl.1.1 hr.1.1) (ihr hst.2 hcl.1.2 hr.1.2)
  | branch test yes no ihy ihn =>
    intro hst hcl hr a w h
    have htest := nextIs_of_starts hcl k
    simp only [steady, Bool.and_eq_true] at hst
    simp only [clear, Bool.and_eq_true] at hcl
    simp only [completable, Bool.and_eq_true] at hr
    rcases h with ⟨ht, ha⟩ | ⟨ht, -, ha⟩
    · rcases ihy hst.1.1 hcl.1.1 hr.1 ha with h | ⟨a', ks, h⟩
      · exact .inl (.inl ⟨ht, h⟩)
      · exact .inr ⟨a', ks, .inl ⟨(nextIs_append test (ne_nil_of_nextIs ht)).trans ht, h⟩⟩
    · by_cases hk : w = [] ∧ test k = true
      · obtain ⟨rfl, hk⟩ := hk
        -- Nothing was read by the second alternative, and the token starts the first.
        obtain ⟨a', ks, ha'⟩ : ∃ a ks, yes.Derives nested' ∅ a (samples (k :: ks)) :=
          exists_derives_start hs hfill hstart hst.1.1 hcl.1.1 hr.1 (htest ▸ hk)
        exact .inr ⟨a', ks, .inl ⟨(nextIs_samples ..).trans hk, ha'⟩⟩
      · rcases ihn hst.1.2 hcl.1.2 hr.2 ha with h | ⟨a', ks, h⟩
        · refine .inl (.inr ⟨ht, ?_, h⟩)
          rintro hw _ rfl
          exact Bool.eq_false_iff.2 fun h => hk ⟨hw, h⟩
        · refine .inr ⟨a', ks, .inr ⟨?_, fun h => by simp at h, h⟩⟩
          rcases w with _ | ⟨t, w⟩
          · exact (nextIs_samples ..).trans (Bool.eq_false_iff.2 fun h => hk ⟨rfl, h⟩)
          · exact ht
  | whileAt test item ih =>
    intro hst hcl hr
    simp only [steady, Bool.and_eq_true] at hst
    simp only [clear, Bool.and_eq_true, TokenKind.every_eq_true, Bool.or_eq_true,
      Bool.not_eq_true'] at hcl
    refine goesOn_whileAt himp (fun ht => ?_) (ih hst.1 hcl.1 hr)
    rcases hcl.2 k with h | h
    · rw [ht] at h
      cases h
    · exact exists_derives_start hs hfill hstart hst.1 hcl.1 hr h.1
  | nest n => exact fun _ _ _ => hn n

end

/-! ### Nesting constructs -/

/-- Kinds of tokens that complete a nesting construct after one that it starts with. -/
def Nest.completion : Nest → TokenKind → List TokenKind
  | .selectionSet, _ => [.punctuator .braceClose]
  | .value, .punctuator .dollar => [.name]
  | .value, .punctuator .bracketOpen => [.punctuator .bracketClose]
  | .value, .punctuator .braceOpen => [.punctuator .braceClose]
  | .typeRef, .punctuator .bracketOpen => [.name, .punctuator .bracketClose]
  | _, _ => []

/-- Whether reading yields a tree and leaves nothing over. -/
def Outcome.isWhole : Outcome α → Bool
  | .ok (_, []) => true
  | _ => false

/-- Samples complete a nesting construct from every kind that it can start with; a type in brackets
is as deep as they get. -/
theorem exists_deriveNest_start {b : Nat} (n : Nest) {k : TokenKind} (hk : n.starts k = true) :
    ∃ a ks, deriveNest (b + 2) n ∅ a (samples (k :: ks)) := by
  have hread : (TokenKind.every fun k => !n.starts k ||
      (readNest Nest.body 2 n (samples (k :: n.completion k))).isWhole) = true := by
    cases n <;> decide
  have h := TokenKind.every_eq_true.1 hread k
  rw [hk, Bool.not_true, Bool.false_or] at h
  rcases hr : readNest Nest.body 2 n (samples (k :: n.completion k)) with e | ⟨a, _ | ⟨t, rest⟩⟩
  · rw [hr] at h
    cases h
  · obtain ⟨w, hw, hd⟩ := readNest_sound 2 n hr
    rw [List.append_nil] at hw
    rw [← hw, upcoming_nil] at hd
    exact ⟨a, _, deriveNest_of_le (Nat.le_add_left 2 b) hd⟩
  · rw [hr] at h
    cases h

theorem exists_deriveNest_fill {b : Nat} (n : Nest) :
    ∃ a ks, deriveNest (b + 2) n ∅ a (samples ks) := by
  have hstart : ∃ k, n.starts k = true := by
    cases n with
    | selectionSet => exact ⟨.punctuator .braceOpen, rfl⟩
    | value | typeRef => exact ⟨.name, rfl⟩
  obtain ⟨k, hk⟩ := hstart
  obtain ⟨a, ks, h⟩ := exists_deriveNest_start (b := b) n hk
  exact ⟨a, k :: ks, h⟩

theorem completable_body (n : Nest) : n.body.completable = true := by
  cases n <;> decide

theorem completable_definition : definition.completable = true := by decide

/-- Samples complete a rule of the grammar from nothing. -/
theorem Rule.exists_fill {b : Nat} {r : Rule α} (hst : r.steady = true) (hcl : r.clear = true)
    (hr : r.fillable = true) : ∃ a ks, r.DerivesIn (b + 2) ∅ a (samples ks) :=
  exists_derives_fill starts_of_deriveNest exists_deriveNest_fill hst hcl hr

/-- Samples complete a rule of the grammar from every kind that it can start with. -/
theorem Rule.exists_start {b : Nat} {r : Rule α} (hst : r.steady = true) (hcl : r.clear = true)
    (hr : r.completable = true) {k : TokenKind} (hk : r.starts k = true) :
    ∃ a ks, r.DerivesIn (b + 2) ∅ a (samples (k :: ks)) :=
  exists_derives_start starts_of_deriveNest exists_deriveNest_fill
    (fun n _ => exists_deriveNest_start n) hst hcl hr hk

theorem goesOn_deriveNest (k : TokenKind) (b : Nat) (n : Nest) :
    GoesOn k (deriveNest b n) (deriveNest (b + 2) n) := by
  induction b generalizing n with
  | zero => exact fun _ _ h => h.elim
  | succ b ih =>
    exact Rule.goesOn_derives starts_of_deriveNest exists_deriveNest_fill
      (fun n _ => exists_deriveNest_start n) (deriveNest_of_le (Nat.le_add_right b 2)) ih n.body
      (steady_body n) (clear_body n) (completable_body n)

/-- **Derivations go on**: what a rule derives at the end of the input, it derives before a token of
any kind, too, or goes on with a token of this kind. -/
theorem Rule.goesOn {b : Nat} {r : Rule α} (hst : r.steady = true) (hcl : r.clear = true)
    (hr : r.completable = true) (k : TokenKind) :
    GoesOn k (r.DerivesIn b) (r.DerivesIn (b + 2)) :=
  goesOn_derives starts_of_deriveNest exists_deriveNest_fill
    (fun n _ => exists_deriveNest_start n) (deriveNest_of_le (Nat.le_add_right b 2))
    (goesOn_deriveNest k b) r hst hcl hr

end GraphQL

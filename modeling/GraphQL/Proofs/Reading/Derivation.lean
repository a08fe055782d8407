import GraphQL.Proofs.Reading.Progress
import Mathlib.Data.Set.Insert

/-!
# What rules derive

`Rule.Derives` says which trees go with which tokens by a rule, without reading anything.  The
tokens are exactly those of the tree.  Which tokens may follow them matters only where something
is left out at the end; the kinds of those are a parameter, `next`.

* `Rule.derives_of_read`: reading yields trees that the rule derives.
* `Rule.Derives.mono`: fewer kinds that may follow leave no fewer trees.
-/

namespace GraphQL

variable {α β : Type}

/-- The kind of the next token, if there is one. -/
def upcoming (ts : List Token) : Set TokenKind := {k | ∃ t ∈ ts.head?, t.kind = k}

@[simp] theorem upcoming_nil : upcoming [] = ∅ := by simp [upcoming]

@[simp] theorem upcoming_cons (t : Token) (ts : List Token) : upcoming (t :: ts) = {t.kind} := by
  ext k
  simp [upcoming, eq_comm]

theorem nextIs_append (test : TokenKind → Bool) {ts us : List Token} (h : ts ≠ []) :
    Reader.nextIs test (ts ++ us) = Reader.nextIs test ts := by
  cases ts with
  | nil => exact absurd rfl h
  | cons t ts => rfl

theorem nextIs_eq_false {test : TokenKind → Bool} {ts : List Token} :
    Reader.nextIs test ts = false ↔ ∀ k ∈ upcoming ts, test k = false := by
  cases ts <;> simp [Reader.nextIs]

theorem ne_nil_of_nextIs {test : TokenKind → Bool} {ts : List Token}
    (h : Reader.nextIs test ts = true) : ts ≠ [] := by
  rintro rfl
  exact Bool.noConfusion h

/-- The offset of the first token. -/
def firstStart (ts : List Token) : Nat := (ts.head?.map Token.start).getD 0

theorem firstStart_append {ts us : List Token} (h : ts ≠ []) :
    firstStart (ts ++ us) = firstStart ts := by
  cases ts with
  | nil => exact absurd rfl h
  | cons t ts => rfl

/-- The trees that go with some tokens, given the kinds of tokens that may follow. -/
abbrev Derivable (α : Type) := Set TokenKind → α → List Token → Prop

/-- Items one after the other, each at a token of a tested kind, which none that may follow is. -/
def Derivable.Repeats (item : Derivable α) (test : TokenKind → Bool) : Derivable (List α)
  | next, [], w => w = [] ∧ ∀ k ∈ next, test k = false
  | next, a :: as, w => ∃ u v, w = u ++ v ∧ Reader.nextIs test u = true ∧
      item {k | v = [] ∧ k ∈ next} a u ∧ Repeats item test next as v

/-- Items one after the other and a closing token. -/
def Derivable.Closes (item : Derivable α) (close : TokenKind) : List α → List Token → Prop
  | [], w => ∃ t, w = [t] ∧ t.kind = close
  | a :: as, w => ∃ u v, w = u ++ v ∧ item ∅ a u ∧ Closes item close as v

open Derivable

/-- The trees that go with some tokens by a rule, given those of the nesting constructs. -/
def Rule.Derives (nested : (n : Nest) → Derivable n.Tree) : {α : Type} → Rule α → Derivable α
  | _, .done a => fun _ b w => b = a ∧ w = []
  | _, .token accepts _ => fun _ t w => w = [t] ∧ accepts t.kind = true
  | _, .place read => fun _ l w => ∃ t, w = [t] ∧ t.kind = .name ∧ read t = some l
  | _, .stuck _ => fun _ _ _ => False
  | _, .map f r => fun next b w => ∃ a, r.Derives nested next a w ∧ f a = b
  | _, .seq f r => fun next b w => ∃ g u a v, w = u ++ v ∧
      f.Derives nested {k | v = [] ∧ k ∈ next} g u ∧ r.Derives nested next a v ∧ g a = b
  | _, .branch test yes no => fun next a w =>
      (Reader.nextIs test w = true ∧ yes.Derives nested next a w) ∨
      (Reader.nextIs test w = false ∧ (w = [] → ∀ k ∈ next, test k = false) ∧
        no.Derives nested next a w)
  | _, .whileAt test item => Repeats (item.Derives nested) test
  | _, .upTo close item => fun _ => Closes (item.Derives nested) close
  | _, .nest n => nested n
  | _, .located r => fun next a w => ∃ g, r.Derives nested next g w ∧ g (firstStart w) = a

/-- The trees that go with some tokens as a nesting construct, within a nesting budget. -/
def deriveNest : Nat → (n : Nest) → Derivable n.Tree
  | 0, _ => fun _ _ _ => False
  | budget + 1, n => n.body.Derives (deriveNest budget)

/-- The trees that go with some tokens by a rule of the grammar, within a nesting budget. -/
abbrev Rule.DerivesIn (budget : Nat) (r : Rule α) : Derivable α := r.Derives (deriveNest budget)

/-! ### Fewer kinds that may follow -/

/-- Fewer kinds that may follow leave no fewer trees. -/
def Derivable.Antitone (d : Derivable α) : Prop :=
  ∀ ⦃next next' : Set TokenKind⦄, next' ⊆ next → ∀ a w, d next a w → d next' a w

theorem Derivable.Antitone.repeats {item : Derivable α} (h : item.Antitone)
    (test : TokenKind → Bool) : (Repeats item test).Antitone := by
  intro next next' hn as
  induction as with
  | nil => exact fun w hw => ⟨hw.1, fun k hk => hw.2 k (hn hk)⟩
  | cons a as ih =>
    rintro w ⟨u, v, rfl, ht, hu, hv⟩
    exact ⟨u, v, rfl, ht, h (fun k hk => And.imp_right (hn ·) hk) a u hu, ih v hv⟩

theorem Rule.antitone_derives {nested : (n : Nest) → Derivable n.Tree}
    (hn : ∀ n, (nested n).Antitone) : ∀ {α : Type} (r : Rule α), (r.Derives nested).Antitone := by
  intro α r
  induction r with
  | done a | token accepts expected | place f | stuck expected | upTo close item =>
    exact fun _ _ _ _ _ h => h
  | map f r ih | located r ih =>
    rintro next next' hs b w ⟨a, ha, rfl⟩
    exact ⟨a, ih hs a w ha, rfl⟩
  | seq f r ihf ihr =>
    rintro next next' hs b w ⟨g, u, a, v, rfl, hg, ha, rfl⟩
    exact ⟨g, u, a, v, rfl, ihf (fun k hk => And.imp_right (hs ·) hk) g u hg, ihr hs a v ha, rfl⟩
  | branch test yes no ihy ihn =>
    rintro next next' hs a w (⟨ht, ha⟩ | ⟨ht, hk, ha⟩)
    · exact .inl ⟨ht, ihy hs a w ha⟩
    · exact .inr ⟨ht, fun hw k h => hk hw k (hs h), ihn hs a w ha⟩
  | whileAt test item ih => exact ih.repeats test
  | nest n => exact hn n

theorem antitone_deriveNest (budget : Nat) (n : Nest) : (deriveNest budget n).Antitone := by
  induction budget generalizing n with
  | zero => exact fun _ _ _ _ _ h => h
  | succ budget ih => exact Rule.antitone_derives ih n.body

/-- Fewer kinds that may follow leave no fewer trees. -/
theorem Rule.DerivesIn.mono {budget : Nat} {r : Rule α} {next next' : Set TokenKind} {a : α}
    {w : List Token} (h : r.DerivesIn budget next a w) (hn : next' ⊆ next) :
    r.DerivesIn budget next' a w :=
  antitone_derives (antitone_deriveNest budget) r hn a w h

/-! ### Reading yields what rules derive -/

/-- Every tree read is derivable from the tokens taken, before what is left over. -/
def Reader.Sound (r : Reader α) (d : Derivable α) : Prop :=
  ∀ ⦃ts : List Token⦄ ⦃a : α⦄ ⦃rest : List Token⦄, r ts = .ok (a, rest) →
    ∃ w, ts = w ++ rest ∧ d (upcoming rest) a w

section

variable {nested : (n : Nest) → Reader n.Tree} {nested' : (n : Nest) → Derivable n.Tree}
  (hs : ∀ n ts, ∃ u, ts = u ++ (nested n ts).rest) (hp : ∀ n, (nested n).Progresses)
  (ha : ∀ n, (nested' n).Antitone)

include hs hp ha

theorem Rule.sound_whileAt {item : Rule α} (hst : item.steady = true)
    (hnull : item.nullable = false)
    (h : (item.read nested).Sound (item.Derives nested')) (test : TokenKind → Bool) :
    ((whileAt test item).read nested).Sound ((whileAt test item).Derives nested') := by
  have hitem := progresses_read hs hp item hst hnull
  intro ts
  induction ts using hitem.induction with
  | step ts ih =>
    intro as rest hr
    obtain ⟨ht, a, mid, as, hi, has, rfl⟩ | ⟨ht, rfl, rfl⟩ := (read_whileAt_eq_ok hitem).1 hr
    · have hlt := hitem hi
      obtain ⟨u, hu, hd⟩ := h hi
      obtain ⟨v, hv, hds⟩ := ih hi has
      -- The item took a token, so that the test was made on its own first token.
      have hne : u ≠ [] := by rintro rfl; simp [hu] at hlt
      refine ⟨u ++ v, by rw [hu, hv, List.append_assoc], u, v, rfl, ?_, ?_, hds⟩
      · rw [← nextIs_append test hne, ← hu]
        exact ht
      · refine antitone_derives ha item ?_ a u hd
        rintro k ⟨rfl, hk⟩
        rwa [hv]
    · exact ⟨[], rfl, rfl, nextIs_eq_false.1 ht⟩

theorem Rule.sound_upTo {item : Rule α} (hst : item.steady = true) (hnull : item.nullable = false)
    (h : (item.read nested).Sound (item.Derives nested')) (close : TokenKind) :
    ((upTo close item).read nested).Sound ((upTo close item).Derives nested') := by
  have hitem := progresses_read hs hp item hst hnull
  intro ts
  induction ts using hitem.induction with
  | step ts ih =>
    intro as rest hr
    obtain ⟨t, rfl, ht, rfl⟩ | ⟨-, a, mid, as, hi, has, rfl⟩ := (read_upTo_eq_ok hitem).1 hr
    · exact ⟨[t], rfl, t, rfl, ht⟩
    · obtain ⟨u, hu, hd⟩ := h hi
      obtain ⟨v, hv, hds⟩ := ih hi has
      exact ⟨u ++ v, by rw [hu, hv, List.append_assoc], u, v, rfl,
        antitone_derives ha item (Set.empty_subset _) a u hd, hds⟩

/-- Reading by a steady rule yields what the rule derives. -/
theorem Rule.sound_read (hn : ∀ n, (nested n).Sound (nested' n)) :
    ∀ {α : Type} (r : Rule α), r.steady = true →
    (r.read nested).Sound (r.Derives nested') := by
  intro α r
  induction r with
  | done a =>
    rintro - ts _ _ ⟨⟩
    exact ⟨[], rfl, rfl, rfl⟩
  | token accepts expected =>
    rintro - ts t rest h
    obtain ⟨rfl, ht⟩ := Reader.token_eq_ok.1 h
    exact ⟨[t], rfl, rfl, ht⟩
  | place f =>
    rintro - ts l rest h
    obtain ⟨t, rfl, ht, hl⟩ := Reader.place_eq_ok.1 h
    exact ⟨[t], rfl, t, rfl, ht, hl⟩
  | stuck expected => rintro - ts a rest h; cases h
  | map f r ih =>
    intro hst ts b rest h
    obtain ⟨a, hr, rfl⟩ := Reader.map_eq_ok.1 h
    obtain ⟨w, rfl, hw⟩ := ih hst hr
    exact ⟨w, rfl, a, hw, rfl⟩
  | seq f r ihf ihr =>
    intro hst ts b rest h
    simp only [steady, Bool.and_eq_true] at hst
    obtain ⟨g, mid, a, hg, ha', rfl⟩ := Reader.seq_eq_ok.1 h
    obtain ⟨u, rfl, hu⟩ := ihf hst.1 hg
    obtain ⟨v, rfl, hv⟩ := ihr hst.2 ha'
    refine ⟨u ++ v, (List.append_assoc ..).symm, g, u, a, v, rfl, ?_, hv, rfl⟩
    -- Tokens of the second part were before those left over: only if there are none may
    -- those follow the first part.
    refine antitone_derives ha f ?_ g u hu
    rintro k ⟨rfl, hk⟩
    exact hk
  | branch test yes no ihy ihn =>
    intro hst ts a rest h
    simp only [steady, Bool.and_eq_true, Bool.not_eq_true'] at hst
    obtain ⟨ht, h⟩ | ⟨ht, h⟩ := Reader.branch_eq_iff.1 h
    · have hlt := progresses_read hs hp yes hst.1.1 hst.2 h
      obtain ⟨w, rfl, hw⟩ := ihy hst.1.1 h
      -- What the test decides for takes a token, so that the test was made on that token.
      have hne : w ≠ [] := by rintro rfl; simp at hlt
      exact ⟨w, rfl, .inl ⟨by rwa [nextIs_append test hne] at ht, hw⟩⟩
    · obtain ⟨w, rfl, hw⟩ := ihn hst.1.2 h
      refine ⟨w, rfl, .inr ⟨?_, ?_, hw⟩⟩
      · cases w with
        | nil => rfl
        | cons t w => exact ht
      · rintro rfl
        exact nextIs_eq_false.1 ht
  | whileAt test item ih =>
    intro hst
    simp only [steady, Bool.and_eq_true, Bool.not_eq_true'] at hst
    exact sound_whileAt hs hp ha hst.1 hst.2 (ih hst.1) test
  | upTo close item ih =>
    intro hst
    simp only [steady, Bool.and_eq_true, Bool.not_eq_true'] at hst
    exact sound_upTo hs hp ha hst.1 hst.2 (ih hst.1) close
  | nest n => exact fun _ => hn n
  | located r ih =>
    intro hst ts b rest h
    simp only [steady, Bool.and_eq_true, Bool.not_eq_true'] at hst
    obtain ⟨g, hg, rfl⟩ := Reader.map_eq_ok.1 h
    have hlt := progresses_read hs hp r hst.1 hst.2 hg
    obtain ⟨w, rfl, hw⟩ := ih hst.1 hg
    have hne : w ≠ [] := by rintro rfl; simp at hlt
    exact ⟨w, rfl, g, hw, by rw [← firstStart_append hne, firstStart]⟩

end

theorem readNest_sound (budget : Nat) (n : Nest) :
    (readNest Nest.body budget n).Sound (deriveNest budget n) := by
  induction budget generalizing n with
  | zero => intro ts a rest h; cases h
  | succ budget ih =>
    exact Rule.sound_read (readNest_suffix budget) (readNest_progresses budget)
      (antitone_deriveNest budget) ih n.body (steady_body n)

/-- **Reading is sound**: every tree read is derivable from the tokens taken. -/
theorem Rule.derives_of_read {budget : Nat} {r : Rule α} (hst : r.steady = true) {ts : List Token}
    {a : α} {rest : List Token} (h : r.readIn budget ts = .ok (a, rest)) :
    ∃ w, ts = w ++ rest ∧ r.DerivesIn budget (upcoming rest) a w :=
  sound_read (readNest_suffix budget) (readNest_progresses budget) (antitone_deriveNest budget)
    (readNest_sound budget) r hst h

end GraphQL

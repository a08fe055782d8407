import GraphQL.Proofs.Reading.Lookahead

/-!
# Reading finds what rules derive

If a clear rule derives a tree from some tokens, reading takes exactly these tokens and yields
this tree, whatever follows them (`Rule.read_of_derives`).  So the tokens determine the tree and
how far it goes (`Rule.DerivesIn.unique`).
-/

namespace GraphQL

variable {α : Type}

/-- Every derivable tree is read from its tokens, before any token that may follow. -/
def Reader.Complete (r : Reader α) (d : Derivable α) : Prop :=
  ∀ ⦃next : Set TokenKind⦄ ⦃a : α⦄ ⦃w rest : List Token⦄, d next a w → upcoming rest ⊆ next →
    r (w ++ rest) = .ok (a, rest)

section

variable {nested : (n : Nest) → Reader n.Tree} {nested' : (n : Nest) → Derivable n.Tree}
  (hr : ∀ n ts, ∃ u, ts = u ++ (nested n ts).rest) (hp : ∀ n, (nested n).Progresses)
  (hs : ∀ {n : Nest} {next : Set TokenKind} {a : n.Tree} {w : List Token},
    nested' n next a w → ∃ t v, w = t :: v ∧ n.starts t.kind = true)
  (he : ∀ n, (nested' n).Extends n.stops)

include hr hp hs he

theorem Rule.complete_whileAt {item : Rule α} (hst : item.steady = true)
    (hnull : item.nullable = false) {test : TokenKind → Bool}
    (htest : ∀ k, test k = true → item.stops k = true)
    (h : (item.read nested).Complete (item.Derives nested')) :
    ((whileAt test item).read nested).Complete ((whileAt test item).Derives nested') := by
  have hitem := progresses_read hr hp item hst hnull
  intro next as
  induction as with
  | nil =>
    rintro w rest ⟨rfl, hw⟩ hn
    exact (read_whileAt_eq_ok hitem).2
      (.inr ⟨nextIs_eq_false.2 fun k hk => hw k (hn hk), rfl, rfl⟩)
  | cons a as ih =>
    rintro w rest ⟨u, v, rfl, ht, hu, hv⟩ hn
    -- What comes after the item is another item, or what may follow the repetition.
    have hmid : item.read nested (u ++ (v ++ rest)) = .ok (a, v ++ rest) := by
      refine h (extends_derives hs he item ?_ a u hu) subset_rfl
      intro k hk
      cases as with
      | nil =>
        obtain ⟨rfl, -⟩ := hv
        exact .inl ⟨rfl, hn hk⟩
      | cons b bs =>
        obtain ⟨v₁, v₂, rfl, ht', -⟩ := hv
        cases v₁ with
        | nil => exact Bool.noConfusion ht'
        | cons t v₁ =>
          simp only [List.cons_append, upcoming_cons, Set.mem_singleton_iff] at hk
          exact .inr (hk ▸ htest _ ht')
    rw [List.append_assoc]
    exact (read_whileAt_eq_ok hitem).2 (.inl
      ⟨(nextIs_append test (ne_nil_of_nextIs ht)).trans ht, a, _, as, hmid, ih hv hn, rfl⟩)

theorem Rule.complete_upTo {item : Rule α} (hst : item.steady = true)
    (hnull : item.nullable = false) {close : TokenKind} (hclose : item.starts close = false)
    (hstop : item.stops close = true) (hnext : ∀ k, item.starts k = true → item.stops k = true)
    (h : (item.read nested).Complete (item.Derives nested')) :
    ((upTo close item).read nested).Complete ((upTo close item).Derives nested') := by
  have hitem := progresses_read hr hp item hst hnull
  rintro next as w rest hw -
  induction as generalizing w with
  | nil =>
    obtain ⟨t, rfl, ht⟩ := hw
    exact (read_upTo_eq_ok hitem).2 (.inl ⟨t, rfl, ht, rfl⟩)
  | cons a as ih =>
    obtain ⟨u, v, rfl, hu, hv⟩ := hw
    obtain ⟨t, u, rfl⟩ := List.exists_cons_of_ne_nil (ne_nil_of_derives hs hnull hu)
    have ht := starts_of_derives hs hst hu
    -- What comes after the item is another item, or the closing token; neither continues it.
    have hmid : item.read nested (t :: u ++ (v ++ rest)) = .ok (a, v ++ rest) := by
      refine h (extends_derives hs he item ?_ a _ hu) subset_rfl
      intro k hk
      cases as with
      | nil =>
        obtain ⟨t', rfl, ht'⟩ := hv
        simp only [List.cons_append, upcoming_cons, Set.mem_singleton_iff] at hk
        exact .inr (by rw [Set.mem_ofPred_eq, hk, ht', hstop])
      | cons b bs =>
        obtain ⟨v₁, v₂, rfl, hb, -⟩ := hv
        obtain ⟨t', v₁, rfl⟩ := List.exists_cons_of_ne_nil (ne_nil_of_derives hs hnull hb)
        simp only [List.cons_append, upcoming_cons, Set.mem_singleton_iff] at hk
        exact .inr (hk ▸ hnext _ (starts_of_derives hs hst hb))
    -- An item is not taken for the closing token.
    have hne : t.kind ≠ close := by
      rintro rfl
      rw [ht] at hclose
      exact Bool.noConfusion hclose
    rw [List.append_assoc]
    exact (read_upTo_eq_ok hitem).2
      (.inr ⟨by simpa [Reader.nextIs] using hne, a, _, as, hmid, ih hv, rfl⟩)

/-- Reading by a clear rule finds what the rule derives. -/
theorem Rule.complete_read (hn : ∀ n, (nested n).Complete (nested' n)) : ∀ {α : Type} (r : Rule α),
    r.steady = true → r.clear = true → (r.read nested).Complete (r.Derives nested') := by
  intro α r
  induction r with
  | done a =>
    rintro - - next _ _ rest ⟨rfl, rfl⟩ -
    rfl
  | token accepts expected =>
    rintro - - next t _ rest ⟨rfl, ht⟩ -
    exact Reader.token_eq_ok.2 ⟨rfl, ht⟩
  | place f =>
    rintro - - next l _ rest ⟨t, rfl, ht, hl⟩ -
    exact Reader.place_eq_ok.2 ⟨t, rfl, ht, hl⟩
  | stuck expected => exact fun _ _ _ _ _ _ h => h.elim
  | map f r ih =>
    rintro hst hcl next _ w rest ⟨a, ha, rfl⟩ hk
    exact Reader.map_eq_ok.2 ⟨a, ih hst hcl ha hk, rfl⟩
  | seq f r ihf ihr =>
    rintro hst hcl next _ w rest ⟨g, u, a, v, rfl, hg, ha, rfl⟩ hk
    simp only [steady, Bool.and_eq_true] at hst
    simp only [clear, Bool.and_eq_true, TokenKind.every_eq_true, Bool.or_eq_true,
      Bool.not_eq_true'] at hcl
    obtain ⟨⟨hclf, hclr⟩, hfr⟩ := hcl
    refine Reader.seq_eq_ok.2 ⟨g, v ++ rest, a, ?_, ihr hst.2 hclr ha hk, rfl⟩
    rw [List.append_assoc]
    -- No token that starts the second part continues the first.
    refine ihf hst.1 hclf (extends_derives hs he f ?_ g u hg) subset_rfl
    intro k hk'
    cases v with
    | nil => exact .inl ⟨rfl, hk hk'⟩
    | cons t v =>
      simp only [List.cons_append, upcoming_cons, Set.mem_singleton_iff] at hk'
      have := starts_of_derives hs hst.2 ha
      exact .inr (by simpa [hk', this] using hfr k)
  | branch test yes no ihy ihn =>
    intro hst hcl next a w rest h hk
    simp only [steady, Bool.and_eq_true] at hst
    simp only [clear, Bool.and_eq_true] at hcl
    rcases h with ⟨ht, ha⟩ | ⟨ht, hw, ha⟩
    · have ht' : Reader.nextIs test (w ++ rest) = true := by
        rw [nextIs_append test (ne_nil_of_nextIs ht), ht]
      exact Reader.branch_eq_iff.2 (.inl ⟨ht', ihy hst.1.1 hcl.1.1 ha hk⟩)
    · have ht' : Reader.nextIs test (w ++ rest) = false := by
        cases w with
        | nil => exact nextIs_eq_false.2 fun k h => hw rfl k (hk h)
        | cons t w => exact ht
      exact Reader.branch_eq_iff.2 (.inr ⟨ht', ihn hst.1.2 hcl.1.2 ha hk⟩)
  | whileAt test item ih =>
    intro hst hcl
    simp only [steady, Bool.and_eq_true, Bool.not_eq_true'] at hst
    simp only [clear, Bool.and_eq_true, TokenKind.every_eq_true, Bool.or_eq_true,
      Bool.not_eq_true'] at hcl
    refine complete_whileAt hr hp hs he hst.1 hst.2 (fun k hk => ?_) (ih hst.1 hcl.1)
    rcases hcl.2 k with h | h
    · rw [hk] at h
      exact Bool.noConfusion h
    · exact h.2
  | upTo close item ih =>
    intro hst hcl
    simp only [steady, Bool.and_eq_true, Bool.not_eq_true'] at hst
    simp only [clear, Bool.and_eq_true, TokenKind.every_eq_true, Bool.or_eq_true,
      Bool.not_eq_true'] at hcl
    obtain ⟨⟨⟨hcl, hclose⟩, hstop⟩, hnext⟩ := hcl
    refine complete_upTo hr hp hs he hst.1 hst.2 hclose hstop (fun k hk => ?_) (ih hst.1 hcl)
    rcases hnext k with h | h
    · rw [hk] at h
      exact Bool.noConfusion h
    · exact h
  | nest n => exact fun _ _ => hn n
  | located r ih =>
    rintro hst hcl next _ w rest ⟨g, hg, rfl⟩ hk
    simp only [steady, Bool.and_eq_true, Bool.not_eq_true'] at hst
    refine Reader.map_eq_ok.2 ⟨g, ih hst.1 hcl hg hk, ?_⟩
    change g (firstStart (w ++ rest)) = _
    rw [firstStart_append (ne_nil_of_derives hs hst.2 hg)]

end

theorem readNest_complete (budget : Nat) (n : Nest) :
    (readNest Nest.body budget n).Complete (deriveNest budget n) := by
  induction budget generalizing n with
  | zero => exact fun _ _ _ _ h => h.elim
  | succ budget ih =>
    exact Rule.complete_read (readNest_suffix budget) (readNest_progresses budget)
      starts_of_deriveNest (extends_deriveNest budget) ih n.body (steady_body n) (clear_body n)

/-- **Reading is complete**: every derivable tree is read from its tokens, before any token that
may follow. -/
theorem Rule.read_of_derives {budget : Nat} {r : Rule α} (hst : r.steady = true)
    (hcl : r.clear = true) {next : Set TokenKind} {a : α} {w rest : List Token}
    (h : r.DerivesIn budget next a w) (hn : upcoming rest ⊆ next) :
    r.readIn budget (w ++ rest) = .ok (a, rest) :=
  complete_read (readNest_suffix budget) (readNest_progresses budget) starts_of_deriveNest
    (extends_deriveNest budget) (readNest_complete budget) r hst hcl h hn

/-- Whatever may follow a derivable tree, it is read at the end of the input. -/
theorem Rule.read_of_derives_end {budget : Nat} {r : Rule α} (hst : r.steady = true)
    (hcl : r.clear = true) {next : Set TokenKind} {a : α} {w : List Token}
    (h : r.DerivesIn budget next a w) : r.readIn budget w = .ok (a, []) := by
  have hr : r.readIn budget (w ++ []) = .ok (a, []) := read_of_derives hst hcl h (by simp)
  rwa [List.append_nil] at hr

/-- **The grammar is unambiguous**: the tokens determine the tree. -/
theorem Rule.DerivesIn.unique {budget : Nat} {r : Rule α} (hst : r.steady = true)
    (hcl : r.clear = true) {next next' : Set TokenKind} {a a' : α} {w : List Token}
    (h : r.DerivesIn budget next a w) (h' : r.DerivesIn budget next' a' w) : a = a' := by
  have hr := read_of_derives_end hst hcl h
  rw [read_of_derives_end hst hcl h'] at hr
  cases hr
  rfl

end GraphQL

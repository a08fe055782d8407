import GraphQL.Proofs.Reading.Failure
import GraphQL.Proofs.Reading.Locality

/-!
# How far tokens go on to a document

Where reading a document stops, the tokens so far go on to a document with every kind of token
that was wanted (`exact_definitions`), and with the token at fault they go on to none
(`not_derivesDocument_of_read`).  Something is always wanted, and a name that is unknown is there
(`telling_definitions`).
-/

namespace GraphQL

variable {α β : Type} {b : Nat}

/-! ### Tokens that go on -/

/-- Whether some tokens are a document within a nesting budget. -/
def CompletesDocument (b : Nat) (w : List Token) : Prop := ∃ ds, DerivesDocument b ds w

theorem completesDocument_of_completes {w : List Token} (h : definition.Completes b w) :
    CompletesDocument b w := by
  obtain ⟨d, hd⟩ := h
  exact ⟨[d], w, [], (List.append_nil w).symm, by rwa [upcoming_nil], rfl⟩

/-- A definition before a document, or before a token that it goes on with. -/
theorem completesDocument_append {d : Definition} {w v x : List Token} {k : TokenKind}
    {ks : List TokenKind} (hd : definition.DerivesIn b (upcoming (v ++ x)) d w)
    (hv : CompletesDocument (b + 2) (v ++ samples (k :: ks))) :
    ∃ ks, CompletesDocument (b + 2) (w ++ v ++ samples (k :: ks)) := by
  obtain ⟨ds, hds⟩ := hv
  have hnext : definition.DerivesIn (b + 2) (upcoming (v ++ samples (k :: ks))) d w ∨
      ∃ d' ks, definition.DerivesIn (b + 2) ∅ d' (w ++ v ++ samples (k :: ks)) := by
    -- Only where no token is left does the wanted one follow the definition itself.
    rcases v with _ | ⟨t, v⟩
    · have hend : definition.DerivesIn b ∅ d w := Rule.DerivesIn.mono hd (Set.empty_subset _)
      rcases Rule.goesOn steady_definition clear_definition completable_definition k hend with
        h | ⟨d', ks', h⟩
      · refine .inl ?_
        rw [List.nil_append, samples_cons, upcoming_cons, k.kind_bare_sample]
        exact Rule.DerivesIn.of_le (Nat.le_add_right b 2) h
      · exact .inr ⟨d', ks', by rwa [List.append_nil]⟩
    · refine .inl (Rule.DerivesIn.of_le (Nat.le_add_right b 2) ?_)
      simpa using hd
  rcases hnext with h | ⟨d', ks', h⟩
  · exact ⟨ks, d :: ds, w, _, List.append_assoc .., h, hds⟩
  · exact ⟨ks', completesDocument_of_completes ⟨d', h⟩⟩

/-- **Failures are exact**: the tokens before one go on to a document with every kind of token that
was wanted, and the token at fault is of no such kind. -/
theorem exact_definitions {u x : List Token} {o : Obstacle}
    (h : definitions.readIn b (u ++ x) = .error ⟨o, x⟩) :
    (Failure.mk o x).Exact (CompletesDocument (b + 2)) u := by
  induction hlen : u.length using Nat.strongRecOn generalizing u with
  | ind n ih =>
    obtain ⟨-, h | ⟨d, mid, hd, h⟩⟩ :=
      (Rule.read_whileAt_eq_error (progresses_definition b)).1 h
    · have hdef : (Failure.mk o x).Exact (definition.Completes (b + 2)) u := by
        by_cases hu : u = []
        · subst hu
          exact Rule.exact_of_frank steady_definition clear_definition completable_definition
            frank_definition h
        · exact Rule.exact_read (exact_nest b) definition steady_definition clear_definition
            completable_definition honest_definition hu h
      exact hdef.imp fun k ks hc => ⟨ks, completesDocument_of_completes hc⟩
    · obtain ⟨w, v, rfl, rfl, hd'⟩ := Rule.exists_derives_append steady_definition hd h
      have hlt := progresses_definition b hd
      simp only [List.length_append] at hlt hlen
      exact (ih v.length (by omega) h rfl).imp fun k ks hc => completesDocument_append hd' hc

/-! ### Tokens that do not -/

/-- Tokens up to one at fault are those of no document, whatever the budget. -/
theorem not_derivesDocument_of_read {u x w : List Token} {t : Token} {o : Obstacle}
    (h : readDocument b (u ++ t :: x) = .error ⟨o, t :: x⟩) (ho : o ≠ .tooDeep) (b' : Nat)
    (ds : List Definition) : ¬ DerivesDocument b' ds (u ++ t :: w) := by
  intro hd
  -- Within a budget that is enough for both, the two readings would agree up to the token.
  have hok : readDocument (max b b') (u ++ t :: w) = .ok ⟨ds, firstStart (u ++ t :: w)⟩ := by
    have hr : readDocument b' (u ++ t :: w) = .ok ⟨ds, firstStart (u ++ t :: w)⟩ :=
      readDocument_eq_ok.2 ⟨hd, rfl⟩
    rw [readDocument_of_le (le_max_right b b') (by simp [hr]), hr]
  have herror : readDocument (max b b') (u ++ t :: x) = .error ⟨o, t :: x⟩ := by
    rw [readDocument_of_le (le_max_left b b'), h]
    rw [h]
    rintro rest ⟨⟩
    exact ho rfl
  have hx := readDocument_eq_error.1 herror
  have hlocal : definitions.readIn (max b b') (u ++ t :: w) =
      (definitions.readIn (max b b') (u ++ t :: x)).setRest (t :: w) :=
    Rule.readIn_local (max b b') steady_definitions (List.cons_ne_nil t x) rfl
      (congrArg Outcome.rest hx)
  rw [hx] at hlocal
  have hw : readDocument (max b b') (u ++ t :: w) = .error ⟨o, t :: w⟩ :=
    readDocument_eq_error.2 hlocal
  rw [hok] at hw
  cases hw

/-! ### What failures tell -/

/-- Whether a failure names a kind that was wanted, or is at the name that is unknown. -/
def Failure.Telling (e : Failure) : Prop :=
  match e.obstacle with
  | .unexpected expected => expected ≠ []
  | .unknownPlace => e.rest ≠ []
  | .tooDeep => True

/-- Whether every part of the rule names the kinds that it wants. -/
def Rule.tells : {α : Type} → Rule α → Bool
  | _, .done _ | _, .place _ | _, .nest _ => true
  | _, .token _ expected | _, .stuck expected => !expected.isEmpty
  | _, .map _ r | _, .located r | _, .whileAt _ r | _, .upTo _ r => r.tells
  | _, .seq f r => f.tells && r.tells
  | _, .branch _ yes no => yes.tells && no.tells

theorem tells_body (n : Nest) : n.body.tells = true := by
  cases n <;> decide

theorem tells_definition : definition.tells = true := by decide

theorem Rule.telling_read
    (hn : ∀ {n : Nest} {ts : List Token} {e : Failure},
      readNest Nest.body b n ts = .error e → e.Telling)
    {r : Rule α} (hst : r.steady = true) (hr : r.tells = true) {ts : List Token} {e : Failure}
    (h : r.readIn b ts = .error e) : e.Telling := by
  induction r generalizing ts with
  | done a => cases h
  | token accepts expected =>
    obtain ⟨-, rfl⟩ := Reader.token_eq_error.1 h
    exact show expected ≠ [] by simpa [tells] using hr
  | place f =>
    obtain ⟨-, rfl⟩ | ⟨⟨t, ht, -⟩, rfl⟩ := Reader.place_eq_error.1 h
    · exact List.cons_ne_nil _ _
    · rintro rfl
      cases ht
  | stuck expected =>
    have hne : expected ≠ [] := by simpa [tells] using hr
    cases h
    exact hne
  | map f r ih => exact ih hst hr (Reader.map_eq_error.1 h)
  | located r ih =>
    simp only [steady, Bool.and_eq_true] at hst
    exact ih hst.1 hr (Reader.map_eq_error.1 h)
  | seq f r ihf ihr =>
    simp only [steady, Bool.and_eq_true] at hst
    simp only [tells, Bool.and_eq_true] at hr
    rcases Reader.seq_eq_error.1 h with hf | ⟨g, mid, -, hr'⟩
    · exact ihf hst.1 hr.1 hf
    · exact ihr hst.2 hr.2 hr'
  | branch test yes no ihy ihn =>
    simp only [steady, Bool.and_eq_true] at hst
    simp only [tells, Bool.and_eq_true] at hr
    obtain ⟨-, h⟩ | ⟨-, h⟩ := Reader.branch_eq_iff.1 h
    · exact ihy hst.1.1 hr.1 h
    · exact ihn hst.1.2 hr.2 h
  | whileAt test item ih =>
    simp only [steady, Bool.and_eq_true, Bool.not_eq_true'] at hst
    have hitem := readIn_progresses b hst.1 hst.2
    induction ts using hitem.induction with
    | step ts ih' =>
      obtain ⟨-, h | ⟨a, mid, ha, h⟩⟩ := (read_whileAt_eq_error hitem).1 h
      · exact ih hst.1 hr h
      · exact ih' ha h
  | upTo close item ih =>
    simp only [steady, Bool.and_eq_true, Bool.not_eq_true'] at hst
    have hitem := readIn_progresses b hst.1 hst.2
    induction ts using hitem.induction with
    | step ts ih' =>
      obtain ⟨-, h | ⟨a, mid, ha, h⟩⟩ := (read_upTo_eq_error hitem).1 h
      · exact ih hst.1 hr h
      · exact ih' ha h
  | nest n => exact hn h

theorem telling_readNest {n : Nest} {ts : List Token} {e : Failure}
    (h : readNest Nest.body b n ts = .error e) : e.Telling := by
  induction b generalizing n ts e with
  | zero =>
    cases h
    trivial
  | succ b ih => exact Rule.telling_read ih (steady_body n) (tells_body n) h

/-- Something was wanted, and what is unknown is there. -/
theorem telling_definitions {ts : List Token} {e : Failure}
    (h : definitions.readIn b ts = .error e) : e.Telling :=
  Rule.telling_read telling_readNest steady_definitions tells_definition h

end GraphQL

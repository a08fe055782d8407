import GraphQL.Proofs.Reading.Progress

/-!
# The nesting budget

A bigger budget changes nothing but failures for want of budget (`Rule.readIn_of_le`).  Each level
of nesting takes a token before the next level starts, so a budget above the number of tokens is
never used up (`Rule.readIn_not_tooDeep`): such a budget is no limit at all
(`Rule.readIn_eq_of_lt`).
-/

namespace GraphQL

variable {α : Type}

/-- Whether reading failed because the nesting budget was used up. -/
def Outcome.TooDeep (o : Outcome α) : Prop := o.obstacle? = some .tooDeep

theorem Outcome.not_tooDeep_ok (p : α × List Token) : ¬ Outcome.TooDeep (.ok p : Outcome α) := by
  simp [TooDeep, obstacle?]

theorem Outcome.tooDeep_iff {o : Outcome α} : o.TooDeep ↔ ∃ rest, o = .error ⟨.tooDeep, rest⟩ := by
  rcases o with ⟨b, ts⟩ | p <;> simp [TooDeep, obstacle?]

@[simp] theorem Reader.tooDeep_map {β : Type} {f : α → β} {r : Reader α} {ts : List Token} :
    (map f r ts).TooDeep ↔ (r ts).TooDeep := by
  simp [Outcome.TooDeep]

/-! ### Bigger budgets -/

/-- Another reader keeps every outcome of this one, but the failures for want of budget. -/
def Reader.KeptBy (r r' : Reader α) : Prop := ∀ ts, ¬ (r ts).TooDeep → r' ts = r ts

namespace Reader.KeptBy

variable {β : Type} {f f' : Reader (α → β)} {r r' s s' : Reader α}

theorem refl (r : Reader α) : r.KeptBy r := fun _ _ => rfl

theorem map (g : α → β) (h : r.KeptBy r') : (Reader.map g r).KeptBy (Reader.map g r') := by
  intro ts hd
  rw [Reader.map, Reader.map, h ts (mt tooDeep_map.2 hd)]

theorem seq (hf : f.KeptBy f') (hr : r.KeptBy r') : (Reader.seq f r).KeptBy (Reader.seq f' r') := by
  intro ts hd
  simp only [Reader.seq] at hd ⊢
  have hfirst : f' ts = f ts := hf ts fun h => hd (by
    obtain ⟨rest, h⟩ := Outcome.tooDeep_iff.1 h
    rw [h]
    rfl)
  rw [hfirst]
  rcases h : f ts with e | ⟨g, mid⟩
  · rfl
  · rw [h] at hd
    exact hr.map g mid hd

theorem branch (test : TokenKind → Bool) (hr : r.KeptBy r') (hs : s.KeptBy s') :
    (Reader.branch test r s).KeptBy (Reader.branch test r' s') := by
  intro ts hd
  simp only [Reader.branch] at hd ⊢
  split at hd <;> rename_i ht
  · rw [if_pos ht, if_pos ht]
    exact hr ts hd
  · rw [if_neg ht, if_neg ht]
    exact hs ts hd

theorem whileAt (test : TokenKind → Bool) (h : r.KeptBy r') (bound : Nat) :
    (Reader.whileAt test r bound).KeptBy (Reader.whileAt test r' bound) := by
  induction bound with
  | zero => exact refl _
  | succ bound ih =>
    rw [whileAt_succ, whileAt_succ]
    exact ((h.map List.cons).seq ih).branch test (refl _)

theorem upTo (close : TokenKind) (h : r.KeptBy r') (bound : Nat) :
    (Reader.upTo close r bound).KeptBy (Reader.upTo close r' bound) := by
  induction bound with
  | zero => exact refl _
  | succ bound ih =>
    rw [upTo_succ, upTo_succ]
    exact (refl _).branch _ ((h.map List.cons).seq ih)

end Reader.KeptBy

/-- If the nesting constructs keep their outcomes, so does every rule. -/
theorem Rule.keptBy_read {nested nested' : (n : Nest) → Reader n.Tree}
    (hn : ∀ n, (nested n).KeptBy (nested' n)) :
    ∀ {α : Type} (r : Rule α), (r.read nested).KeptBy (r.read nested') := by
  intro α r
  induction r with
  | done a | token accepts expected | place f | stuck expected => exact .refl _
  | map f r ih => exact ih.map f
  | seq f r ihf ihr => exact ihf.seq ihr
  | branch test yes no ihy ihn => exact ihy.branch test ihn
  | whileAt test item ih => exact fun ts => ih.whileAt test _ ts
  | upTo close item ih => exact fun ts => ih.upTo close _ ts
  | nest n => exact hn n
  | located r ih => exact fun ts => ih.map _ ts

theorem readNest_keptBy {b b' : Nat} (hb : b ≤ b') (n : Nest) :
    (readNest Nest.body b n).KeptBy (readNest Nest.body b' n) := by
  induction b generalizing b' n with
  | zero => exact fun _ h => absurd rfl h
  | succ b ih =>
    obtain ⟨b', rfl⟩ : ∃ k, b' = k + 1 := ⟨b' - 1, by omega⟩
    exact Rule.keptBy_read (ih (by omega)) n.body

/-- **A bigger budget keeps every outcome** but the failures for want of budget. -/
theorem Rule.readIn_of_le {b b' : Nat} (hb : b ≤ b') (r : Rule α) (ts : List Token)
    (h : ¬ (r.readIn b ts).TooDeep) : r.readIn b' ts = r.readIn b ts :=
  keptBy_read (readNest_keptBy hb) r ts h

/-! ### Budgets that are no limit -/

namespace Rule

/-- Whether every nesting construct comes after a token. -/
def guarded : {α : Type} → Rule α → Bool
  | _, .done _ | _, .token _ _ | _, .place _ | _, .stuck _ => true
  | _, .nest _ => false
  | _, .map _ r | _, .located r => r.guarded
  | _, .seq f r => f.guarded && (!f.nullable || r.guarded)
  | _, .branch _ yes no => yes.guarded && no.guarded
  | _, .whileAt _ item | _, .upTo _ item => item.guarded

theorem guarded_body (n : Nest) : n.body.guarded = true := by
  cases n <;> decide

section

variable {nested : (n : Nest) → Reader n.Tree} {b : Nat}
  (hs : ∀ n ts, ∃ u, ts = u ++ (nested n ts).rest) (hp : ∀ n, (nested n).Progresses)
  (hn : ∀ n {ts : List Token} {rest}, ts.length < b → nested n ts ≠ .error ⟨.tooDeep, rest⟩)

include hs hp hn

theorem read_ne_tooDeep : ∀ {α : Type} (r : Rule α), r.steady = true → ∀ {ts rest : List Token},
    ts.length < b ∨ (r.guarded = true ∧ ts.length ≤ b) →
      r.read nested ts ≠ .error ⟨.tooDeep, rest⟩ := by
  intro α r
  induction r with
  | done a | stuck expected => exact fun _ _ _ _ h => by cases h
  | token accepts expected =>
    intro _ ts rest _ h
    cases (Reader.token_eq_error.1 h).2
  | place f =>
    intro _ ts rest _ h
    obtain ⟨-, h⟩ | ⟨-, h⟩ := Reader.place_eq_error.1 h <;> cases h
  | map f r ih => exact fun hst ts rest hb h => ih hst hb (Reader.map_eq_error.1 h)
  | seq f r ihf ihr =>
    intro hst ts rest hb h
    simp only [steady, Bool.and_eq_true] at hst
    simp only [guarded, Bool.and_eq_true, Bool.or_eq_true, Bool.not_eq_true'] at hb
    obtain h | ⟨g, mid, hg, h⟩ := Reader.seq_eq_error.1 h
    · exact ihf hst.1 (hb.imp_right fun h => ⟨h.1.1, h.2⟩) h
    · obtain ⟨u, hu⟩ := read_suffix hs f ts
      rw [hg, Outcome.rest] at hu
      have hlen := congrArg List.length hu
      rw [List.length_append] at hlen
      -- Either the first part took a token, and any rule may follow, or the second is guarded, too.
      refine ihr hst.2 ?_ h
      rcases hb with hb | ⟨⟨-, hnull | hguard⟩, hb⟩
      · left; omega
      · left
        have := progresses_read hs hp f hst.1 hnull hg
        omega
      · right; exact ⟨hguard, by omega⟩
  | branch test yes no ihy ihn =>
    intro hst ts rest hb h
    simp only [steady, Bool.and_eq_true] at hst
    simp only [guarded, Bool.and_eq_true] at hb
    obtain ⟨-, h⟩ | ⟨-, h⟩ := Reader.branch_eq_iff.1 h
    · exact ihy hst.1.1 (hb.imp_right fun h => ⟨h.1.1, h.2⟩) h
    · exact ihn hst.1.2 (hb.imp_right fun h => ⟨h.1.2, h.2⟩) h
  | whileAt test item ih =>
    intro hst ts rest
    simp only [steady, Bool.and_eq_true, Bool.not_eq_true'] at hst
    have hitem := progresses_read hs hp item hst.1 hst.2
    induction ts using hitem.induction with
    | step ts ih' =>
      intro hb h
      obtain ⟨-, h | ⟨a, mid, ha, h⟩⟩ := (read_whileAt_eq_error hitem).1 h
      · exact ih hst.1 hb h
      · have hlt := hitem ha
        exact ih' ha (.inl (by omega)) h
  | upTo close item ih =>
    intro hst ts rest
    simp only [steady, Bool.and_eq_true, Bool.not_eq_true'] at hst
    have hitem := progresses_read hs hp item hst.1 hst.2
    induction ts using hitem.induction with
    | step ts ih' =>
      intro hb h
      obtain ⟨-, h | ⟨a, mid, ha, h⟩⟩ := (read_upTo_eq_error hitem).1 h
      · exact ih hst.1 hb h
      · have hlt := hitem ha
        exact ih' ha (.inl (by omega)) h
  | nest n =>
    rintro - ts rest (hb | ⟨hg, -⟩)
    · exact hn n hb
    · exact absurd hg (by simp [guarded])
  | located r ih =>
    intro hst ts rest hb h
    simp only [steady, Bool.and_eq_true] at hst
    exact ih hst.1 hb (Reader.map_eq_error.1 h)

end

end Rule

theorem readNest_ne_tooDeep {b : Nat} (n : Nest) {ts rest : List Token} (h : ts.length < b) :
    readNest Nest.body b n ts ≠ .error ⟨.tooDeep, rest⟩ := by
  induction b generalizing n ts rest with
  | zero => omega
  | succ b ih =>
    exact Rule.read_ne_tooDeep (readNest_suffix b) (readNest_progresses b)
      (fun n _ _ h => ih n h) n.body (steady_body n) (.inr ⟨Rule.guarded_body n, by omega⟩)

/-- A budget above the number of tokens is never used up. -/
theorem Rule.readIn_not_tooDeep {r : Rule α} (hst : r.steady = true) {b : Nat} {ts : List Token}
    (h : ts.length < b) : ¬ (r.readIn b ts).TooDeep := by
  rw [Outcome.tooDeep_iff, not_exists]
  exact fun _ => read_ne_tooDeep (readNest_suffix b) (readNest_progresses b)
    (fun n _ _ h => readNest_ne_tooDeep n h) r hst (.inl h)

/-- **A budget above the number of tokens is no limit**: every outcome within some budget, but
the failures for want of budget, is the outcome within this one. -/
theorem Rule.readIn_eq_of_lt {r : Rule α} (hst : r.steady = true) {b b' : Nat} {ts : List Token}
    (h : ts.length < b') (hd : ¬ (r.readIn b ts).TooDeep) : r.readIn b' ts = r.readIn b ts := by
  -- Neither budget need be the bigger one: both outcomes are compared within the bigger.
  rcases Nat.le_total b b' with hb | hb
  · exact readIn_of_le hb r ts hd
  · exact (readIn_of_le hb r ts (readIn_not_tooDeep hst h)).symm

end GraphQL

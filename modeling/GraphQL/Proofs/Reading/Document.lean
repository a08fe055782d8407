import GraphQL.Proofs.Reading.Budget
import GraphQL.Proofs.Reading.Completeness

/-!
# Reading documents

A list of definitions is the one part of the grammar that is not clear: a definition that could
go on with a block in braces may be followed by an operation that is nothing but such a block.  So
each definition of a document is derived before the very token that follows it
(`DerivesDocument`), and `readDocument_eq_ok` says that reading finds just these documents.
-/

namespace GraphQL

/-- Definitions that go with some tokens, each before what follows it. -/
def DerivesDocument (budget : Nat) : List Definition → List Token → Prop
  | [], w => w = []
  | d :: ds, w => ∃ u v, w = u ++ v ∧ definition.DerivesIn budget (upcoming v) d u ∧
      DerivesDocument budget ds v

theorem steady_definitions : definitions.steady = true := by
  simp [definitions, Rule.steady, steady_definition, nullable_definition]

theorem progresses_definition (budget : Nat) : (definition.readIn budget).Progresses :=
  Rule.readIn_progresses budget steady_definition nullable_definition

theorem read_definitions_nil (budget : Nat) : definitions.readIn budget [] = .ok ([], []) := rfl

theorem derivesDocument_of_read {budget : Nat} {ts rest : List Token} {ds : List Definition}
    (h : definitions.readIn budget ts = .ok (ds, rest)) :
    DerivesDocument budget ds ts ∧ rest = [] := by
  have hprogress := progresses_definition budget
  induction ts using hprogress.induction generalizing ds with
  | step ts ih =>
    obtain ⟨-, d, mid, ds, hd, hds, rfl⟩ | ⟨hend, rfl, rfl⟩ :=
      (Rule.read_whileAt_eq_ok hprogress).1 h
    · obtain ⟨u, hu, hd'⟩ := Rule.derives_of_read steady_definition hd
      obtain ⟨hv, hrest⟩ := ih hd hds
      exact ⟨⟨u, mid, hu, hd', hv⟩, hrest⟩
    · cases ts with
      | nil => exact ⟨rfl, rfl⟩
      | cons t ts => cases hend

theorem read_of_derivesDocument {budget : Nat} {ts : List Token} {ds : List Definition}
    (h : DerivesDocument budget ds ts) : definitions.readIn budget ts = .ok (ds, []) := by
  induction ds generalizing ts with
  | nil =>
    obtain rfl := h
    exact read_definitions_nil budget
  | cons d ds ih =>
    obtain ⟨u, v, rfl, hd, hv⟩ := h
    obtain ⟨t, u, rfl⟩ := List.exists_cons_of_ne_nil (hd.ne_nil nullable_definition)
    have hr := Rule.read_of_derives steady_definition clear_definition hd subset_rfl
    exact (Rule.read_whileAt_eq_ok (progresses_definition budget)).2
      (.inl ⟨rfl, d, v, ds, hr, ih hv, rfl⟩)

/-- What is derived as a document starts like a definition. -/
theorem upcoming_of_derivesDocument {budget : Nat} {ts : List Token} {ds : List Definition}
    (h : DerivesDocument budget ds ts) : upcoming ts ⊆ {k | definition.starts k = true} := by
  cases ds with
  | nil =>
    obtain rfl := h
    simp
  | cons d ds =>
    obtain ⟨u, v, rfl, hd, -⟩ := h
    obtain ⟨t, u, rfl⟩ := List.exists_cons_of_ne_nil (hd.ne_nil nullable_definition)
    rw [List.cons_append, upcoming_cons, Set.singleton_subset_iff]
    exact hd.starts steady_definition

/-- Without tokens there are no definitions. -/
theorem eq_nil_of_derivesDocument {budget : Nat} {ds : List Definition}
    (h : DerivesDocument budget ds []) : ds = [] := by
  cases ds with
  | nil => rfl
  | cons d ds =>
    obtain ⟨u, v, huv, hd, -⟩ := h
    exact absurd (List.append_eq_nil_iff.1 huv.symm).1 (hd.ne_nil nullable_definition)

/-- **Reading finds the documents that are derivable**, and only these. -/
theorem readDocument_eq_ok {budget : Nat} {ts : List Token} {d : Document} :
    readDocument budget ts = .ok d ↔
      DerivesDocument budget d.definitions ts ∧ d.start = firstStart ts := by
  unfold readDocument
  constructor
  · intro h
    split at h
    · rename_i ds rest hr
      cases h
      exact ⟨(derivesDocument_of_read hr).1, rfl⟩
    · cases h
  · rintro ⟨h, hstart⟩
    rw [show definitions.read (readNest Nest.body budget) ts = .ok (d.definitions, []) from
      read_of_derivesDocument h, firstStart] at *
    rw [← hstart]

theorem readDocument_eq_error {budget : Nat} {ts : List Token} {e : Failure} :
    readDocument budget ts = .error e ↔ definitions.readIn budget ts = .error e := by
  unfold readDocument Rule.readIn
  rcases definitions.read (readNest Nest.body budget) ts with e' | ⟨ds, rest⟩ <;> simp

/-! ### Budgets -/

/-- A bigger budget keeps every outcome but a failure for want of budget. -/
theorem readDocument_of_le {b b' : Nat} (hb : b ≤ b') {ts : List Token}
    (h : ∀ rest, readDocument b ts ≠ .error ⟨.tooDeep, rest⟩) :
    readDocument b' ts = readDocument b ts := by
  have hd : ¬ (definitions.readIn b ts).TooDeep := fun hd =>
    h _ (readDocument_eq_error.2 (Outcome.obstacle?_eq_some.1 hd))
  unfold readDocument
  rw [show definitions.read (readNest Nest.body b') ts = definitions.readIn b ts from
    Rule.readIn_of_le hb definitions ts hd]

/-- A budget above the number of tokens is never used up. -/
theorem readDocument_ne_tooDeep {b : Nat} {ts : List Token} (h : ts.length < b)
    (rest : List Token) : readDocument b ts ≠ .error ⟨.tooDeep, rest⟩ := by
  intro he
  refine Rule.readIn_not_tooDeep steady_definitions h ?_
  rw [readDocument_eq_error.1 he]
  rfl

end GraphQL

import GraphQL.Proofs.Reading.Document

/-!
# Kinds of tokens that no tree has

A rule *spares* a kind of tokens if none of its parts accepts a token of this kind
(`Rule.spares`), apart from the nesting constructs that it mentions (`Rule.mentions`).  If these
have no token of the kind, no tree of the rule has one (`Rule.kind_ne_of_derives`).  The grammar
spares the kinds of texts that are no lexeme, so no document has a token of such a kind
(`kind_ne_of_derivesDocument`).
-/

namespace GraphQL

variable {α : Type}

/-- Whether no part of a rule other than a nesting construct accepts a token of the kind. -/
def Rule.spares (kind : TokenKind) : {α : Type} → Rule α → Bool
  | _, .done _ | _, .stuck _ | _, .nest _ => true
  | _, .token accepts _ => !accepts kind
  | _, .place _ => kind != .name
  | _, .map _ r | _, .located r | _, .whileAt _ r => r.spares kind
  | _, .seq f r => f.spares kind && r.spares kind
  | _, .branch _ yes no => yes.spares kind && no.spares kind
  | _, .upTo close item => kind != close && item.spares kind

/-- Whether a nesting construct is a part of a rule. -/
def Rule.mentions (n : Nest) : {α : Type} → Rule α → Bool
  | _, .done _ | _, .stuck _ | _, .token _ _ | _, .place _ => false
  | _, .map _ r | _, .located r | _, .whileAt _ r | _, .upTo _ r => r.mentions n
  | _, .seq f r => f.mentions n || r.mentions n
  | _, .branch _ yes no => yes.mentions n || no.mentions n
  | _, .nest m => m == n

theorem Rule.kind_ne_of_derives {kind : TokenKind} {nested : (n : Nest) → Derivable n.Tree}
    {r : Rule α} (hn : ∀ n, r.mentions n = true → ∀ ⦃next : Set TokenKind⦄ ⦃a : n.Tree⦄
      ⦃w : List Token⦄, nested n next a w → ∀ t ∈ w, t.kind ≠ kind)
    (hr : r.spares kind = true) {next : Set TokenKind} {a : α} {w : List Token}
    (h : r.Derives nested next a w) : ∀ t ∈ w, t.kind ≠ kind := by
  induction r generalizing next w with
  | done a =>
    obtain ⟨-, rfl⟩ := h
    simp
  | token accepts expected =>
    obtain ⟨rfl, ht⟩ := h
    intro t ht' hk
    rw [List.mem_singleton.1 ht'] at hk
    simp [spares, ← hk, ht] at hr
  | place read =>
    obtain ⟨t, rfl, ht, -⟩ := h
    intro t' ht' hk
    rw [List.mem_singleton.1 ht', ht] at hk
    simp [spares, ← hk] at hr
  | stuck expected => exact h.elim
  | map f r ih | located r ih =>
    obtain ⟨a, ha, -⟩ := h
    exact ih hn hr ha
  | seq f r ihf ihr =>
    obtain ⟨g, u, a, v, rfl, hu, hv, -⟩ := h
    obtain ⟨hf, hr⟩ := Bool.and_eq_true_iff.1 hr
    exact List.forall_mem_append.2
      ⟨ihf (fun n h => hn n (by simp [mentions, h])) hf hu,
        ihr (fun n h => hn n (by simp [mentions, h])) hr hv⟩
  | branch test yes no ihy ihn =>
    obtain ⟨hy, hno⟩ := Bool.and_eq_true_iff.1 hr
    rcases h with ⟨-, ha⟩ | ⟨-, -, ha⟩
    · exact ihy (fun n h => hn n (by simp [mentions, h])) hy ha
    · exact ihn (fun n h => hn n (by simp [mentions, h])) hno ha
  | whileAt test item ih =>
    induction a generalizing w with
    | nil =>
      obtain ⟨rfl, -⟩ := h
      simp
    | cons a as iha =>
      obtain ⟨u, v, rfl, -, hu, hv⟩ := h
      exact List.forall_mem_append.2 ⟨ih hn hr hu, iha hv⟩
  | upTo close item ih =>
    obtain ⟨hclose, hitem⟩ := Bool.and_eq_true_iff.1 hr
    induction a generalizing w with
    | nil =>
      obtain ⟨t, rfl, ht⟩ := h
      intro t' ht' hk
      rw [List.mem_singleton.1 ht', ht] at hk
      simp [← hk] at hclose
    | cons a as iha =>
      obtain ⟨u, v, rfl, hu, hv⟩ := h
      exact List.forall_mem_append.2 ⟨ih hn hitem hu, iha hv⟩
  | nest n => exact hn n (beq_self_eq_true n) h

theorem kind_ne_of_deriveNest {kind : TokenKind} (hk : ∀ n : Nest, n.body.spares kind = true)
    {budget : Nat} {n : Nest} {next : Set TokenKind} {a : n.Tree} {w : List Token}
    (h : deriveNest budget n next a w) : ∀ t ∈ w, t.kind ≠ kind := by
  induction budget generalizing n next w with
  | zero => exact h.elim
  | succ budget ih => exact Rule.kind_ne_of_derives (fun _ _ _ _ _ h => ih h) (hk n) h

/-- No document has a token of a kind that the grammar spares. -/
theorem kind_ne_of_derivesDocument {kind : TokenKind}
    (hk : ∀ n : Nest, n.body.spares kind = true) (hd : definition.spares kind = true)
    {budget : Nat} {ds : List Definition} {ts : List Token} (h : DerivesDocument budget ds ts) :
    ∀ t ∈ ts, t.kind ≠ kind := by
  induction ds generalizing ts with
  | nil =>
    obtain rfl := h
    simp
  | cons d ds ih =>
    obtain ⟨u, v, rfl, hu, hv⟩ := h
    exact List.forall_mem_append.2
      ⟨Rule.kind_ne_of_derives (fun _ _ _ _ _ h => kind_ne_of_deriveNest hk h) hd hu, ih hv⟩

/-- Every token of a document is a lexeme. -/
theorem isLexeme_of_derivesDocument {budget : Nat} {ds : List Definition} {ts : List Token}
    (h : DerivesDocument budget ds ts) :
    ∀ t ∈ ts, t.kind ≠ .unknownCharacter ∧ t.kind ≠ .invalidString := by
  intro t ht
  have hspares : ∀ kind, kind = .unknownCharacter ∨ kind = .invalidString →
      (∀ n : Nest, n.body.spares kind = true) ∧ definition.spares kind = true := by
    rintro kind (rfl | rfl) <;> exact ⟨fun n => by cases n <;> decide, by decide⟩
  obtain ⟨hn, hd⟩ := hspares .unknownCharacter (.inl rfl)
  obtain ⟨hn', hd'⟩ := hspares .invalidString (.inr rfl)
  exact ⟨kind_ne_of_derivesDocument hn hd h t ht, kind_ne_of_derivesDocument hn' hd' h t ht⟩

/-- No string in a document is without a value. -/
theorem error?_eq_none_of_derivesDocument {budget : Nat} {ds : List Definition} {ts : List Token}
    (h : DerivesDocument budget ds ts) : ∀ t ∈ ts, t.lexeme.error? = none := by
  rintro ⟨l, start⟩ ht
  cases l with
  | invalidString text cause => exact absurd rfl (isLexeme_of_derivesDocument h _ ht).2
  | _ => rfl

end GraphQL

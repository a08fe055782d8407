import GraphQL.Proofs.Lexical.Lexeme
import GraphQL.Proofs.Reading.Derivation
import GraphQL.Proofs.Tree.Form

/-!
# Rules that derive only what is spelled

A rule *renders* a relation between trees and lexemes (`Rule.Renders`) if all trees that it
derives from genuine tokens are related to their lexemes.  For trees the relation is that the
lexemes fit the tree (`Form.Fits`); for functions it is to keep such relations.
-/

namespace GraphQL

open Spellings Derivable

variable {α β : Type}

/-- Whether all derived trees are related to their lexemes. -/
def Rule.Renders (budget : Nat) (R : α → List Lexeme → Prop) (r : Rule α) : Prop :=
  ∀ ⦃next : Set TokenKind⦄ ⦃a : α⦄ ⦃w : List Token⦄, (∀ t ∈ w, t.lexeme.Genuine) →
    r.DerivesIn budget next a w → R a (w.map Token.lexeme)

namespace Rule.Renders

variable {b : Nat} {R : α → List Lexeme → Prop} {S : β → List Lexeme → Prop} {F : Form α}

theorem done {a : α} (h : R a []) : Renders b R (.done a) := by
  rintro next _ w - ⟨rfl, rfl⟩
  exact h

theorem token {accepts : TokenKind → Bool} {expected : List TokenKind} :
    Renders b (fun t w => w = [t.lexeme] ∧ t.lexeme.Genuine ∧ accepts t.kind = true)
      (.token accepts expected) := by
  rintro next t w hw ⟨rfl, ht⟩
  exact ⟨rfl, hw t (by simp), ht⟩

theorem stuck {expected : List TokenKind} : Renders b R (.stuck expected) :=
  fun _ _ _ _ h => h.elim

theorem map {r : Rule α} {f : α → β} (hf : ∀ a w, R a w → S (f a) w) (hr : Renders b R r) :
    Renders b S (.map f r) := by
  rintro next _ w hw ⟨a, ha, rfl⟩
  exact hf a _ (hr hw ha)

theorem seq {g : Rule (α → β)} {r : Rule α}
    (hg : Renders b (fun g u => ∀ a v, R a v → S (g a) (u ++ v)) g) (hr : Renders b R r) :
    Renders b S (.seq g r) := by
  rintro next _ w hw ⟨g, u, a, v, rfl, hu, hv, rfl⟩
  rw [List.forall_mem_append] at hw
  rw [List.map_append]
  exact hg hw.1 hu a _ (hr hw.2 hv)

/-- A choice where what starts the second alternative matters. -/
theorem branchElse {test : TokenKind → Bool} {yes no : Rule α} (hy : Renders b R yes)
    (hn : Renders b (fun a w => (∀ l ∈ w.head?, test l.kind = false) → R a w) no) :
    Renders b R (.branch test yes no) := by
  rintro next a w hw (⟨-, h⟩ | ⟨ht, -, h⟩)
  · exact hy hw h
  · refine hn hw h fun l hl => ?_
    rcases w with _ | ⟨t, w⟩
    · cases hl
    · cases hl
      exact ht

theorem branch {test : TokenKind → Bool} {yes no : Rule α} (hy : Renders b R yes)
    (hn : Renders b R no) : Renders b R (.branch test yes no) := by
  rintro next a w hw (⟨-, h⟩ | ⟨-, -, h⟩)
  · exact hy hw h
  · exact hn hw h

theorem located {r : Rule (Nat → α)} (hr : Renders b (fun g w => ∀ s, R (g s) w) r) :
    Renders b R (.located r) := by
  rintro next _ w hw ⟨g, hg, rfl⟩
  exact hr hw hg _

/-- A repetition where what starts each item matters. -/
theorem whileAtStart {test : TokenKind → Bool} {item : Rule α}
    (h : Renders b (fun a w => (∀ l ∈ w.head?, test l.kind = true) → F.Fits b a w) item) :
    Renders b (F.each.Fits b) (.whileAt test item) := by
  intro next as
  induction as with
  | nil =>
    rintro w - ⟨rfl, -⟩
    exact ⟨rfl, by simp [Form.each], Nat.zero_le _⟩
  | cons a as ih =>
    rintro w hw ⟨u, v, rfl, ht, hu, hv⟩
    rw [List.forall_mem_append] at hw
    have htest : ∀ l ∈ (u.map Token.lexeme).head?, test l.kind = true := by
      rcases u with _ | ⟨t, u⟩
      · cases ht
      · rintro _ ⟨⟩
        exact ht
    obtain ⟨hs, hp, hd⟩ := h hw.1 hu htest
    obtain ⟨hs', hp', hd'⟩ := ih hw.2 hv
    rw [List.map_append]
    exact ⟨Language.append_mem_mul hs hs', List.forall_mem_cons.2 ⟨hp, hp'⟩, max_le hd hd'⟩

theorem whileAt {test : TokenKind → Bool} {item : Rule α} (h : Renders b (F.Fits b) item) :
    Renders b (F.each.Fits b) (.whileAt test item) :=
  whileAtStart fun _ _ _ hw hd _ => h hw hd

theorem upTo {close : Punctuator} {item : Rule α} (h : Renders b (F.Fits b) item) :
    Renders b (fun as w => ∃ v, F.each.Fits b as v ∧ w = v ++ [.punctuator close])
      (.upTo (.punctuator close) item) := by
  rintro next as w hw hd
  change Closes _ _ _ _ at hd
  induction as generalizing w with
  | nil =>
    obtain ⟨⟨l, start⟩, rfl, ht⟩ := hd
    refine ⟨[], ⟨rfl, by simp [Form.each], Nat.zero_le _⟩, ?_⟩
    cases l <;> cases ht
    rfl
  | cons a as ih =>
    obtain ⟨u, v, rfl, hu, hv⟩ := hd
    rw [List.forall_mem_append] at hw
    obtain ⟨hs, hp, hd⟩ := h hw.1 hu
    obtain ⟨v', ⟨hs', hp', hd'⟩, hv'⟩ := ih hw.2 hv
    refine ⟨u.map Token.lexeme ++ v', ⟨Language.append_mem_mul hs hs',
      List.forall_mem_cons.2 ⟨hp, hp'⟩, max_le hd hd'⟩, ?_⟩
    rw [List.map_append, hv', List.append_assoc]

/-! ### Rules with a name -/

theorem punct {p : Punctuator} : Renders b (fun _ w => w ∈ Spellings.punct p) (Rule.punct p) := by
  rintro next ⟨l, start⟩ w - ⟨rfl, ht⟩
  replace ht : l.kind = .punctuator p := by simpa [Token.kind] using ht
  cases l <;> cases ht
  rfl

theorem keyword {k : Keyword} :
    Renders b (fun _ w => w ∈ Spellings.keyword k) (Rule.keyword k) := by
  rintro next ⟨l, start⟩ w - ⟨rfl, ht⟩
  replace ht : l.kind = .keyword k := by simpa [Token.kind] using ht
  cases l <;> cases ht
  rfl

/-- Lexemes of the language `K`, then those of a tree. -/
theorem seqRight {K : Spellings} {r : Rule β} {r' : Rule α} (hK : Renders b (fun _ w => w ∈ K) r)
    (hr : Renders b (F.Fits b) r') :
    Renders b ({ F with spelling := fun a => K * F.spelling a }.Fits b) (r *> r') :=
  seq (map (fun _ _ hu _ _ hv => ⟨Language.append_mem_mul hu hv.1, hv.2, hv.3⟩) hK) hr

/-- Lexemes of a tree, then those of the language `K`. -/
theorem seqLeft {K : Spellings} {r : Rule α} {r' : Rule β} (hr : Renders b (F.Fits b) r)
    (hK : Renders b (fun _ w => w ∈ K) r') :
    Renders b ({ F with spelling := fun a => F.spelling a * K }.Fits b) (r <* r') :=
  seq (map (fun _ _ hu _ _ hv => ⟨Language.append_mem_mul hu.1 hv, hu.2, hu.3⟩) hr) hK

theorem optional {test : TokenKind → Bool} {r : Rule α} (hr : Renders b (F.Fits b) r) :
    Renders b (F.part.Fits b) (Rule.optional test r) :=
  branch (map (fun _ _ h => ⟨h.1, fun _ hc => Option.mem_some_iff.1 hc ▸ h.2, h.3⟩) hr)
    (done ⟨rfl, (fun _ h => nomatch h), Nat.zero_le _⟩)

theorem present {kind : TokenKind} {K : Spellings}
    (h : Renders b (fun _ w => w ∈ K) (Rule.one kind)) :
    Renders b ((Form.flag K).Fits b) (Rule.present kind) :=
  branch (map (fun _ _ h => ⟨h, trivial, Nat.zero_le _⟩) h) (done ⟨rfl, trivial, Nat.zero_le _⟩)

/-- A token that may be there or not, which no tree says. -/
theorem skipped {kind : TokenKind} {K : Spellings}
    (h : Renders b (fun _ w => w ∈ K) (Rule.one kind)) :
    Renders b (fun _ w => w ∈ Spellings.optional K) (Rule.present kind) :=
  branch (map (fun _ _ h => .inr h) h) (done (.inl rfl))

/-- Lexemes of the language `K`, then those of the language `L`. -/
theorem both {K L : Spellings} {r : Rule α} {r' : Rule β} (hK : Renders b (fun _ w => w ∈ K) r)
    (hL : Renders b (fun _ w => w ∈ L) r') : Renders b (fun _ w => w ∈ K * L) (r *> r') :=
  seq (map (fun _ _ hu _ _ hv => Language.append_mem_mul hu hv) hK) hL

/-- Lexemes of the language `K`, and then what is related to trees after such lexemes. -/
theorem after {K : Spellings} {r : Rule β} {r' : Rule α} (hK : Renders b (fun _ w => w ∈ K) r)
    (hr : Renders b (fun a w => ∀ u ∈ K, R a (u ++ w)) r') : Renders b R (r *> r') :=
  seq (map (fun _ u hu _ _ h => h u hu) hK) hr

theorem enclosed {opening closing : Punctuator} {item : Rule α} (h : Renders b (F.Fits b) item) :
    Renders b ((F.enclosed opening closing).Fits b) (Rule.enclosed opening closing item) := by
  refine seq (map ?_ punct) (upTo h)
  rintro _ u hu as _ ⟨v, ⟨hs, hp, hd⟩, rfl⟩
  rw [← List.append_assoc]
  exact ⟨Language.append_mem_mul (Language.append_mem_mul hu hs) rfl, hp, hd⟩

theorem parenthesized {item : Rule α} (h : Renders b (F.Fits b) item) :
    Renders b (F.parenthesized.Fits b) (Rule.parenthesized item) := by
  refine map ?_ h.enclosed.optional
  rintro (_ | as) w ⟨hs, hp, hd⟩
  · exact ⟨.inl hs, by simp [Form.parenthesized, Form.each], Nat.zero_le _⟩
  · exact ⟨.inr hs, hp as rfl, hd⟩

theorem name : Renders b (Form.name.Fits b) Rule.name := by
  refine map ?_ token
  rintro t _ ⟨rfl, hg, ht⟩
  obtain ⟨hl, hv⟩ := hg.eq_ofName ht
  exact ⟨congrArg (fun l => [l]) hl, hv, Nat.zero_le _⟩

theorem nameExcept {excluded : List Keyword} :
    Renders b ((Form.nameExcept excluded).Fits b) (Rule.nameExcept excluded) := by
  refine map ?_ token
  rintro t _ ⟨rfl, hg, ht⟩
  rw [Bool.and_eq_true] at ht
  obtain ⟨hl, hv⟩ := hg.eq_ofName ht.1
  refine ⟨congrArg (fun l => [l]) hl, ⟨hv, fun k hk hx => ?_⟩, Nat.zero_le _⟩
  have hkind : t.kind = .keyword k := by
    rw [Token.kind, hl, show t.lexeme.text = k.text from hx, Lexeme.ofName_text, Lexeme.kind]
  simp [hkind, hk] at ht

end Rule.Renders

end GraphQL

import GraphQL.Proofs.Lexical.Lexeme
import GraphQL.Proofs.Reading.Lookahead
import GraphQL.Proofs.Tree.Form

/-!
# Rules that derive all that is spelled

Lexemes *spell* a tree by a rule (`Rule.Spells`) if the rule derives the tree from them, as tokens
at offset zero.  A rule *covers* a form (`Rule.Covers`) if whatever fits a tree spells it by the
rule, with its offsets moved to zero.
-/

namespace GraphQL

open Derivable Language

variable {α β : Type}

/-- Whether lexemes, as tokens at offset zero, spell a tree by a rule. -/
abbrev Rule.Spells (budget : Nat) (r : Rule α) (a : α) (w : List Lexeme) : Prop :=
  r.DerivesIn budget ∅ a (w.map Lexeme.bare)

/-- Whether the first of some lexemes is of a tested kind. -/
def headIs (test : TokenKind → Bool) (w : List Lexeme) : Prop :=
  Reader.nextIs test (w.map Lexeme.bare) = true

theorem headIs_mono {test test' : TokenKind → Bool} {w : List Lexeme}
    (ht : ∀ k, test k = true → test' k = true) (h : headIs test w) : headIs test' w := by
  rcases w with _ | ⟨l, w⟩
  · cases h
  · exact ht l.kind h

theorem not_headIs_of_headIs {test test' : TokenKind → Bool} {w : List Lexeme} (h : headIs test w)
    (hd : (TokenKind.every fun k => !(test k && test' k)) = true) : ¬ headIs test' w := by
  intro h'
  rcases w with _ | ⟨l, w⟩
  · cases h
  · have hk := TokenKind.every_eq_true.1 hd l.kind
    rw [show test l.kind = true from h, show test' l.kind = true from h'] at hk
    cases hk

/-- A name is no punctuator. -/
theorem not_headIs_ofName (p : Punctuator) (x : String) (w : List Lexeme) :
    ¬ headIs (· == .punctuator p) (Lexeme.ofName x :: w) := by
  intro h
  have hk : (Lexeme.ofName x).kind = .punctuator p := eq_of_beq h
  rw [Lexeme.ofName] at hk
  split at hk <;> cases hk

namespace Rule.Spells

variable {b : Nat} {next : Set TokenKind} {u v w : List Lexeme}

/-- The lexemes of a pair of rules; if the second part is not empty, anything may follow. -/
theorem before {f : Rule (α → β)} {r : Rule α} {g : α → β} {a : α} (hf : f.Spells b g u)
    (hr : r.DerivesIn b next a (v.map Lexeme.bare)) (hv : v = [] → next = ∅) :
    (Rule.seq f r).DerivesIn b next (g a) ((u ++ v).map Lexeme.bare) := by
  refine ⟨g, u.map Lexeme.bare, a, v.map Lexeme.bare, List.map_append, hf.mono ?_, hr, rfl⟩
  rintro k ⟨h, hk⟩
  exact hv (List.map_eq_nil_iff.1 h) ▸ hk

theorem seq {f : Rule (α → β)} {r : Rule α} {g : α → β} {a : α} (hf : f.Spells b g u)
    (hr : r.Spells b a v) : (Rule.seq f r).Spells b (g a) (u ++ v) :=
  before hf hr fun _ => rfl

theorem map {r : Rule α} {a : α} (f : α → β) (h : r.DerivesIn b next a (w.map Lexeme.bare)) :
    (Rule.map f r).DerivesIn b next (f a) (w.map Lexeme.bare) :=
  ⟨a, h, rfl⟩

theorem seqRight {r : Rule β} {r' : Rule α} {c : β} {a : α} (h : r.Spells b c u)
    (h' : r'.Spells b a v) : (r *> r').Spells b a (u ++ v) :=
  seq (map _ h) h'

theorem seqLeft {r : Rule α} {r' : Rule β} {a : α} {c : β} (h : r.Spells b a u)
    (h' : r'.Spells b c v) : (r <* r').Spells b a (u ++ v) :=
  seq (map _ h) h'

theorem located {r : Rule (Nat → α)} {g : Nat → α}
    (h : r.DerivesIn b next g (w.map Lexeme.bare)) :
    (Rule.located r).DerivesIn b next (g 0) (w.map Lexeme.bare) :=
  ⟨g, h, by cases w <;> rfl⟩

theorem yes {test : TokenKind → Bool} {r r' : Rule α} {a : α} (hw : headIs test w)
    (h : r.DerivesIn b next a (w.map Lexeme.bare)) :
    (Rule.branch test r r').DerivesIn b next a (w.map Lexeme.bare) :=
  .inl ⟨hw, h⟩

theorem no {test : TokenKind → Bool} {r r' : Rule α} {a : α} (hw : ¬ headIs test w)
    (h : r'.DerivesIn b next a (w.map Lexeme.bare)) (hn : w = [] → next = ∅) :
    (Rule.branch test r r').DerivesIn b next a (w.map Lexeme.bare) := by
  refine .inr ⟨Bool.eq_false_iff.2 hw, fun h k hk => ?_, h⟩
  rw [hn (List.map_eq_nil_iff.1 h)] at hk
  exact hk.elim

theorem one (l : Lexeme) : (Rule.one l.kind).Spells b l.bare [l] := ⟨rfl, beq_self_eq_true _⟩

theorem punct {p : Punctuator} (h : w ∈ Spellings.punct p) :
    (Rule.punct p).Spells b (Lexeme.punctuator p).bare w := by
  obtain rfl := h
  exact one (.punctuator p)

theorem keyword {k : Keyword} (h : w ∈ Spellings.keyword k) :
    (Rule.keyword k).Spells b (Lexeme.keyword k).bare w := by
  obtain rfl := h
  exact one (.keyword k)

end Rule.Spells

/-- Whether whatever fits a tree spells it by the rule. -/
def Rule.Covers (budget : Nat) (F : Form α) (r : Rule α) : Prop :=
  ∀ ⦃a : α⦄ ⦃w : List Lexeme⦄, F.Fits budget a w → r.Spells budget (F.origin a) w

namespace Rule.Covers

variable {b : Nat} {F : Form α}

theorem each {test : TokenKind → Bool} {item : Rule α} (h : Covers b F item)
    (ht : ∀ a, ∀ w ∈ F.spelling a, headIs test w) : Covers b F.each (.whileAt test item) := by
  intro as
  induction as with
  | nil =>
    rintro _ ⟨rfl, -, -⟩
    exact ⟨rfl, fun _ h => h.elim⟩
  | cons a as ih =>
    rintro _ ⟨⟨u, hu, v, hv, rfl⟩, hp, hd⟩
    obtain ⟨hp, hp'⟩ := List.forall_mem_cons.1 hp
    obtain ⟨hd, hd'⟩ := max_le_iff.1 hd
    exact ⟨_, _, List.map_append, ht a u hu, (h ⟨hu, hp, hd⟩).mono fun _ hk => hk.2,
      ih ⟨hv, hp', hd'⟩⟩

theorem upTo {close : Punctuator} {item : Rule α} (h : Covers b F item) {as : List α}
    {w v : List Lexeme} (hw : F.each.Fits b as w) (hv : v ∈ Spellings.punct close) :
    (Rule.upTo (.punctuator close) item).Spells b (as.map F.origin) (w ++ v) := by
  change Closes _ _ _ _
  obtain rfl := hv
  induction as generalizing w with
  | nil =>
    obtain ⟨rfl, -, -⟩ := hw
    exact ⟨_, rfl, rfl⟩
  | cons a as ih =>
    obtain ⟨⟨u, hu, v, hv, rfl⟩, hp, hd⟩ := hw
    obtain ⟨hp, hp'⟩ := List.forall_mem_cons.1 hp
    obtain ⟨hd, hd'⟩ := max_le_iff.1 hd
    beta_reduce
    rw [List.append_assoc]
    exact ⟨_, _, List.map_append, h ⟨hu, hp, hd⟩, ih ⟨hv, hp', hd'⟩⟩

theorem enclosed {opening closing : Punctuator} {item : Rule α} (h : Covers b F item) :
    Covers b (F.enclosed opening closing) (Rule.enclosed opening closing item) := by
  rintro as _ ⟨⟨_, ⟨u, hu, v, hv, rfl⟩, w, hw, rfl⟩, hp, hd⟩
  beta_reduce
  rw [List.append_assoc]
  exact (Spells.punct hu).seqRight (h.upTo ⟨hv, hp, hd⟩ hw)

theorem optional {test : TokenKind → Bool} {r : Rule α} (h : Covers b F r)
    (ht : ∀ a, ∀ w ∈ F.spelling a, headIs test w) : Covers b F.part (Rule.optional test r) := by
  rintro (_ | a) w ⟨hs, hp, hd⟩
  · obtain rfl : w = [] := hs
    exact Spells.no (fun h => nomatch h) ⟨rfl, rfl⟩ fun _ => rfl
  · exact Spells.yes (ht a w hs) (Spells.map some (h ⟨hs, hp a rfl, hd⟩))

theorem parenthesized {item : Rule α} (h : Covers b F item) :
    Covers b F.parenthesized (Rule.parenthesized item) := by
  rintro as w ⟨hs, hp, hd⟩
  rcases hs with hs | hs
  · split at hs
    · rename_i has
      obtain rfl : w = [] := hs
      subst has
      have hnone : (Rule.optional (· == .punctuator .parenOpen)
          (Rule.enclosed .parenOpen .parenClose item)).Spells b none [] :=
        Spells.no (fun h => nomatch h) ⟨rfl, rfl⟩ fun _ => rfl
      exact Spells.map (Option.getD · []) hnone
    · exact hs.elim
  · have he : (Rule.enclosed .parenOpen .parenClose item).Spells b (as.map F.origin) w :=
      h.enclosed ⟨hs, hp, hd⟩
    refine Spells.map (Option.getD · []) (Spells.yes ?_ (Spells.map some he))
    obtain ⟨_, ⟨_, rfl, _, _, rfl⟩, _, _, rfl⟩ := hs
    rfl

theorem flag {k : Lexeme} : Covers b (Form.flag {[k]}) (Rule.present k.kind) := by
  rintro (_ | _) w ⟨hs, -, -⟩
  · obtain rfl : w = [] := hs
    exact Spells.no (fun h => nomatch h) ⟨rfl, rfl⟩ fun _ => rfl
  · obtain rfl : w = [k] := hs
    exact Spells.yes (beq_self_eq_true _) (Spells.map _ (Spells.one k))

theorem name : Covers b Form.name Rule.name := by
  rintro x _ ⟨rfl, -, -⟩
  refine ⟨_, ⟨rfl, Lexeme.isNameLike_ofName x⟩, Lexeme.text_ofName x⟩

theorem nameExcept {excluded : List Keyword} :
    Covers b (Form.nameExcept excluded) (Rule.nameExcept excluded) := by
  rintro x _ ⟨rfl, ⟨-, hx⟩, -⟩
  refine ⟨_, ⟨rfl, ?_⟩, Lexeme.text_ofName x⟩
  have hk : ∀ k ∈ excluded, TokenKind.keyword k ≠ (Lexeme.ofName x).kind := by
    intro k hk h
    rw [Lexeme.ofName] at h
    split at h <;> cases h
    rename_i hkey
    exact hx k hk (Keyword.text_of_ofName? hkey).symm
  have hb : (Lexeme.ofName x).bare.kind = (Lexeme.ofName x).kind := rfl
  simpa [hb, Lexeme.isNameLike_ofName] using hk

end Rule.Covers

end GraphQL

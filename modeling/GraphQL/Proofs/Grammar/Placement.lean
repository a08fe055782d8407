import GraphQL.Proofs.Reading.Lookahead
import GraphQL.Proofs.Tree.Positions
import GraphQL.Proofs.Tree.TypeTokens

/-!
# Rules that lay out nodes over tokens

A *layout* is a relation between nodes and tokens that carries over from the parts of a tree to the
tree (`Layout`); being laid out is one.  A rule *places* the nodes of its trees (`Rule.Places`) if
the layout relates these nodes to the tokens that the trees are derived from.  There is one lemma
for each way to build rules.  A rule whose tree keeps the offset of its first token yields a node
that starts there, if the layout relates its children to its tokens (`Rule.Yields.located`).
-/

namespace GraphQL

open Derivable

variable {α β : Type}

/-! ### Layouts -/

/-- Whether a node is a type. -/
def Node.isType : Node → Bool
  | typeRef _ => true
  | _ => false

/-- A relation between nodes and tokens that carries over from the parts of a tree to the tree. -/
class Layout (L : List Node → List Token → Prop) : Prop where
  /-- Tokens need not be those of a node. -/
  nil {w : List Token} : L [] w
  /-- Nodes side by side, over tokens side by side. -/
  append {ns ms : List Node} {u v : List Token} (h : L ns u) (h' : L ms v) : L (ns ++ ms) (u ++ v)
  /-- A node that is no type, over the tokens of its children, the first of which it starts with. -/
  node {n : Node} {t : Token} {u : List Token} (hn : n.isType = false) (ht : n.StandsAt t)
    (h : L n.children (t :: u)) : L [n] (t :: u)
  /-- A type, over the tokens that spell it. -/
  type {t : TypeRef} {w : List Token} (h : t.SpelledBy w) : L [.typeRef t] w

namespace Layout

variable {L : List Node → List Token → Prop} [Layout L] {ns : List Node} {w : List Token}

theorem prepend (u : List Token) (h : L ns w) : L ns (u ++ w) :=
  append (nil : L [] u) h

theorem extend (h : L ns w) (v : List Token) : L ns (w ++ v) := by
  simpa using append h (nil : L [] v)

end Layout

theorem TypeRef.SpelledBy.spans {t : TypeRef} {w : List Token} (h : t.SpelledBy w) :
    (Node.typeRef t).Spans w := by
  induction h with
  | named _ => exact ⟨_, [], rfl, ⟨rfl, by rintro _ ⟨⟩ -; exact List.prefix_rfl⟩, .nil⟩
  | @list item opening closing w _ _ _ ih =>
    exact ⟨opening, w ++ [closing], rfl, ⟨rfl, fun x hx => nomatch hx⟩,
      (ih.laidOut.extend [closing]).prepend [opening]⟩
  | nonNull _ _ ih =>
    -- A non-null type starts where the type does that it wraps.
    obtain ⟨t, u, rfl, hstart, -⟩ := id ih
    exact ⟨t, u ++ [_], rfl, ⟨hstart.1, fun x hx => nomatch hx⟩, ih.laidOut.extend _⟩

instance : Layout LaidOut where
  nil := .nil
  append := LaidOut.append
  node _ ht h := Node.Spans.laidOut ⟨_, _, rfl, ht, h⟩
  type h := h.spans.laidOut

/-! ### Rules -/

/-- Whether all derived trees are related to their tokens. -/
def Rule.Yields (budget : Nat) (R : α → List Token → Prop) (r : Rule α) : Prop :=
  ∀ ⦃next : Set TokenKind⦄ ⦃a : α⦄ ⦃w : List Token⦄, r.DerivesIn budget next a w → R a w

/-- Whether a layout relates certain nodes of all derived trees to their tokens. -/
abbrev Rule.Places (L : List Node → List Token → Prop) (budget : Nat) (nodes : α → List Node)
    (r : Rule α) : Prop :=
  r.Yields budget fun a w => L (nodes a) w

/-- The first of some tokens has the text. -/
def Leads (x : String) (w : List Token) : Prop := ∃ t u, w = t :: u ∧ t.text = x

theorem Leads.extend {x : String} {u : List Token} (h : Leads x u) (v : List Token) :
    Leads x (u ++ v) := by
  obtain ⟨t, u, rfl, ht⟩ := h
  exact ⟨t, u ++ v, rfl, ht⟩

section

variable {L : List Node → List Token → Prop} {n : Node} {start : Nat} {w : List Token}

variable (L) in
/-- A node that is to start at the first of some tokens, the offset of which is given. -/
structure Node.Opens (n : Node) (start : Nat) (w : List Token) : Prop where
  /-- It starts at the offset. -/
  start_eq : n.start = start
  /-- The text at its start is that of the first token. -/
  leads : ∀ x ∈ n.leadingText?, ∀ t ∈ w.head?, t.lexeme.Genuine → x.toList <+: t.text.toList
  /-- The layout relates its children to the tokens. -/
  children : L n.children w

variable (L) in
/-- A node that is to start at a given offset and does not tell the text there, with children that
the layout relates to some tokens. -/
structure Node.Silent (n : Node) (start : Nat) (w : List Token) : Prop where
  /-- It starts at the offset. -/
  start_eq : n.start = start
  /-- It does not tell the text at its start. -/
  text_eq : n.leadingText? = none
  /-- The layout relates its children to the tokens. -/
  children : L n.children w

theorem Node.Silent.prepend [Layout L] (u : List Token) (h : n.Silent L start w) :
    n.Silent L start (u ++ w) :=
  ⟨h.start_eq, h.text_eq, Layout.prepend u h.children⟩

theorem Node.Silent.opens (h : n.Silent L start w) : n.Opens L start w :=
  ⟨h.start_eq, (fun x hx => by rw [h.text_eq] at hx; cases hx), h.children⟩

/-- A node that tells the text of the first token. -/
theorem Node.Opens.told {x : String} (hstart : n.start = start) (htext : n.leadingText? = some x)
    (hw : Leads x w) (h : L n.children w) : n.Opens L start w := by
  obtain ⟨t, u, rfl, rfl⟩ := hw
  refine ⟨hstart, ?_, h⟩
  rw [htext]
  rintro _ ⟨⟩ _ ⟨⟩ -
  exact List.prefix_rfl

end

namespace Rule.Yields

variable {b : Nat} {R : α → List Token → Prop} {S : β → List Token → Prop} {nodes : α → List Node}
  {L : List Node → List Token → Prop}

/-- Nothing is said about the trees. -/
theorem any {r : Rule α} : Yields b (fun _ _ => True) r := fun _ _ _ _ => trivial

theorem done {a : α} (h : R a []) : Yields b R (.done a) := by
  rintro next _ w ⟨rfl, rfl⟩
  exact h

theorem token {accepts : TokenKind → Bool} {expected : List TokenKind} :
    Yields b (fun t w => w = [t] ∧ accepts t.kind = true) (.token accepts expected) :=
  fun _ _ _ h => h

theorem stuck {expected : List TokenKind} : Yields b R (.stuck expected) :=
  fun _ _ _ h => h.elim

theorem map {r : Rule α} {f : α → β} (hf : ∀ a w, R a w → S (f a) w) (hr : Yields b R r) :
    Yields b S (.map f r) := by
  rintro next _ w ⟨a, ha, rfl⟩
  exact hf a w (hr ha)

theorem seq {g : Rule (α → β)} {r : Rule α}
    (hg : Yields b (fun g u => ∀ a v, R a v → S (g a) (u ++ v)) g) (hr : Yields b R r) :
    Yields b S (.seq g r) := by
  rintro next _ _ ⟨g, u, a, v, rfl, hu, hv, rfl⟩
  exact hg hu a v (hr hv)

theorem branch {test : TokenKind → Bool} {yes no : Rule α} (hy : Yields b R yes)
    (hn : Yields b R no) : Yields b R (.branch test yes no) := by
  rintro next a w (⟨-, h⟩ | ⟨-, -, h⟩)
  · exact hy h
  · exact hn h

/-- What holds of no items, and after an item if it holds of those that follow, holds of all. -/
theorem repeats {S : List α → List Token → Prop} {test : TokenKind → Bool} {item : Rule α}
    (hnil : S [] []) (hcons : ∀ {a u as v}, R a u → S as v → S (a :: as) (u ++ v))
    (h : Yields b R item) : Yields b S (.whileAt test item) := by
  intro next as
  induction as with
  | nil =>
    rintro w ⟨rfl, -⟩
    exact hnil
  | cons a as ih =>
    rintro _ ⟨u, v, rfl, -, hu, hv⟩
    exact hcons (h hu) (ih hv)

/-- The same of items before a closing token. -/
theorem closes {S : List α → List Token → Prop} {close : TokenKind} {item : Rule α}
    (hclose : ∀ t : Token, t.kind = close → S [] [t])
    (hcons : ∀ {a u as v}, R a u → S as v → S (a :: as) (u ++ v))
    (h : Yields b R item) : Yields b S (.upTo close item) := by
  intro next as w hd
  change Closes _ _ _ _ at hd
  induction as generalizing w with
  | nil =>
    obtain ⟨t, rfl, ht⟩ := hd
    exact hclose t ht
  | cons a as ih =>
    obtain ⟨u, v, rfl, hu, hv⟩ := hd
    exact hcons (h hu) (ih hv)

/-- A tree keeps the offset of its first token. -/
theorem atFirst {r : Rule (Nat → α)} (hnull : r.nullable = false)
    (hr : Yields b (fun g w => ∀ t ∈ w.head?, R (g t.start) w) r) : Yields b R (.located r) := by
  rintro next _ w ⟨g, hg, rfl⟩
  obtain ⟨t, u, rfl⟩ := List.exists_cons_of_ne_nil (Rule.DerivesIn.ne_nil hnull hg)
  exact hr hg t rfl

section

variable [Layout L]

/-- A tree that keeps the offset of its first token is a node that starts there. -/
theorem located {node : α → Node} {r : Rule (Nat → α)} (hnull : r.nullable = false)
    (hnode : ∀ a, (node a).isType = false)
    (hr : Yields b (fun g w => ∀ s, (node (g s)).Opens L s w) r) :
    Places L b (fun a => [node a]) (.located r) := by
  refine atFirst hnull fun _ g w hg t ht => ?_
  obtain ⟨u, rfl⟩ := List.head?_eq_some_iff.1 ht
  obtain ⟨hstart, htext, hchildren⟩ := hr hg t.start
  exact Layout.node (hnode _) ⟨hstart, fun x hx hg => htext x hx t rfl hg⟩ hchildren

theorem locatedSilent {node : α → Node} {r : Rule (Nat → α)} (hnull : r.nullable = false)
    (hnode : ∀ a, (node a).isType = false)
    (hr : Yields b (fun g w => ∀ s, (node (g s)).Silent L s w) r) :
    Places L b (fun a => [node a]) (.located r) :=
  located hnull hnode fun _ _ _ hd s => (hr hd s).opens

/-! ### Repetitions -/

theorem whileAt {node : α → Node} {test : TokenKind → Bool} {item : Rule α}
    (h : Places L b (fun a => [node a]) item) :
    Places L b (List.map node) (.whileAt test item) :=
  repeats Layout.nil Layout.append h

theorem upTo {node : α → Node} {close : TokenKind} {item : Rule α}
    (h : Places L b (fun a => [node a]) item) : Places L b (List.map node) (.upTo close item) :=
  closes (fun _ _ => Layout.nil) Layout.append h

/-! ### Rules with a name -/

/-- What holds after further tokens holds after those of another rule. -/
theorem after {r : Rule β} {r' : Rule α} (hR : ∀ a u v, R a v → R a (u ++ v))
    (h : Yields b R r') : Yields b R (r *> r') :=
  seq (map (fun _ u _ a v hv => hR a u v hv) any) h

theorem seqRight {r : Rule β} {r' : Rule α} (h : Places L b nodes r') :
    Places L b nodes (r *> r') :=
  after (fun _ u _ hv => Layout.prepend u hv) h

theorem seqLeft {r : Rule α} {r' : Rule β} (h : Places L b nodes r) : Places L b nodes (r <* r') :=
  seq (map (fun _ _ hu _ v _ => Layout.extend hu v) h) any

theorem optional {test : TokenKind → Bool} {r : Rule α} (nodes' : Option α → List Node)
    (hsome : ∀ a, nodes' (some a) = nodes a) (hnone : nodes' none = []) (h : Places L b nodes r) :
    Places L b nodes' (Rule.optional test r) :=
  branch (map (fun a _ ha => by rwa [hsome]) h) (done (by rw [hnone]; exact Layout.nil))

theorem enclosed {node : α → Node} {opening closing : Punctuator} {item : Rule α}
    (h : Places L b (fun a => [node a]) item) :
    Places L b (List.map node) (Rule.enclosed opening closing item) :=
  seqRight (upTo h)

theorem enclosed? {node : α → Node} {opening closing : Punctuator} {item : Rule α}
    (h : Places L b (fun a => [node a]) item) :
    Places L b (fun as? => (as?.getD []).map node) (Rule.enclosed? opening closing item) :=
  optional _ (fun _ => rfl) rfl (enclosed h)

theorem parenthesized {node : α → Node} {item : Rule α} (h : Places L b (fun a => [node a]) item) :
    Places L b (List.map node) (Rule.parenthesized item) :=
  map (fun _ _ ha => ha) (enclosed? h)

end

theorem punctToken {p : Punctuator} :
    Yields b (fun t w => w = [t] ∧ t.kind = .punctuator p) (Rule.punct p) := by
  rintro next t w ⟨rfl, ht⟩
  exact ⟨rfl, by simpa using ht⟩

theorem punct {p : Punctuator} : Yields b (fun _ w => Leads p.text w) (Rule.punct p) := by
  intro next t w h
  obtain ⟨rfl, ht⟩ := punctToken h
  exact ⟨t, [], rfl, Token.text_of_kind_eq ht⟩

/-- Two punctuators around the tokens of another rule. -/
theorem between {opening closing : Punctuator} {r : Rule α} (h : Yields b R r) :
    Yields b (fun a w => ∃ o u c, w = o :: u ++ [c] ∧ o.kind = .punctuator opening ∧ R a u ∧
      c.kind = .punctuator closing) (Rule.punct opening *> r <* Rule.punct closing) := by
  rintro next _ _ ⟨_, _, c, _, rfl, ⟨_, ⟨_, _, a, u, rfl, ⟨o, ho, rfl⟩, ha, rfl⟩, rfl⟩, hc, rfl⟩
  obtain ⟨rfl, hopening⟩ := punctToken ho
  obtain ⟨rfl, hclosing⟩ := punctToken hc
  exact ⟨o, u, c, rfl, hopening, h ha, hclosing⟩

theorem present {kind : TokenKind} :
    Yields b (fun found w => found = true ∧ (∃ t, w = [t] ∧ t.kind = kind) ∨
      found = false ∧ w = []) (Rule.present kind) :=
  branch (map (fun t _ h => .inl ⟨rfl, t, h.1, by simpa using h.2⟩) token) (done (.inr ⟨rfl, rfl⟩))

theorem nameToken :
    Yields b (fun x w => ∃ t, w = [t] ∧ t.kind.isNameLike = true ∧ t.text = x) Rule.name :=
  map (fun t _ h => ⟨t, h.1, h.2, rfl⟩) token

theorem name : Yields b (fun x w => Leads x w) Rule.name := by
  intro next x w h
  obtain ⟨t, rfl, -, hx⟩ := nameToken h
  exact ⟨t, [], rfl, hx⟩

theorem nameExcept {excluded : List Keyword} :
    Yields b (fun x w => Leads x w) (Rule.nameExcept excluded) :=
  map (fun t _ h => ⟨t, [], h.1, rfl⟩) token

/-- A rule that starts with a token of a certain text, whatever comes after it. -/
theorem leads {x : String} {r : Rule β} {r' : Rule α} (h : Yields b (fun _ w => Leads x w) r) :
    Yields b (fun _ w => Leads x w) (r *> r') :=
  seq (map (fun _ _ hu _ v _ => hu.extend v) h) any

end Rule.Yields

end GraphQL

import GraphQL.Proofs.Grammar.Positions
import GraphQL.Proofs.Lexical.Places
import GraphQL.Proofs.Parse.Spelling

/-!
# Where the nodes of a document start

Every node of a document that a source text parses as starts where a token does, and the nodes come
in the order of their offsets (`faithful_of_parseWith`), if the text is not too long to report them.
The text that a leaf tells stands at its offset.
-/

namespace GraphQL

/-- The nodes of the document start where they stand in the source text. -/
structure Document.Faithful (source : String) (d : Document) : Prop where
  /-- A node starts where a token does; only a document without tokens has none to start at. -/
  token : ∀ n ∈ d.nodes,
    (∃ t ∈ tokens source, t.offset = n.start) ∨ (tokens source = [] ∧ n.start = 0)
  /-- Offsets never go down along the enumeration. -/
  sorted : d.nodes.Pairwise (·.start ≤ ·.start)
  /-- Siblings start one after the other. -/
  siblings : ∀ n ∈ d.nodes, n.children.Pairwise (·.start < ·.start)
  /-- Nothing inside a node starts before it. -/
  le : ∀ n ∈ d.nodes, ∀ m ∈ n.enumerate, n.start ≤ m.start
  /-- All that is inside a node starts before the siblings after it. -/
  before : ∀ n ∈ d.nodes, n.children.Pairwise fun a b => ∀ m ∈ a.enumerate, m.start < b.start
  /-- The text that a node tells stands at its offset. -/
  text : ∀ n ∈ d.nodes, ∀ x ∈ n.leadingText?, ∃ pre post,
    source.toList = pre ++ (x.toList ++ post) ∧ byteLength pre = n.start
  /-- Lines never go down along the enumeration. -/
  lines : d.nodes.Pairwise fun m n => lineAt source m.start ≤ lineAt source n.start

theorem faithful_of_inOrder {source : String} {d : Document}
    (hsize : byteLength source.toList ≤ maxOffset) (horder : ∀ n ∈ d.nodes, n.InOrder)
    (htoken : ∀ n ∈ d.nodes, (∃ t ∈ tokens source, n.StandsAt t) ∨
      (tokens source = [] ∧ n.start = 0 ∧ n.leadingText? = none)) : d.Faithful source where
  token n hn := (htoken n hn).imp
    (fun ⟨t, ht, hnt⟩ => ⟨t, ht, by rw [hnt.1, start_eq_offset_of_mem_tokens hsize ht]⟩)
    fun h => ⟨h.1, h.2.1⟩
  sorted := Node.enumerate_sorted horder
  siblings n hn := (horder n hn).children.imp fun {a _} hab => hab a a.mem_enumerate_self
  le n hn := (horder n hn).le
  before n hn := (horder n hn).children
  text n hn x hx := by
    obtain ⟨t, ht, hstart, htext⟩ | ⟨-, -, hnone⟩ := htoken n hn
    · obtain ⟨rest, hrest⟩ := htext x hx (genuine_of_mem_tokens ht)
      obtain ⟨pre, post, hsource, hpre⟩ := (Cursor.scans_tokens (Cursor.ofString source)).slice ht
      refine ⟨pre, rest ++ post, ?_, ?_⟩
      · rw [← List.append_assoc x.toList, hrest]
        exact hsource
      · rw [hstart, start_eq_offset_of_mem_tokens hsize ht, hpre]
        exact (Nat.zero_add _).symm
    · rw [hnone] at hx
      cases hx
  lines := (Node.enumerate_sorted horder).imp fun h => lineAt_mono source h

/-- **Positions are faithful and ordered.**  In a text whose offsets can all be reported, each node
of the document that it parses as starts where a token does, with the text that it tells; offsets
and lines never go down along the enumeration, siblings start one after the other, and what is
inside a node starts at or after it and before the sibling after it. -/
theorem faithful_of_parseWith {options : ParseOptions} {source : String} {d : Document}
    (hsize : byteLength source.toList ≤ maxOffset) (h : parseWith options source = .ok d) :
    d.Faithful source := by
  obtain ⟨hd, hstart⟩ := readDocument_eq_ok.1 (parseWith_eq_ok.1 h)
  have hchildren := laidOut_of_derivesDocument hd
  rcases htokens : tokens source with _ | ⟨t, ts⟩
  · -- Without tokens there are no definitions, and the document is its only node.
    rw [htokens] at hd hstart
    obtain ⟨ds, start⟩ := d
    obtain rfl : start = 0 := hstart
    obtain rfl : ds = [] := eq_nil_of_derivesDocument hd
    have hnodes : ∀ n ∈ Document.nodes ⟨[], 0⟩, n = .document ⟨[], 0⟩ :=
      fun n hn => List.mem_singleton.1 hn
    refine faithful_of_inOrder hsize (fun n hn => ?_) fun n hn => ?_ <;> rw [hnodes n hn]
    · exact ⟨fun m hm => (congrArg Node.start (hnodes m hm)).ge, .nil⟩
    · exact .inr ⟨htokens, rfl, rfl⟩
  · rw [htokens] at hchildren hstart
    have hlaid : LaidOut [.document d] (tokens source) := by
      have hspans : (Node.document d).Spans (t :: ts) :=
        ⟨t, ts, rfl, ⟨hstart, fun x hx => nomatch hx⟩, hchildren⟩
      rw [htokens]
      exact hspans.laidOut
    exact faithful_of_inOrder hsize
      ((hlaid.inOrder (pairwise_start_tokens hsize)).1 _ List.mem_cons_self)
      fun n hn => .inl (hlaid.exists_token _ List.mem_cons_self n hn)

/-- An alias, a variable in a list, and a type that starts with its description. -/
theorem faithful_of_parseWith_alias :
    Document.Faithful "\x7be:f(a:[\"b\",$v])@d\x7d\"h\"type T\x7bi:[T!]\x7d" ⟨[
      .operation ⟨.query, true, none, [], [], [.field ⟨some "e", "f",
        [⟨"a", .list [.string "b" false 8, .var ⟨"v", 12⟩] 7, 5⟩], [⟨"d", [], 16⟩], none, 1⟩], 0⟩,
      .type ⟨some "h", ⟨"T", [], .object [] (some
        [⟨none, "i", [], .list (.nonNull (.named ⟨"T", 32⟩) 32) 31, [], 29⟩])⟩, 19⟩], 0⟩ :=
  @faithful_of_parseWith .unlimited _ _ (by decide +kernel) (by decide +kernel)

end GraphQL

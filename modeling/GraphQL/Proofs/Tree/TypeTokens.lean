import GraphQL.Token.Basic
import GraphQL.Tree.Value

/-!
# Types over tokens

Which tokens spell a reference to a type (`TypeRef.SpelledBy`): a name, a type in brackets, or a
type and an exclamation mark.  The texts of these tokens make up the text of the type
(`TypeRef.SpelledBy.toList_text`), and a single one of them is a name, that of the innermost type
(`TypeRef.SpelledBy.innermost`).  Among tokens in the order of their offsets no others spell the
type (`TypeRef.SpelledBy.unique`).
-/

namespace GraphQL

/-- The tokens that spell a type, which starts at the first of them. -/
inductive TypeRef.SpelledBy : TypeRef → List Token → Prop where
  /-- A name, keywords included. -/
  | named {t : Token} (h : t.kind.isNameLike = true) : SpelledBy (.named ⟨t.text, t.start⟩) [t]
  /-- A type in brackets. -/
  | list {item : TypeRef} {opening closing : Token} {w : List Token}
    (ho : opening.kind = .punctuator .bracketOpen) (h : SpelledBy item w)
    (hc : closing.kind = .punctuator .bracketClose) :
    SpelledBy (.list item opening.start) (opening :: w ++ [closing])
  /-- A type and an exclamation mark. -/
  | nonNull {inner : TypeRef} {bang : Token} {w : List Token} (h : SpelledBy inner w)
    (hb : bang.kind = .punctuator .bang) : SpelledBy (.nonNull inner inner.start) (w ++ [bang])

theorem Token.text_of_kind_eq {t : Token} {p : Punctuator} (h : t.kind = .punctuator p) :
    t.text = p.text := by
  obtain ⟨l, start⟩ := t
  replace h : l.kind = .punctuator p := h
  cases l <;> cases h
  rfl

theorem Token.not_isNameLike {t : Token} {p : Punctuator} (h : t.kind = .punctuator p) :
    t.kind.isNameLike = false := by
  rw [h]
  rfl

/-- The texts of the tokens that spell a type. -/
def TypeRef.pieces : TypeRef → List String
  | named t => [t.name]
  | list item _ => "[" :: item.pieces ++ ["]"]
  | nonNull inner _ => inner.pieces ++ ["!"]

namespace TypeRef.SpelledBy

variable {t : TypeRef} {w : List Token}

/-- A type starts at its first token. -/
theorem first (h : t.SpelledBy w) : ∃ x u, w = x :: u ∧ t.start = x.start := by
  induction h with
  | named _ => exact ⟨_, [], rfl, rfl⟩
  | list _ _ _ _ => exact ⟨_, _, rfl, rfl⟩
  | nonNull _ _ ih =>
    obtain ⟨x, u, rfl, hstart⟩ := ih
    exact ⟨x, _, rfl, hstart⟩

theorem map_text (h : t.SpelledBy w) : w.map Token.text = t.pieces := by
  induction h with
  | named _ => rfl
  | list ho _ hc ih =>
    rw [List.cons_append, List.map_cons, List.map_append, ih, List.map_singleton,
      Token.text_of_kind_eq ho, Token.text_of_kind_eq hc]
    rfl
  | nonNull _ hb ih =>
    rw [List.map_append, ih, List.map_singleton, Token.text_of_kind_eq hb]
    rfl

/-- The text of a type is that of its tokens, one after the other. -/
theorem toList_text (h : t.SpelledBy w) : t.text.toList = w.flatMap fun x => x.text.toList := by
  have hpieces : t.text.toList = t.pieces.flatMap String.toList := by
    clear h
    induction t with
    | named t => exact (List.append_nil _).symm
    | list item start ih => simp [TypeRef.text, TypeRef.pieces, ih]
    | nonNull inner start ih => simp [TypeRef.text, TypeRef.pieces, ih]
  rw [hpieces, ← h.map_text, List.flatMap_map]

/-- One token of a type is a name, and this is the name of its innermost type. -/
theorem innermost (h : t.SpelledBy w) : ∃ x, w.filter (·.kind.isNameLike) = [x] ∧
    t.innermost = ⟨x.text, x.start⟩ := by
  induction h with
  | named h => exact ⟨_, by simp [h], rfl⟩
  | list ho _ hc ih =>
    obtain ⟨x, hx, hname⟩ := ih
    refine ⟨x, ?_, hname⟩
    simp [hx, Token.not_isNameLike ho, Token.not_isNameLike hc]
  | nonNull _ hb ih =>
    obtain ⟨x, hx, hname⟩ := ih
    refine ⟨x, ?_, hname⟩
    simp [hx, Token.not_isNameLike hb]

/-- Tokens in the order of their offsets go on from those before a type with those that spell it. -/
theorem exists_dropWhile {ts : List Token} (hts : ts.Pairwise (·.start < ·.start))
    (hw : w <:+: ts) (h : t.SpelledBy w) :
    ∃ rest, ts.dropWhile (fun x => decide (x.start < t.start)) = w ++ rest := by
  obtain ⟨before, rest, rfl⟩ := hw
  obtain ⟨x, u, rfl, hstart⟩ := h.first
  rw [List.append_assoc] at hts ⊢
  have hbefore : ∀ y ∈ before, decide (y.start < t.start) = true := by
    intro y hy
    rw [hstart, decide_eq_true_eq]
    exact (List.pairwise_append.1 hts).2.2 y hy x (List.mem_append_left _ List.mem_cons_self)
  refine ⟨rest, ?_⟩
  rw [List.dropWhile_append_of_pos hbefore, List.cons_append,
    List.dropWhile_cons_of_neg (by simp [hstart])]

/-- A type is spelled by no other tokens than those at its place. -/
theorem unique {ts w' : List Token} (hts : ts.Pairwise (·.start < ·.start)) (hw : w <:+: ts)
    (hw' : w' <:+: ts) (h : t.SpelledBy w) (h' : t.SpelledBy w') : w = w' := by
  obtain ⟨rest, hrest⟩ := h.exists_dropWhile hts hw
  obtain ⟨rest', hrest'⟩ := h'.exists_dropWhile hts hw'
  have hlength := congrArg List.length (h.map_text.trans h'.map_text.symm)
  rw [List.length_map, List.length_map] at hlength
  exact List.append_inj_left (hrest.symm.trans hrest') hlength

end TypeRef.SpelledBy

end GraphQL

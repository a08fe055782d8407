import GraphQL.Proofs.Grammar.Completeness.TypeSystem
import GraphQL.Proofs.Reading.Document

/-!
# Completeness of the grammar of documents

Every well-formed definition is derived from every spelling of it before whatever starts another
one, except that a block must not follow a definition that it could continue
(`derives_of_fits`).  So every well-formed document is derived from its unambiguous spellings
(`derivesDocument_of_fits`).
-/

namespace GraphQL

open Rule.Covers Rule.Spells
open Language (append_mem_mul)

section

variable {b : Nat} (hc : ∀ n : Nest, Rule.Covers b n.form (.nest n))

include hc

/-! ### Definitions -/

theorem derives_schemaDefinition {dirs : List Directive} {roots : List RootOperationType}
    {next : Set TokenKind} {w : List Lexeme}
    (hs : w ∈ Spellings.keyword .schema * Spellings.each Directive.spelling dirs *
      Spellings.braced RootOperationType.spelling roots)
    (hdirs : ∀ d ∈ dirs, d.WellFormed) (hroots : ∀ r ∈ roots, ValidName r.type.name)
    (hd : deepest Directive.depth dirs ≤ b) (hn : next ⊆ {k | definition.starts k = true}) :
    describedDefinition.DerivesIn b next (fun description? start => .schema ⟨description?,
      dirs.map (Directive.relocate toZero), roots.map (RootOperationType.relocate toZero), start⟩)
      (w.map Lexeme.bare) := by
  obtain ⟨_, ⟨u, hu, v, hv, rfl⟩, w, hw, rfl⟩ := hs
  have hroots : rootOperationTypes.Spells b _ w := covers_rootOperationType.enclosed
    ⟨hw, hroots, deepest_le.2 fun _ _ => Nat.zero_le b⟩
  have h := seq (map (fun dirs roots description? start =>
    Definition.schema ⟨description?, dirs, roots, start⟩)
    ((keyword hu).seqRight (covers_directives hc ⟨hv, hdirs, hd⟩))) hroots
  obtain rfl := hu
  exact yes rfl (anywhere h hn (by decide))

theorem derives_directiveDefinition {x : String} {args : List InputValueDefinition}
    {repeatable : Bool} {ls : List DirectiveLocation} {next : Set TokenKind} {w : List Lexeme}
    (hs : w ∈ Spellings.keyword .directive * Spellings.punct .atSign * Spellings.named x *
      Spellings.parenthesized InputValueDefinition.spelling args *
      (if repeatable then Spellings.keyword .repeatable else 1) * Spellings.keyword .on *
      Spellings.alternatives DirectiveLocation.spelling ls)
    (hx : ValidName x) (hargs : ∀ v ∈ args, v.WellFormed) (hls : ∀ l ∈ ls, l.WellFormed)
    (hd : deepest InputValueDefinition.depth args ≤ b)
    (hn : next ⊆ {k | definition.starts k = true}) :
    describedDefinition.DerivesIn b next (fun description? start => .directive ⟨description?, x,
      args.map (InputValueDefinition.relocate toZero), repeatable,
      ls.map (DirectiveLocation.relocate toZero), start⟩) (w.map Lexeme.bare) := by
  obtain ⟨_, ⟨_, ⟨_, ⟨_, ⟨_, ⟨k, hk, a, ha, rfl⟩, u, hu, rfl⟩, v, hv, rfl⟩, r, hr, rfl⟩, o, ho,
    rfl⟩, w, hw, rfl⟩ := hs
  have hrepeatable : Rule.Covers b (Form.flag (Spellings.keyword .repeatable))
      (Rule.present (.keyword .repeatable)) := flag
  have hdir := seq (seq (seq (map (fun name args repeatable places description? start =>
      DirectiveDefinition.mk description? name args repeatable places start)
    ((punct ha).seqRight (name ⟨hu, hx, Nat.zero_le _⟩)))
    ((covers_inputValueDefinition hc).parenthesized ⟨hv, hargs, hd⟩))
    (Rule.Spells.seqLeft (hrepeatable ⟨hr, trivial, Nat.zero_le _⟩) (keyword ho)))
    (covers_alternatives covers_directiveLocation
      ⟨hw, hls, deepest_le.2 fun _ _ => Nat.zero_le b⟩)
  have h := map (fun build description? start => Definition.directive (build description? start))
    ((keyword hk).seqRight hdir)
  have h := anywhere h hn (by decide)
  simp only [List.append_assoc] at h ⊢
  obtain rfl := hk
  exact no (nomatch ·) (yes rfl h) (nomatch ·)

omit hc in
/-- A declaration of a type starts with a keyword, which is neither of two others. -/
theorem exists_keyword_of_mem_spelling {t : TypeDeclaration} {w : List Lexeme}
    (h : w ∈ t.spelling) : ∃ k v, w = .keyword k :: v ∧ k ≠ .schema ∧ k ≠ .directive ∧
      definitionKinds.contains (.keyword k) = true := by
  obtain ⟨x, dirs, body⟩ := t
  cases body with
  | scalar =>
    obtain ⟨_, ⟨_, rfl, _, _, rfl⟩, _, _, rfl⟩ := h
    exact ⟨_, _, rfl, by decide, by decide, by decide⟩
  | object ts fs? | interface ts fs? =>
    obtain ⟨_, ⟨_, ⟨_, ⟨_, rfl, _, _, rfl⟩, _, _, rfl⟩, _, _, rfl⟩, _, _, rfl⟩ := h
    exact ⟨_, _, rfl, by decide, by decide, by decide⟩
  | union ts =>
    obtain ⟨_, ⟨_, ⟨_, rfl, _, _, rfl⟩, _, _, rfl⟩, _, _, rfl⟩ := h
    exact ⟨_, _, rfl, by decide, by decide, by decide⟩
  | enum vs? | inputObject vs? =>
    obtain ⟨_, ⟨_, ⟨_, rfl, _, _, rfl⟩, _, _, rfl⟩, _, _, rfl⟩ := h
    exact ⟨_, _, rfl, by decide, by decide, by decide⟩

theorem derives_describedType {t : TypeDeclaration} {next : Set TokenKind} {w : List Lexeme}
    (h : TypeDeclaration.form.Fits b t w) (hn : next ⊆ {k | definition.starts k = true})
    (hl : t.body.lacksBlock = true → next = ∅) :
    describedDefinition.DerivesIn b next
      (fun description? start => .type ⟨description?, t.relocate toZero, start⟩)
      (w.map Lexeme.bare) := by
  have ht := map (r := typeDefinition) (fun declaration description? start =>
    Definition.type ⟨description?, declaration, start⟩)
    (typeDefinition_eq ▸ derives_typeDeclaration hc definitionKinds h hn hl)
  obtain ⟨k, v, rfl, hschema, hdirective, -⟩ := exists_keyword_of_mem_spelling h.spelled
  have hne : ∀ j, k ≠ j → ¬ headIs (· == .keyword j) (.keyword k :: v) := fun j hj h =>
    hj (TokenKind.keyword.inj (eq_of_beq h))
  exact no (hne _ hschema) (no (hne _ hdirective) ht (nomatch ·)) (nomatch ·)

omit hc in
/-- A definition in the type system: a description, and what can follow one. -/
theorem derives_typeSystemDefinition {description? : Option String}
    {build : Option String → Nat → Definition} {next : Set TokenKind} {u v : List Lexeme}
    (hu : u ∈ descriptionSpelling description?) (hv : headIs definitionKinds.contains v)
    (h : describedDefinition.DerivesIn b next build (v.map Lexeme.bare)) :
    definition.DerivesIn b next (build description? 0) ((u ++ v).map Lexeme.bare) := by
  have hnil : v = [] → next = ∅ := by
    rintro rfl
    cases hv
  have hnil' : u ++ v = [] → next = ∅ := fun h => hnil (List.append_eq_nil_iff.1 h).2
  have hd := located (before (map (fun description? build => build description?)
    (covers_description ⟨hu, trivial, Nat.zero_le _⟩)) h hnil)
  -- A description starts no operation and no fragment, so the first three tests fail.
  have hhead : headIs startsTypeSystem (u ++ v) := by
    rcases description? with _ | x
    · obtain rfl : u = [] := hu
      rcases v with _ | ⟨l, v⟩
      · cases hv
      · exact Bool.or_eq_true_iff.2 (.inr hv)
    · obtain ⟨text, rfl⟩ := hu
      rfl
  exact no (not_headIs_of_headIs hhead (by decide))
    (no (not_headIs_of_headIs hhead (by decide))
      (no (not_headIs_of_headIs hhead (by decide)) (yes hhead hd) hnil') hnil') hnil'

omit hc in
theorem derives_typeSystemExtension {g : Nat → Definition} {next : Set TokenKind}
    {u v : List Lexeme} (hu : u ∈ Spellings.keyword .extend) (hv : v ≠ [])
    (h : (Rule.branch (· == .keyword .schema)
      ((fun dirs roots? start => .schemaExtension ⟨dirs, roots?.getD [], start⟩) <$>
        (Rule.keyword .schema *> Rule.directives) <*>
        Rule.enclosed? .braceOpen .braceClose rootOperationType)
      ((fun declaration start => .typeExtension ⟨declaration, start⟩) <$>
        typeExtension)).DerivesIn b next g (v.map Lexeme.bare)) :
    definition.DerivesIn b next (g 0) ((u ++ v).map Lexeme.bare) := by
  have h := located (before (map (fun _ y => y) (keyword hu)) h fun h => absurd h hv)
  obtain rfl := hu
  exact no (nomatch ·) (no (nomatch ·) (yes rfl h) (nomatch ·)) (nomatch ·)

theorem derives_schemaExtension {e : SchemaExtension} {next : Set TokenKind} {w : List Lexeme}
    (hs : w ∈ e.spelling) (hdirs : ∀ d ∈ e.directives, d.WellFormed)
    (hroots : ∀ r ∈ e.roots, ValidName r.type.name)
    (hd : deepest Directive.depth e.directives ≤ b)
    (hn : w ∈ (Definition.schemaExtension e).bareSpelling → next = ∅) :
    definition.DerivesIn b next ((Definition.schemaExtension e).relocate toZero)
      (w.map Lexeme.bare) := by
  obtain ⟨_, ⟨_, ⟨x, hx, k, hk, rfl⟩, v, hv, rfl⟩, y, hy, rfl⟩ := hs
  -- The tree does not tell an empty block from none; the spelling does.
  have hblock : ∃ roots?, roots?.getD [] = e.roots ∧ (roots? = none → next = ∅) ∧
      y ∈ Spellings.part (Spellings.braced RootOperationType.spelling) roots? := by
    rcases hy with hy | hy
    · split at hy
      · rename_i hroots
        refine ⟨none, hroots.symm, fun _ => hn ?_, hy⟩
        obtain rfl : y = [] := hy
        rw [Definition.bareSpelling, if_pos hroots]
        beta_reduce
        rw [List.append_nil]
        exact append_mem_mul (append_mem_mul hx hk) hv
      · exact hy.elim
    · exact ⟨some e.roots, rfl, (nomatch ·), hy⟩
  obtain ⟨roots?, hroots', hnone, hy⟩ := hblock
  have hb := derives_block (b := b) covers_rootOperationType hy (fun roots h => ?_)
    (depthOf_le.2 fun _ _ => deepest_le.2 fun _ _ => Nat.zero_le _) hnone
  · have h := before (map (fun dirs roots? start =>
      Definition.schemaExtension ⟨dirs, roots?.getD [], start⟩)
      ((keyword hk).seqRight (covers_directives hc ⟨hv, hdirs, hd⟩))) hb
      fun h => hnone (eq_none_of_block hy h)
    obtain rfl := hk
    have hne : [Lexeme.keyword .schema] ++ v ++ y ≠ [] := List.cons_ne_nil _ _
    have h := derives_typeSystemExtension hx hne (yes rfl h)
    beta_reduce
    rw [List.append_assoc x, List.append_assoc x]
    have hmap : (Option.map (List.map RootOperationType.form.origin) roots?).getD [] =
        e.roots.map (RootOperationType.relocate toZero) := by
      rw [← hroots']
      cases roots? <;> rfl
    rw [Definition.relocate, ← hmap]
    exact h
  · obtain rfl : roots? = some roots := h
    obtain rfl : roots = e.roots := hroots'
    exact hroots

theorem derives_typeExtension {e : TypeExtension} {next : Set TokenKind} {w : List Lexeme}
    (h : w ∈ e.spelling) (hwf : e.declaration.WellFormed) (hd : e.declaration.depth ≤ b)
    (hn : next ⊆ {k | definition.starts k = true})
    (hl : e.declaration.body.lacksBlock = true → next = ∅) :
    definition.DerivesIn b next ((Definition.typeExtension e).relocate toZero)
      (w.map Lexeme.bare) := by
  obtain ⟨x, hx, w, hw, rfl⟩ := h
  have h := map (r := typeExtension)
    (fun declaration start => Definition.typeExtension ⟨declaration, start⟩)
    (typeExtension_eq ▸ derives_typeDeclaration hc extensionKinds ⟨hw, hwf, hd⟩ hn hl)
  obtain ⟨k, v, rfl, hschema, -⟩ := exists_keyword_of_mem_spelling hw
  have hne : ¬ headIs (· == .keyword .schema) (.keyword k :: v) := fun h =>
    hschema (TokenKind.keyword.inj (eq_of_beq h))
  exact derives_typeSystemExtension hx (List.cons_ne_nil _ _) (no hne h (nomatch ·))

omit hc in
/-- An operation starts with its keyword, or with a brace. -/
theorem headIs_startsOperation {o : Operation} {w : List Lexeme} (h : w ∈ o.spelling) :
    headIs startsOperation w := by
  obtain ⟨-, -, hw⟩ | ⟨-, hw⟩ := Operation.mem_spelling.1 h
  · exact headIs_mono (fun k hk => Bool.or_eq_true_iff.2 (.inl hk)) (headIs_braceOpen hw)
  · exact headIs_mono (fun k hk => Bool.or_eq_true_iff.2 (.inr hk)) (headIs_isOperationKeyword hw)

theorem derives_definition_of_bare {d : Definition} {next : Set TokenKind} {w : List Lexeme}
    (h : Definition.form.Fits b d w) (hn : next ⊆ {k | definition.starts k = true})
    (hbare : w ∈ d.bareSpelling → next = ∅) :
    definition.DerivesIn b next (d.relocate toZero) (w.map Lexeme.bare) := by
  obtain ⟨hs, hwf, hd⟩ := h
  cases d with
  | operation o =>
    have h := anywhere (map Definition.operation (covers_operation hc ⟨hs, hwf, hd⟩)) hn
      (by decide)
    have hhead := headIs_startsOperation hs
    have hnil : w = [] → next = ∅ := by
      rintro rfl
      cases hhead
    exact no (not_headIs_of_headIs hhead (by decide)) (yes hhead h) hnil
  | fragment f =>
    have h := anywhere (map Definition.fragment (covers_fragment hc ⟨hs, hwf, hd⟩)) hn
      (by decide)
    obtain ⟨_, ⟨_, ⟨_, ⟨_, rfl, _, _, rfl⟩, _, _, rfl⟩, _, _, rfl⟩, _, _, rfl⟩ := hs
    exact yes rfl h
  | schema s =>
    obtain ⟨_, ⟨_, ⟨u, hu, k, hk, rfl⟩, v, hv, rfl⟩, w, hw, rfl⟩ := hs
    have h := derives_schemaDefinition hc (append_mem_mul (append_mem_mul hk hv) hw) hwf.1 hwf.2 hd
      hn
    have hhead : headIs definitionKinds.contains (k ++ v ++ w) := by
      obtain rfl := hk
      rfl
    beta_reduce
    rw [List.append_assoc u, List.append_assoc u]
    exact derives_typeSystemDefinition hu hhead h
  | schemaExtension e => exact derives_schemaExtension hc hs hwf.1 hwf.2 hd hbare
  | directive d =>
    obtain ⟨_, ⟨_, ⟨_, ⟨_, ⟨_, ⟨_, ⟨u, hu, k, hk, rfl⟩, a, ha, rfl⟩, x, hx, rfl⟩, v, hv, rfl⟩,
      r, hr, rfl⟩, o, ho, rfl⟩, w, hw, rfl⟩ := hs
    have h := derives_directiveDefinition hc (append_mem_mul (append_mem_mul (append_mem_mul
      (append_mem_mul (append_mem_mul (append_mem_mul hk ha) hx) hv) hr) ho) hw) hwf.1 hwf.2.1
      hwf.2.2.2 hd hn
    have hhead : headIs definitionKinds.contains (k ++ a ++ x ++ v ++ r ++ o ++ w) := by
      obtain rfl := hk
      rfl
    have h := derives_typeSystemDefinition hu hhead h
    simp only [List.append_assoc] at h ⊢
    exact h
  | type t =>
    have hl : t.declaration.body.lacksBlock = true → next = ∅ := fun hl => hbare <| by
      rw [Definition.bareSpelling, if_pos hl]
      exact hs
    obtain ⟨u, hu, w, hw, rfl⟩ := hs
    have hhead : headIs definitionKinds.contains w := by
      obtain ⟨k, v, rfl, -, -, hk⟩ := exists_keyword_of_mem_spelling hw
      exact hk
    exact derives_typeSystemDefinition hu hhead (derives_describedType hc ⟨hw, hwf, hd⟩ hn hl)
  | typeExtension e =>
    refine derives_typeExtension hc hs hwf hd hn fun hl => hbare ?_
    rw [Definition.bareSpelling, if_pos hl]
    exact hs

/-- A definition, before what starts another; if a block in braces could continue it, not before a
brace. -/
theorem derives_of_fits {d : Definition} {next : Set TokenKind} {w : List Lexeme}
    (h : Definition.form.Fits b d w) (hn : next ⊆ {k | definition.starts k = true})
    (hbare : w ∈ d.bareSpelling → .punctuator .braceOpen ∉ next) :
    definition.DerivesIn b next (d.relocate toZero) (w.map Lexeme.bare) := by
  -- A definition without its block is derived at the end first, then before all that stops it.
  by_cases hw : w ∈ d.bareSpelling
  · have hd : definition.Spells b (d.relocate toZero) w :=
      derives_definition_of_bare hc h (Set.empty_subset _) fun _ => rfl
    refine Rule.derives_of_stops hd fun k hk => .inr ?_
    have hstops : (TokenKind.every fun k => !definition.starts k || k == .punctuator .braceOpen ||
        definition.stops k) = true := by decide
    have hk' := TokenKind.every_eq_true.1 hstops k
    rw [show definition.starts k = true from hn hk] at hk'
    have hne : (k == .punctuator .braceOpen) = false :=
      beq_eq_false_iff_ne.2 fun h => hbare hw (h ▸ hk)
    rwa [hne] at hk'
  · exact derives_definition_of_bare hc h hn fun h => absurd h hw

end

/-! ### Documents -/

theorem Value.depth_pos (v : Value) : 0 < v.depth := by
  cases v <;> simp [Value.depth]

theorem TypeRef.depth_pos (t : TypeRef) : 0 < t.depth := by
  induction t with
  | named t | list item start ih => simp [TypeRef.depth]
  | nonNull inner start ih => exact ih

/-- Each nesting construct counts itself. -/
theorem Nest.depth_pos {n : Nest} (a : n.Tree) : 0 < n.form.depth a := by
  cases n with
  | selectionSet => exact Nat.succ_pos _
  | value => exact Value.depth_pos a
  | typeRef => exact TypeRef.depth_pos a

/-- The nesting constructs derive whatever fits, by induction on the nesting budget. -/
theorem covers_nest (b : Nat) (n : Nest) : Rule.Covers b n.form (.nest n) := by
  induction b generalizing n with
  | zero =>
    rintro a w ⟨-, -, hd⟩
    exact absurd hd (Nat.not_le_of_lt (Nest.depth_pos a))
  | succ b ih =>
    intro a w h
    cases n with
    | selectionSet => exact spells_selectionSetBody ih h
    | value => exact spells_valueBody ih h
    | typeRef => exact spells_typeRefBody ih h

/-- Only an operation that is a bare selection set starts with a brace. -/
theorem isShorthand_of_headIs {d : Definition} {w : List Lexeme} (h : w ∈ d.spelling)
    (hw : headIs (· == .punctuator .braceOpen) w) : d.isShorthand = true := by
  have hdescription : ∀ {description? : Option String} {u v : List Lexeme} {k : Keyword},
      u ∈ descriptionSpelling description? →
        ¬ headIs (· == .punctuator .braceOpen) (u ++ .keyword k :: v) := by
    rintro (_ | x) u v k hu
    · obtain rfl : u = [] := hu
      exact (nomatch ·)
    · obtain ⟨text, rfl⟩ := hu
      exact (nomatch ·)
  cases d with
  | operation o =>
    obtain ⟨hs, -, -⟩ | ⟨-, h⟩ := Operation.mem_spelling.1 h
    · exact hs
    · exact absurd hw (not_headIs_of_headIs (headIs_isOperationKeyword h) (by decide))
  | fragment f =>
    obtain ⟨_, ⟨_, ⟨_, ⟨_, rfl, _, _, rfl⟩, _, _, rfl⟩, _, _, rfl⟩, _, _, rfl⟩ := h
    cases hw
  | schema s =>
    obtain ⟨_, ⟨_, ⟨u, hu, _, rfl, rfl⟩, _, _, rfl⟩, _, _, rfl⟩ := h
    simp only [List.append_assoc, List.singleton_append] at hw
    exact absurd hw (hdescription hu)
  | schemaExtension e =>
    obtain ⟨_, ⟨_, ⟨_, rfl, _, _, rfl⟩, _, _, rfl⟩, _, _, rfl⟩ := h
    cases hw
  | directive d =>
    obtain ⟨_, ⟨_, ⟨_, ⟨_, ⟨_, ⟨_, ⟨u, hu, _, rfl, rfl⟩, _, _, rfl⟩, _, _, rfl⟩, _, _, rfl⟩, _, _,
      rfl⟩, _, _, rfl⟩, _, _, rfl⟩ := h
    simp only [List.append_assoc, List.singleton_append] at hw
    exact absurd hw (hdescription hu)
  | type t =>
    obtain ⟨u, hu, w, hw', rfl⟩ := h
    obtain ⟨k, v, rfl, -⟩ := exists_keyword_of_mem_spelling hw'
    exact absurd hw (hdescription hu)
  | typeExtension e =>
    obtain ⟨_, rfl, _, _, rfl⟩ := h
    cases hw

/-- A document is derived from its spellings that stand for no other. -/
theorem derivesDocument_of_fits {b : Nat} {ds : List Definition} {w : List Lexeme}
    (hs : w ∈ unambiguousSpelling ds) (hwf : ∀ d ∈ ds, d.WellFormed)
    (hd : deepest Definition.depth ds ≤ b) :
    DerivesDocument b (ds.map (Definition.relocate toZero)) (w.map Lexeme.bare) := by
  induction ds generalizing w with
  | nil =>
    obtain rfl : w = [] := hs
    rfl
  | cons d ds ih =>
    obtain ⟨u, ⟨hu, hbare⟩, v, hv, rfl⟩ := hs
    obtain ⟨hwf, hwfs⟩ := List.forall_mem_cons.1 hwf
    obtain ⟨hd, hds⟩ := max_le_iff.1 hd
    have hrest := ih hv hwfs hds
    refine ⟨_, _, List.map_append, derives_of_fits (covers_nest b) ⟨hu, hwf, hd⟩
      (upcoming_of_derivesDocument hrest) (fun hw hk => ?_), hrest⟩
    cases ds with
    | nil =>
      obtain rfl : v = [] := hv
      simp at hk
    | cons e es =>
      obtain ⟨v, ⟨hv, -⟩, z, -, rfl⟩ := hv
      have he : definition.Spells b (e.relocate toZero) v :=
        derives_definition_of_bare (covers_nest b) ⟨hv, hwfs e List.mem_cons_self,
          (le_max_left ..).trans hds⟩ (Set.empty_subset _) fun _ => rfl
      -- The next definition starts with the brace, so it is a shorthand operation.
      have hne : v ≠ [] := fun h => he.ne_nil nullable_definition (by rw [h]; rfl)
      obtain ⟨l, v, rfl⟩ := List.exists_cons_of_ne_nil hne
      have hl : headIs (· == .punctuator .braceOpen) (l :: v) := by
        simp only [List.cons_append, List.map_cons, upcoming_cons, Set.mem_singleton_iff] at hk
        exact beq_iff_eq.2 hk.symm
      have hshort := hbare hw e rfl
      rw [isShorthand_of_headIs hv hl] at hshort
      cases hshort

end GraphQL

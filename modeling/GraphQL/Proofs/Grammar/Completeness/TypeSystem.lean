import GraphQL.Proofs.Grammar.Completeness.Executable
import GraphQL.Proofs.Reading.TypeDeclaration

/-!
# Completeness of the grammar of the type system

The rules for what stands within the definitions of the type system cover the forms of their
trees.  A declaration of a type may go on with a block in braces.  If it has none, it is derived
before nothing only; if it has one, before whatever starts a definition
(`derives_typeDeclaration`).
-/

namespace GraphQL

open Rule.Covers Rule.Spells

section

variable {b : Nat} (hc : ∀ n : Nest, Rule.Covers b n.form (.nest n))

include hc

/-! ### The type system -/

omit hc in
theorem covers_description : Rule.Covers b descriptionForm description := by
  rintro (_ | x) w ⟨hs, -, -⟩
  · obtain rfl : w = [] := hs
    exact no (nomatch ·) ⟨rfl, rfl⟩ fun _ => rfl
  · obtain ⟨text, rfl⟩ := hs
    exact yes rfl (map some (map Token.value (one (.string text x))))

theorem covers_inputValueDefinition :
    Rule.Covers b InputValueDefinition.form inputValueDefinition := by
  rintro i _ ⟨⟨_, ⟨_, ⟨_, ⟨_, ⟨u, hu, x, hx, rfl⟩, c, hc', rfl⟩, v, hv, rfl⟩, w, hw, rfl⟩, y, hy,
    rfl⟩, ⟨hname, ht, hdef, hdirs⟩, hd⟩
  obtain ⟨hd, hd'⟩ := max_le_iff.1 hd
  obtain ⟨hd', hd''⟩ := max_le_iff.1 hd'
  beta_reduce
  rw [List.append_assoc u]
  exact located (seq (seq (seq (seq (map InputValueDefinition.mk
    (covers_description ⟨hu, trivial, Nat.zero_le _⟩))
    (Rule.Spells.seqLeft (name ⟨hx, hname, Nat.zero_le _⟩) (punct hc')))
    (hc .typeRef ⟨hv, ht, hd⟩)) (covers_defaultValue hc ⟨hw, hdef, hd'⟩))
    (covers_directives hc ⟨hy, hdirs, hd''⟩))

theorem covers_fieldDefinition : Rule.Covers b FieldDefinition.form fieldDefinition := by
  rintro f _ ⟨⟨_, ⟨_, ⟨_, ⟨_, ⟨u, hu, x, hx, rfl⟩, v, hv, rfl⟩, c, hc', rfl⟩, w, hw, rfl⟩, y, hy,
    rfl⟩, ⟨hname, hargs, ht, hdirs⟩, hd⟩
  obtain ⟨hd, hd'⟩ := max_le_iff.1 hd
  obtain ⟨hd', hd''⟩ := max_le_iff.1 hd'
  beta_reduce
  rw [List.append_assoc (u ++ x ++ v)]
  exact located (seq (seq (seq (seq (map FieldDefinition.mk
    (covers_description ⟨hu, trivial, Nat.zero_le _⟩)) (name ⟨hx, hname, Nat.zero_le _⟩))
    ((covers_inputValueDefinition hc).parenthesized ⟨hv, hargs, hd⟩))
    ((punct hc').seqRight (hc .typeRef ⟨hw, ht, hd'⟩))) (covers_directives hc ⟨hy, hdirs, hd''⟩))

omit hc in
theorem covers_enumValue : Rule.Covers b EnumValue.form enumValue := by
  rintro e w ⟨hs, ⟨hx, hne⟩, hd⟩
  have hname : (Rule.nameExcept [.boolTrue, .boolFalse, .null]).Spells b e.value w := by
    refine nameExcept ⟨hs, ⟨hx, ?_⟩, Nat.zero_le _⟩
    simp only [List.mem_cons, List.not_mem_nil, or_false, forall_eq_or_imp, forall_eq]
    exact hne
  exact located (map EnumValue.mk hname)

theorem covers_enumValueDefinition :
    Rule.Covers b EnumValueDefinition.form enumValueDefinition := by
  rintro v _ ⟨⟨_, ⟨u, hu, x, hx, rfl⟩, w, hw, rfl⟩, ⟨hv, hdirs⟩, hd⟩
  exact located (seq (seq (map EnumValueDefinition.mk
    (covers_description ⟨hu, trivial, Nat.zero_le _⟩)) (covers_enumValue ⟨hx, hv, Nat.zero_le _⟩))
    (covers_directives hc ⟨hw, hdirs, hd⟩))

omit hc in
theorem covers_furtherInterface :
    Rule.Covers b { NamedType.form with spelling := furtherInterface }
      (Rule.present (.punctuator .ampersand) *> Rule.namedType) := by
  have hamp : Rule.Covers b (Form.flag (Spellings.punct .ampersand))
      (Rule.present (.punctuator .ampersand)) := flag
  rintro t _ ⟨⟨u, hu, w, hw, rfl⟩, ht, hd⟩
  have ht := covers_namedType (b := b) ⟨hw, ht, hd⟩
  rcases hu with hu | hu
  · exact (hamp (a := true) ⟨hu, trivial, Nat.zero_le _⟩).seqRight ht
  · split at hu
    · exact (hamp (a := false) ⟨hu, trivial, Nat.zero_le _⟩).seqRight ht
    · exact hu.elim

omit hc in
theorem headIs_furtherInterface {t : NamedType} {w : List Lexeme} (h : w ∈ furtherInterface t) :
    headIs continuesInterfaces w := by
  obtain ⟨u, hu | hu, _, rfl, rfl⟩ := h
  · obtain rfl := hu
    rfl
  · split at hu
    · rename_i hk
      obtain rfl : u = [] := hu
      change continuesInterfaces (Lexeme.ofName t.name).kind = true
      rw [Lexeme.ofName, hk]
      rfl
    · exact hu.elim

omit hc in
/-- Something that no tree says. -/
theorem exists_spells_present {k : Lexeme} {w : List Lexeme}
    (h : w ∈ Spellings.optional {[k]}) : ∃ p, (Rule.present k.kind).Spells b p w := by
  rcases h with h | h
  · exact ⟨false, flag (k := k) (a := false) ⟨h, trivial, Nat.zero_le _⟩⟩
  · exact ⟨true, flag (k := k) (a := true) ⟨h, trivial, Nat.zero_le _⟩⟩

omit hc in
theorem covers_interfaces : Rule.Covers b interfacesForm interfaces := by
  rintro (_ | ⟨t, ts⟩) w ⟨hs, ht, -⟩
  · obtain rfl : w = [] := hs
    have hnone : (Rule.optional (· == .keyword .implements)
        (Rule.keyword .implements *> Rule.present (.punctuator .ampersand) *>
          (List.cons <$> Rule.namedType <*> .whileAt continuesInterfaces
            (Rule.present (.punctuator .ampersand) *> Rule.namedType)))).Spells b none [] :=
      no (nomatch ·) ⟨rfl, rfl⟩ fun _ => rfl
    exact map (Option.getD · []) hnone
  · obtain ⟨_, ⟨_, ⟨k, hk, u, hu, rfl⟩, v, hv, rfl⟩, w, hw, rfl⟩ := hs
    obtain ⟨p, hp⟩ := exists_spells_present hu
    obtain ⟨ht, hts⟩ := List.forall_mem_cons.1 ht
    have hfurther := covers_furtherInterface.each (fun _ _ => headIs_furtherInterface)
      ⟨hw, hts, deepest_le.2 fun _ _ => Nat.zero_le b⟩
    have hlist := seq (map List.cons (covers_namedType ⟨hv, ht, Nat.zero_le _⟩)) hfurther
    beta_reduce
    rw [List.append_assoc]
    refine map (Option.getD · []) (yes ?_ (map some (((keyword hk).seqRight hp).seqRight hlist)))
    obtain rfl := hk
    rfl

omit hc in
theorem covers_alternatives {α : Type} {F : Form α} {item : Rule α} (h : Rule.Covers b F item) :
    Rule.Covers b F.alternatives (alternatives item) := by
  rintro (_ | ⟨a, as⟩) _ ⟨hs, hp, hd⟩
  · exact hs.elim
  · obtain ⟨_, ⟨u, hu, v, hv, rfl⟩, w, hw, rfl⟩ := hs
    obtain ⟨p, hp'⟩ := exists_spells_present hu
    obtain ⟨hp, hps⟩ := List.forall_mem_cons.1 hp
    obtain ⟨hd, hd'⟩ := max_le_iff.1 hd
    have hnext : Rule.Covers b { F with spelling := fun a => Spellings.punct .pipe * F.spelling a }
        (Rule.punct .pipe *> item) := by
      rintro a _ ⟨⟨c, hc, y, hy, rfl⟩, ha, hda⟩
      exact (punct hc).seqRight (h ⟨hy, ha, hda⟩)
    have hmore : (Rule.whileAt (· == .punctuator .pipe) _).Spells b _ w := hnext.each (by
      rintro a _ ⟨_, rfl, _, _, rfl⟩
      rfl) ⟨hw, hps, hd'⟩
    beta_reduce
    rw [List.append_assoc]
    have hlist := seq (map List.cons (h ⟨hv, hp, hd⟩)) hmore
    exact hp'.seqRight hlist

omit hc in
theorem covers_unionMembers : Rule.Covers b membersForm unionMembers := by
  rintro (_ | ⟨t, ts⟩) w ⟨hs, ht, hd⟩
  · obtain rfl : w = [] := hs
    have hnone : (Rule.optional (· == .punctuator .equals)
        (Rule.punct .equals *> alternatives Rule.namedType)).Spells b none [] :=
      no (nomatch ·) ⟨rfl, rfl⟩ fun _ => rfl
    exact map (Option.getD · []) hnone
  · obtain ⟨u, hu, w, hw, rfl⟩ := hs
    refine map (Option.getD · []) (yes ?_ (map some ((punct hu).seqRight
      (covers_alternatives covers_namedType ⟨hw, ht, hd⟩))))
    obtain rfl := hu
    rfl

omit hc in
theorem covers_rootOperationType : Rule.Covers b RootOperationType.form rootOperationType := by
  rintro r _ ⟨⟨_, ⟨u, hu, c, hc, rfl⟩, w, hw, rfl⟩, hx, -⟩
  exact located (seq (map RootOperationType.mk (Rule.Spells.seqLeft
    (covers_operationType ⟨hu, trivial, Nat.zero_le _⟩) (punct hc)))
    (covers_namedType ⟨hw, hx, Nat.zero_le _⟩))

omit hc in
theorem covers_directiveLocation :
    Rule.Covers b DirectiveLocation.form (.place DirectiveLocation.ofToken?) := by
  rintro l _ ⟨rfl, hwf, -⟩
  refine ⟨_, rfl, rfl, DirectiveLocation.ofToken?_eq_some.2 ?_⟩
  cases l <;> exact ⟨hwf, rfl, rfl⟩

/-! ### Blocks in braces -/

omit hc in
theorem eq_none_of_block {α : Type} {spelling : α → Spellings} {as? : Option (List α)}
    {w : List Lexeme} (hs : w ∈ Spellings.part (Spellings.braced spelling) as?) (hw : w = []) :
    as? = none := by
  rcases as? with _ | as
  · rfl
  · obtain ⟨_, ⟨_, rfl, _, _, rfl⟩, _, _, rfl⟩ := hs
    cases hw

omit hc in
/-- Items in braces, before anything; without braces nothing may follow. -/
theorem derives_block {α : Type} {F : Form α} {item : Rule α} (h : Rule.Covers b F item)
    {next : Set TokenKind} {as? : Option (List α)} {w : List Lexeme}
    (hs : w ∈ Spellings.part (Spellings.braced F.spelling) as?)
    (hp : ∀ as ∈ as?, ∀ a ∈ as, F.WellFormed a) (hd : depthOf (deepest F.depth) as? ≤ b)
    (hn : as? = none → next = ∅) :
    (Rule.enclosed? .braceOpen .braceClose item).DerivesIn b next (as?.map (List.map F.origin))
      (w.map Lexeme.bare) := by
  rcases as? with _ | as
  · obtain rfl : w = [] := hs
    exact no (nomatch ·) ⟨rfl, rfl⟩ fun _ => hn rfl
  · have he : (Rule.enclosed .braceOpen .braceClose item).Spells b (as.map F.origin) w :=
      h.enclosed ⟨hs, hp as rfl, hd⟩
    -- After its closing brace a block is continued by nothing.
    refine yes ?_ (map some (Rule.derives_of_stops he fun k _ => .inr rfl))
    obtain ⟨_, ⟨_, rfl, _, _, rfl⟩, _, _, rfl⟩ := hs
    rfl

/-- An object or an interface, from the keyword `k` on. -/
theorem derives_objectDeclaration {k : Keyword}
    (body : List NamedType → Option (List FieldDefinition) → TypeBody) {x : String}
    {dirs : List Directive} {ts : List NamedType} {fs? : Option (List FieldDefinition)}
    {next : Set TokenKind} {w : List Lexeme}
    (hs : w ∈ Spellings.keyword k * Spellings.named x * interfacesSpelling ts *
      Spellings.each Directive.spelling dirs *
      Spellings.part (Spellings.braced FieldDefinition.spelling) fs?)
    (hx : ValidName x) (hdirs : ∀ d ∈ dirs, d.WellFormed) (ht : ∀ t ∈ ts, ValidName t.name)
    (hf : ∀ fs ∈ fs?, ∀ f ∈ fs, f.WellFormed) (hd : deepest Directive.depth dirs ≤ b)
    (hd' : depthOf (deepest FieldDefinition.depth) fs? ≤ b) (hn : fs? = none → next = ∅) :
    (Rule.keyword k *> objectDeclaration body).DerivesIn b next
      ⟨x, dirs.map (Directive.relocate toZero), body (ts.map (NamedType.relocate toZero))
        (fs?.map (List.map (FieldDefinition.relocate toZero)))⟩ (w.map Lexeme.bare) := by
  obtain ⟨_, ⟨_, ⟨_, ⟨u, hu, _, rfl, rfl⟩, y, hy, rfl⟩, z, hz, rfl⟩, w, hw, rfl⟩ := hs
  have h := before (seq (seq (map
    (fun name interfaces dirs fields? => TypeDeclaration.mk name dirs (body interfaces fields?))
    (name ⟨rfl, hx, Nat.zero_le _⟩))
    (covers_interfaces ⟨hy, ht, deepest_le.2 fun _ _ => Nat.zero_le b⟩))
    (covers_directives hc ⟨hz, hdirs, hd⟩))
    (derives_block (covers_fieldDefinition hc) hw hf hd' hn) fun h => hn (eq_none_of_block hw h)
  have h := before (map (fun _ y => y) (keyword hu)) h (nomatch ·)
  simp only [List.append_assoc] at h ⊢
  exact h

/-- A type with a name, directives and a block in braces, from the keyword `k` on. -/
theorem derives_blockDeclaration {α : Type} {F : Form α} {item : Rule α} (h : Rule.Covers b F item)
    {k : Keyword} (body : Option (List α) → TypeBody) {x : String} {dirs : List Directive}
    {as? : Option (List α)} {next : Set TokenKind} {w : List Lexeme}
    (hs : w ∈ Spellings.keyword k * Spellings.named x * Spellings.each Directive.spelling dirs *
      Spellings.part (Spellings.braced F.spelling) as?)
    (hx : ValidName x) (hdirs : ∀ d ∈ dirs, d.WellFormed)
    (hp : ∀ as ∈ as?, ∀ a ∈ as, F.WellFormed a)
    (hd : deepest Directive.depth dirs ≤ b) (hd' : depthOf (deepest F.depth) as? ≤ b)
    (hn : as? = none → next = ∅) :
    (Rule.keyword k *> ((fun name dirs as? => (⟨name, dirs, body as?⟩ : TypeDeclaration)) <$>
      Rule.name <*> Rule.directives <*>
        Rule.enclosed? .braceOpen .braceClose item)).DerivesIn b next
      ⟨x, dirs.map (Directive.relocate toZero), body (as?.map (List.map F.origin))⟩
      (w.map Lexeme.bare) := by
  obtain ⟨_, ⟨_, ⟨u, hu, _, rfl, rfl⟩, z, hz, rfl⟩, w, hw, rfl⟩ := hs
  have h := before (seq (map (fun name dirs as? => TypeDeclaration.mk name dirs (body as?))
    (name ⟨rfl, hx, Nat.zero_le _⟩)) (covers_directives hc ⟨hz, hdirs, hd⟩))
    (derives_block h hw hp hd' hn) fun h => hn (eq_none_of_block hw h)
  have h := before (map (fun _ y => y) (keyword hu)) h (nomatch ·)
  simp only [List.append_assoc] at h ⊢
  exact h

theorem spells_scalarDeclaration {x : String} {dirs : List Directive} {w : List Lexeme}
    (hs : w ∈ Spellings.keyword .scalar * Spellings.named x *
      Spellings.each Directive.spelling dirs)
    (hx : ValidName x) (hdirs : ∀ d ∈ dirs, d.WellFormed) (hd : deepest Directive.depth dirs ≤ b) :
    (Rule.keyword .scalar *>
      ((fun name dirs => TypeDeclaration.mk name dirs .scalar) <$> Rule.name <*>
      Rule.directives)).Spells b ⟨x, dirs.map (Directive.relocate toZero), .scalar⟩ w := by
  obtain ⟨_, ⟨u, hu, v, hv, rfl⟩, w, hw, rfl⟩ := hs
  have h := seq (map (fun name dirs => TypeDeclaration.mk name dirs .scalar)
    (name ⟨hv, hx, Nat.zero_le _⟩)) (covers_directives hc ⟨hw, hdirs, hd⟩)
  beta_reduce
  rw [List.append_assoc]
  exact (keyword hu).seqRight h

theorem spells_unionDeclaration {x : String} {dirs : List Directive} {ts : List NamedType}
    {w : List Lexeme}
    (hs : w ∈ Spellings.keyword .union * Spellings.named x *
      Spellings.each Directive.spelling dirs * membersSpelling ts)
    (hx : ValidName x) (hdirs : ∀ d ∈ dirs, d.WellFormed) (ht : ∀ t ∈ ts, ValidName t.name)
    (hd : deepest Directive.depth dirs ≤ b) :
    (Rule.keyword .union *> ((fun name dirs ts => TypeDeclaration.mk name dirs (.union ts)) <$>
      Rule.name <*> Rule.directives <*> unionMembers)).Spells b
      ⟨x, dirs.map (Directive.relocate toZero), .union (ts.map (NamedType.relocate toZero))⟩ w := by
  obtain ⟨_, ⟨_, ⟨u, hu, v, hv, rfl⟩, y, hy, rfl⟩, w, hw, rfl⟩ := hs
  have h := seq (seq (map (fun name dirs ts => TypeDeclaration.mk name dirs (.union ts))
    (name ⟨hv, hx, Nat.zero_le _⟩)) (covers_directives hc ⟨hy, hdirs, hd⟩))
    (covers_unionMembers ⟨hw, ht, deepest_le.2 fun _ _ => Nat.zero_le b⟩)
  have h := (keyword hu).seqRight h
  simp only [List.append_assoc] at h ⊢
  exact h

omit hc in
/-- A rule that nothing that starts a definition continues. -/
theorem anywhere {α : Type} {r : Rule α} {a : α} {w : List Lexeme} (h : r.Spells b a w)
    {next : Set TokenKind} (hn : next ⊆ {k | definition.starts k = true})
    (hr : (TokenKind.every fun k => !definition.starts k || r.stops k) = true) :
    r.DerivesIn b next a (w.map Lexeme.bare) := by
  refine Rule.derives_of_stops h fun k hk => .inr ?_
  simpa [show definition.starts k = true from hn hk] using TokenKind.every_eq_true.1 hr k

omit hc in
theorem exists_keyword_cons {α : Type} {k : Keyword} {r : Rule α} {a : α} {next : Set TokenKind}
    {w : List Lexeme} (h : (Rule.keyword k *> r).DerivesIn b next a (w.map Lexeme.bare)) :
    ∃ v, w = .keyword k :: v := by
  obtain ⟨_, _, _, _, huv, ⟨_, ⟨rfl, ht⟩, -⟩, -⟩ := h
  obtain ⟨l, w, rfl, hl, -⟩ := List.map_eq_cons_iff.1 huv
  subst hl
  have hk : l.kind = .keyword k := eq_of_beq ht
  cases l <;> cases hk
  exact ⟨w, rfl⟩

theorem derives_typeDeclaration (expected : List TokenKind) {t : TypeDeclaration}
    {next : Set TokenKind} {w : List Lexeme} (h : TypeDeclaration.form.Fits b t w)
    (hn : next ⊆ {k | definition.starts k = true}) (hl : t.body.lacksBlock = true → next = ∅) :
    (typeDeclaration expected).DerivesIn b next (t.relocate toZero) (w.map Lexeme.bare) := by
  obtain ⟨hs, ⟨hx, hdirs, hbody⟩, hd⟩ := h
  obtain ⟨hd, hd'⟩ := max_le_iff.1 hd
  obtain ⟨x, dirs, body⟩ := t
  cases body with
  | scalar =>
    have h := anywhere (spells_scalarDeclaration hc hs hx hdirs hd) hn (by decide)
    obtain ⟨v, rfl⟩ := exists_keyword_cons h
    exact yes rfl h
  | object ts fs? =>
    have h := derives_objectDeclaration hc .object hs hx hdirs hbody.1 hbody.2 hd hd' fun h =>
      hl (by rw [h]; rfl)
    obtain ⟨v, rfl⟩ := exists_keyword_cons h
    exact no (nomatch ·) (yes rfl h) (nomatch ·)
  | interface ts fs? =>
    have h := derives_objectDeclaration hc .interface hs hx hdirs hbody.1 hbody.2 hd hd' fun h =>
      hl (by rw [h]; rfl)
    obtain ⟨v, rfl⟩ := exists_keyword_cons h
    exact no (nomatch ·) (no (nomatch ·) (yes rfl h) (nomatch ·)) (nomatch ·)
  | union ts =>
    have h := anywhere (spells_unionDeclaration hc hs hx hdirs hbody hd) hn (by decide)
    obtain ⟨v, rfl⟩ := exists_keyword_cons h
    exact no (nomatch ·) (no (nomatch ·) (no (nomatch ·) (yes rfl h) (nomatch ·)) (nomatch ·))
      (nomatch ·)
  | enum vs? =>
    have h :=
      derives_blockDeclaration hc (covers_enumValueDefinition hc) .enum hs hx hdirs hbody hd hd'
      fun h => hl (by rw [h]; rfl)
    obtain ⟨v, rfl⟩ := exists_keyword_cons h
    exact no (nomatch ·) (no (nomatch ·) (no (nomatch ·) (no (nomatch ·) (yes rfl h) (nomatch ·))
      (nomatch ·)) (nomatch ·)) (nomatch ·)
  | inputObject fs? =>
    have h := derives_blockDeclaration hc (covers_inputValueDefinition hc) .inputObject hs hx hdirs
      hbody hd hd'
      fun h => hl (by rw [h]; rfl)
    obtain ⟨v, rfl⟩ := exists_keyword_cons h
    exact no (nomatch ·) (no (nomatch ·) (no (nomatch ·) (no (nomatch ·) (no (nomatch ·)
      (yes rfl h) (nomatch ·)) (nomatch ·)) (nomatch ·)) (nomatch ·)) (nomatch ·)

end

end GraphQL

import GraphQL.Proofs.Reading.Document
import GraphQL.Proofs.Reading.TypeDeclaration
import GraphQL.Proofs.Tree.Relocation

/-!
# Reading moved tokens

Reading looks at the offsets of tokens only to store them.  So from tokens that are moved it
yields the same trees, moved in the same way, and fails in the same way at the same token
(`readDocument_of_moved`).

The proof follows the grammar.  A reader *moves* along a relation (`Reader.Moves`) if its outcomes
for some tokens and for the moved ones are related by it.  For trees the relation is the function
that moves them; the parts of a rule that yield functions move along relations between functions.
-/

namespace GraphQL

variable {α β : Type}

/-- The failure at a moved token. -/
def Failure.relocate (f : Nat → Nat) (e : Failure) : Failure :=
  ⟨e.obstacle, e.rest.map (Token.relocate f)⟩

/-- Moved tokens yield moved outcomes, with trees related by `R`. -/
structure Reader.Moves (f : Move) (R : α → α → Prop) (r : Reader α) : Prop where
  /-- Where a tree is read, the moved tokens yield a related one. -/
  ok : ∀ {ts us a rest}, Moved f ts us → r ts = .ok (a, rest) →
    ∃ a' rest', R a a' ∧ Moved f rest rest' ∧ r us = .ok (a', rest')
  /-- Where reading fails, it fails at the moved token. -/
  error : ∀ {ts us e}, Moved f ts us → r ts = .error e → r us = .error (e.relocate f.offset)

/-- Rules of the grammar whose reading moves along a relation. -/
abbrev Rule.Moves (f : Move) (budget : Nat) (R : α → α → Prop) (r : Rule α) : Prop :=
  Reader.Moves f R (r.readIn budget)

/-- The relation between a tree and its image. -/
def Image (g : α → α) : α → α → Prop := fun a a' => a' = g a

theorem nextIs_of_moved {f : Move} {ts us : List Token} (h : Moved f ts us)
    (test : TokenKind → Bool) : Reader.nextIs test us = Reader.nextIs test ts := by
  cases h with
  | nil => rfl
  | cons ht _ => exact congrArg test ht.kind

namespace Reader.Moves

variable {f : Move} {R : α → α → Prop} {S : β → β → Prop}

theorem done {a : α} (h : R a a) : Moves f R fun ts => .ok (a, ts) where
  ok hts hr := by
    cases hr
    exact ⟨a, _, h, hts, rfl⟩
  error _ hr := nomatch hr

theorem skip {a : α} (h : R a a) : Moves f R fun ts => .ok (a, ts.drop 1) where
  ok hts hr := by
    cases hr
    exact ⟨a, _, h, List.forall₂_drop 1 hts, rfl⟩
  error _ hr := nomatch hr

theorem map {r : Reader α} {g : α → β} (hg : ∀ a a', R a a' → S (g a) (g a')) (hr : Moves f R r) :
    Moves f S (Reader.map g r) where
  ok hts h := by
    obtain ⟨a, ha, rfl⟩ := map_eq_ok.1 h
    obtain ⟨a', rest', haa, hrest, h'⟩ := hr.ok hts ha
    exact ⟨g a', rest', hg a a' haa, hrest, map_eq_ok.2 ⟨a', h', rfl⟩⟩
  error hts h := map_eq_error.2 (hr.error hts (map_eq_error.1 h))

theorem seq {g : Reader (α → β)} {r : Reader α}
    (hg : Moves f (fun g g' => ∀ a a', R a a' → S (g a) (g' a')) g) (hr : Moves f R r) :
    Moves f S (Reader.seq g r) where
  ok hts h := by
    obtain ⟨k, mid, a, hk, ha, rfl⟩ := seq_eq_ok.1 h
    obtain ⟨k', mid', hkk, hmid, hk'⟩ := hg.ok hts hk
    obtain ⟨a', rest', haa, hrest, ha'⟩ := hr.ok hmid ha
    exact ⟨k' a', rest', hkk a a' haa, hrest, seq_eq_ok.2 ⟨k', mid', a', hk', ha', rfl⟩⟩
  error hts h := by
    refine seq_eq_error.2 ?_
    rcases seq_eq_error.1 h with h | ⟨k, mid, hk, h⟩
    · exact .inl (hg.error hts h)
    · obtain ⟨k', mid', -, hmid, hk'⟩ := hg.ok hts hk
      exact .inr ⟨k', mid', hk', hr.error hmid h⟩

theorem branch {test : TokenKind → Bool} {yes no : Reader α} (hy : Moves f R yes)
    (hn : Moves f R no) : Moves f R (Reader.branch test yes no) where
  ok hts h := by
    simp only [branch_eq_iff, nextIs_of_moved hts] at h ⊢
    obtain ⟨ht, h⟩ | ⟨ht, h⟩ := h
    · obtain ⟨a', rest', haa, hrest, h'⟩ := hy.ok hts h
      exact ⟨a', rest', haa, hrest, .inl ⟨ht, h'⟩⟩
    · obtain ⟨a', rest', haa, hrest, h'⟩ := hn.ok hts h
      exact ⟨a', rest', haa, hrest, .inr ⟨ht, h'⟩⟩
  error hts h := by
    simp only [branch_eq_iff, nextIs_of_moved hts] at h ⊢
    exact h.imp (fun h => ⟨h.1, hy.error hts h.2⟩) fun h => ⟨h.1, hn.error hts h.2⟩

/-- An item before others. -/
theorem item {m : α → α} {r : Reader α} {more : Reader (List α)} (hr : Moves f (Image m) r)
    (hmore : Moves f (Image (List.map m)) more) :
    Moves f (Image (List.map m)) (Reader.seq (Reader.map List.cons r) more) :=
  seq (map (by rintro a _ rfl as _ rfl; rfl) hr) hmore

theorem whileAt {m : α → α} {r : Reader α} (h : Moves f (Image m) r) (test : TokenKind → Bool)
    (bound : Nat) : Moves f (Image (List.map m)) (Reader.whileAt test r bound) := by
  induction bound with
  | zero => exact done rfl
  | succ bound ih =>
    rw [whileAt_succ]
    exact branch (item h ih) (done rfl)

theorem upTo {m : α → α} {r : Reader α} (h : Moves f (Image m) r) (close : TokenKind)
    (bound : Nat) : Moves f (Image (List.map m)) (Reader.upTo close r bound) := by
  induction bound with
  | zero => exact done rfl
  | succ bound ih =>
    rw [upTo_succ]
    exact branch (skip rfl) (item h ih)

end Reader.Moves

namespace Rule.Moves

variable {f : Move} {b : Nat} {R : α → α → Prop} {S : β → β → Prop}

theorem done {a : α} (h : R a a) : Moves f b R (.done a) := Reader.Moves.done h

theorem token {accepts : TokenKind → Bool} {expected : List TokenKind} :
    Moves f b (Token.Moved f) (.token accepts expected) where
  ok hts hr := by
    obtain ⟨rfl, ht⟩ := Reader.token_eq_ok.1 hr
    obtain ⟨u, us, hu, hus, rfl⟩ := List.forall₂_cons_left_iff.1 hts
    exact ⟨u, us, hu, hus, Reader.token_eq_ok.2 ⟨rfl, by rwa [hu.kind]⟩⟩
  error hts hr := by
    obtain ⟨hnext, rfl⟩ := Reader.token_eq_error.1 hr
    rw [← nextIs_of_moved hts] at hnext
    exact Reader.token_eq_error.2 ⟨hnext, by rw [hts.eq_map]; rfl⟩

theorem place {known : Token → Option DirectiveLocation}
    (h : ∀ t u, t.Moved f u → known u = (known t).map (DirectiveLocation.relocate f.start)) :
    Moves f b (Image (DirectiveLocation.relocate f.start)) (.place known) where
  ok hts hr := by
    obtain ⟨t, rfl, ht, hk⟩ := Reader.place_eq_ok.1 hr
    obtain ⟨u, us, hu, hus, rfl⟩ := List.forall₂_cons_left_iff.1 hts
    exact ⟨_, us, rfl, hus, Reader.place_eq_ok.2
      ⟨u, rfl, by rwa [hu.kind], by rw [h t u hu, hk]; rfl⟩⟩
  error hts hr := by
    obtain ⟨hnext, rfl⟩ | ⟨⟨t, ht, hname, hk⟩, rfl⟩ := Reader.place_eq_error.1 hr
    · rw [← nextIs_of_moved hts] at hnext
      exact Reader.place_eq_error.2 (.inl ⟨hnext, by rw [hts.eq_map]; rfl⟩)
    · obtain ⟨ts, rfl⟩ := List.head?_eq_some_iff.1 ht
      obtain ⟨u, us, hu, -, rfl⟩ := List.forall₂_cons_left_iff.1 hts
      exact Reader.place_eq_error.2 (.inr ⟨⟨u, rfl, by rwa [hu.kind], by rw [h t u hu, hk]; rfl⟩,
        by rw [hts.eq_map]; rfl⟩)

theorem stuck {expected : List TokenKind} : Moves f b R (.stuck expected) where
  ok _ hr := nomatch hr
  error hts hr := by
    cases hr
    rw [hts.eq_map]
    rfl

theorem map {r : Rule α} {g : α → β} (hg : ∀ a a', R a a' → S (g a) (g a')) (hr : Moves f b R r) :
    Moves f b S (.map g r) := Reader.Moves.map hg hr

theorem seq {g : Rule (α → β)} {r : Rule α}
    (hg : Moves f b (fun g g' => ∀ a a', R a a' → S (g a) (g' a')) g) (hr : Moves f b R r) :
    Moves f b S (.seq g r) := Reader.Moves.seq hg hr

/-- The tokens of `r` before those of `r'`, which yield the tree. -/
theorem seqRight {r : Rule α} {r' : Rule β} (hr : Moves f b R r) (hr' : Moves f b S r') :
    Moves f b S (r *> r') :=
  seq (map (fun _ _ _ _ _ h => h) hr) hr'

/-- The tokens of `r`, which yield the tree, before those of `r'`. -/
theorem seqLeft {r : Rule α} {r' : Rule β} (hr : Moves f b R r) (hr' : Moves f b S r') :
    Moves f b R (r <* r') :=
  seq (map (fun _ _ h _ _ _ => h) hr) hr'

theorem branch {test : TokenKind → Bool} {yes no : Rule α} (hy : Moves f b R yes)
    (hn : Moves f b R no) : Moves f b R (.branch test yes no) := Reader.Moves.branch hy hn

theorem whileAt {m : α → α} {test : TokenKind → Bool} {item : Rule α}
    (h : Moves f b (Image m) item) : Moves f b (Image (List.map m)) (.whileAt test item) where
  ok {ts _ _ _} hts hr := by
    simpa [readIn, read, hts.length_eq] using
      (Reader.Moves.whileAt h test (ts.length + 1)).ok hts hr
  error {ts _ _} hts hr := by
    simpa [readIn, read, hts.length_eq] using
      (Reader.Moves.whileAt h test (ts.length + 1)).error hts hr

theorem upTo {m : α → α} {close : TokenKind} {item : Rule α}
    (h : Moves f b (Image m) item) : Moves f b (Image (List.map m)) (.upTo close item) where
  ok {ts _ _ _} hts hr := by
    simpa [readIn, read, hts.length_eq] using
      (Reader.Moves.upTo h close (ts.length + 1)).ok hts hr
  error {ts _ _} hts hr := by
    simpa [readIn, read, hts.length_eq] using
      (Reader.Moves.upTo h close (ts.length + 1)).error hts hr

theorem located {r : Rule (Nat → α)} {m : α → α} (hst : (Rule.located r).steady = true)
    (hr : Moves f b (fun g g' => ∀ s, g' (f.start s) = m (g s)) r) :
    Moves f b (Image m) (.located r) where
  ok hts h := by
    obtain ⟨g, hg, rfl⟩ := Reader.map_eq_ok.1 h
    obtain ⟨g', rest', hgg, hrest, hg'⟩ := hr.ok hts hg
    simp only [steady, Bool.and_eq_true, Bool.not_eq_true'] at hst
    have hlt := readIn_progresses b hst.1 hst.2 hg
    refine ⟨_, rest', hgg _, hrest, Reader.map_eq_ok.2 ⟨g', hg', ?_⟩⟩
    cases hts with
    | nil => simp at hlt
    | cons ht _ => exact congrArg g' ht.start
  error hts h := Reader.map_eq_error.2 (hr.error hts (Reader.map_eq_error.1 h))

theorem optional {m : α → α} {test : TokenKind → Bool} {r : Rule α}
    (hr : Moves f b (Image m) r) : Moves f b (Image (Option.map m)) (Rule.optional test r) :=
  branch (map (by rintro a _ rfl; rfl) hr) (done rfl)

theorem one {kind : TokenKind} : Moves f b (Token.Moved f) (Rule.one kind) := token

theorem present {kind : TokenKind} : Moves f b (Image id) (Rule.present kind) :=
  branch (map (fun _ _ _ => rfl) one) (done rfl)

theorem enclosed {m : α → α} {opening closing : Punctuator} {item : Rule α}
    (h : Moves f b (Image m) item) :
    Moves f b (Image (List.map m)) (Rule.enclosed opening closing item) :=
  one.seqRight h.upTo

theorem parenthesized {m : α → α} {item : Rule α} (h : Moves f b (Image m) item) :
    Moves f b (Image (List.map m)) (Rule.parenthesized item) :=
  map (by rintro (_ | as) _ rfl <;> rfl) h.enclosed.optional

theorem name : Moves f b (Image id) Rule.name :=
  map (fun _ _ h => h.text) token

theorem nameExcept {excluded : List Keyword} : Moves f b (Image id) (Rule.nameExcept excluded) :=
  map (fun _ _ h => h.text) token

end Rule.Moves

/-! ### The rules of the grammar -/

/-- A nesting construct at another place. -/
def Nest.relocate (f : Nat → Nat) : (n : Nest) → n.Tree → n.Tree
  | .selectionSet => List.map (Selection.relocate f)
  | .value => Value.relocate f
  | .typeRef => TypeRef.relocate f

theorem Value.ofToken_of_moved {f : Move} {t u : Token} (h : t.Moved f u) :
    Value.ofToken u = (Value.ofToken t).relocate f.start := by
  rw [Value.ofToken, Value.ofToken, h.lexeme, h.text, h.start]
  split <;> simp [Value.relocate, EnumValue.relocate]

theorem DirectiveLocation.ofToken?_of_moved {f : Move} {t u : Token} (h : t.Moved f u) :
    DirectiveLocation.ofToken? u =
      (DirectiveLocation.ofToken? t).map (DirectiveLocation.relocate f.start) := by
  rw [DirectiveLocation.ofToken?, DirectiveLocation.ofToken?, h.text, h.start]
  split_ifs <;> rfl

open Rule.Moves

section

variable {f : Move} {b : Nat}
  (hn : ∀ n : Nest, (readNest Nest.body b n).Moves f (Image (n.relocate f.start)))

theorem moves_variableUse : Rule.Moves f b (Image (Variable.relocate f.start)) Rule.variableUse :=
  located (by decide) (map (by rintro x _ rfl s; rfl) (one.seqRight name))

theorem moves_namedType : Rule.Moves f b (Image (NamedType.relocate f.start)) Rule.namedType :=
  located (by decide) (map (by rintro x _ rfl s; rfl) name)

include hn

theorem moves_value : Rule.Moves f b (Image (Value.relocate f.start)) Rule.value := hn .value

theorem moves_typeRef : Rule.Moves f b (Image (TypeRef.relocate f.start)) Rule.typeRef :=
  hn .typeRef

theorem moves_selectionSet :
    Rule.Moves f b (Image (List.map (Selection.relocate f.start))) Rule.selectionSet :=
  hn .selectionSet

theorem moves_namedValue : Rule.Moves f b (Image (NamedValue.relocate f.start)) Rule.namedValue :=
  located (by decide) <|
    seq (map (by rintro x _ rfl v _ rfl s; rfl) (name.seqLeft one)) (moves_value hn)

theorem moves_directives :
    Rule.Moves f b (Image (List.map (Directive.relocate f.start))) Rule.directives :=
  whileAt <| located (by decide) <|
    seq (map (by rintro x _ rfl args _ rfl s; rfl) (one.seqRight name))
      (moves_namedValue hn).parenthesized

theorem moves_defaultValue :
    Rule.Moves f b (Image (Option.map (Value.relocate f.start))) Rule.defaultValue :=
  (one.seqRight (moves_value hn)).optional

theorem moves_valueBody : Rule.Moves f b (Image (Value.relocate f.start)) valueBody :=
  branch (map (by rintro v _ rfl; rfl) moves_variableUse) <|
    branch
      (located (by decide) <|
        map (by rintro vs _ rfl s; simp [Value.relocate, Value.relocateList_eq])
          (moves_value hn).enclosed) <|
    branch
      (located (by decide) <|
        map (by rintro fs _ rfl s; simp [Value.relocate, Value.relocateFields_eq])
          (moves_namedValue hn).enclosed) <|
    map (fun _ _ h => Value.ofToken_of_moved h) token

theorem moves_nullableType : Rule.Moves f b (Image (TypeRef.relocate f.start)) nullableType :=
  branch
    (located (by decide) <|
      map (by rintro t _ rfl s; rfl) ((one.seqRight (moves_typeRef hn)).seqLeft one)) <|
    map (fun _ _ h => by simp [Image, TypeRef.relocate, NamedType.relocate, h.text, h.start]) token

theorem moves_typeRefBody : Rule.Moves f b (Image (TypeRef.relocate f.start)) typeRefBody :=
  seq (map (by
    rintro t _ rfl (_ | _) _ rfl
    · rfl
    · exact congrArg _ (TypeRef.start_relocate f.start t)) (moves_nullableType hn)) present

omit hn in
theorem moves_typeCondition :
    Rule.Moves f b (Image (TypeCondition.relocate f.start)) typeCondition :=
  located (by decide) (map (by rintro t _ rfl s; rfl) (one.seqRight moves_namedType))

omit hn in
theorem moves_fieldName : Rule.Moves f b (Image id) fieldName :=
  seq (map (by rintro x _ rfl (_ | y) _ rfl <;> rfl) name) (one.seqRight name).optional

theorem moves_field : Rule.Moves f b (Image (Field.relocate f.start)) field :=
  located (by decide) <|
    seq (seq (seq (map (by
      rintro ⟨alias?, x⟩ _ rfl args _ rfl dirs _ rfl sels? _ rfl s; rfl) moves_fieldName)
      (moves_namedValue hn).parenthesized) (moves_directives hn)) (moves_selectionSet hn).optional

theorem moves_inlineFragment :
    Rule.Moves f b (fun g g' => ∀ s, g' (f.start s) = (g s).relocate f.start) inlineFragment :=
  seq (seq (map (by
    rintro c? _ rfl dirs _ rfl sels _ rfl s
    simp [Selection.relocate_inline]) moves_typeCondition.optional)
    (moves_directives hn)) (moves_selectionSet hn)

theorem moves_fragmentSpread :
    Rule.Moves f b (fun g g' => ∀ s, g' (f.start s) = (g s).relocate f.start) fragmentSpread :=
  seq (map (by rintro t u h dirs _ rfl s; simp [Selection.relocate_spread, h.text]) token)
    (moves_directives hn)

theorem moves_selection : Rule.Moves f b (Image (Selection.relocate f.start)) selection :=
  branch
    (located (by decide) <|
      one.seqRight (branch (moves_inlineFragment hn) (moves_fragmentSpread hn))) <|
    map (by rintro g _ rfl; exact (Selection.relocate_field f.start g).symm) (moves_field hn)

theorem moves_selectionSetBody :
    Rule.Moves f b (Image (List.map (Selection.relocate f.start))) selectionSetBody :=
  (moves_selection hn).enclosed

omit hn in
theorem moves_operationType : Rule.Moves f b (Image id) operationType :=
  map (fun _ _ h => congrArg (fun k => (OperationType.ofKind? k).getD .query) h.kind) token

theorem moves_variableDefinition :
    Rule.Moves f b (Image (VariableDefinition.relocate f.start)) variableDefinition :=
  located (by decide) <|
    seq (seq (seq (map (by rintro v _ rfl t _ rfl d? _ rfl dirs _ rfl s; rfl)
      (moves_variableUse.seqLeft one)) (moves_typeRef hn)) (moves_defaultValue hn))
      (moves_directives hn)

theorem moves_keywordOperation :
    Rule.Moves f b (fun g g' => ∀ s, g' (f.start s) = (g s).relocate f.start) keywordOperation :=
  seq (seq (seq (seq (map (by rintro t _ rfl (_ | x) _ rfl vs _ rfl dirs _ rfl sels _ rfl s <;> rfl)
    moves_operationType) name.optional) (moves_variableDefinition hn).parenthesized)
    (moves_directives hn)) (moves_selectionSet hn)

theorem moves_shorthandOperation :
    Rule.Moves f b (fun g g' => ∀ s, g' (f.start s) = (g s).relocate f.start) shorthandOperation :=
  map (by rintro sels _ rfl s; rfl) (moves_selectionSet hn)

theorem moves_operation : Rule.Moves f b (Image (Operation.relocate f.start)) operation :=
  located (by decide) <|
    branch (moves_keywordOperation hn) (moves_shorthandOperation hn)

theorem moves_fragment : Rule.Moves f b (Image (Fragment.relocate f.start)) fragment :=
  located (by decide) <|
    seq (seq (seq (map (by rintro x _ rfl c _ rfl dirs _ rfl sels _ rfl s; rfl)
      (one.seqRight nameExcept)) moves_typeCondition) (moves_directives hn))
      (moves_selectionSet hn)

omit hn in
theorem moves_description : Rule.Moves f b (Image id) description := by
  have hv : Rule.Moves f b (Image id) (Token.value <$> Rule.one .string) :=
    map (fun _ _ h => h.value) one
  exact branch (map (by rintro x _ rfl; rfl) hv) (done rfl)

theorem moves_inputValueDefinition :
    Rule.Moves f b (Image (InputValueDefinition.relocate f.start)) inputValueDefinition :=
  located (by decide) <|
    seq (seq (seq (seq (map (by rintro d? _ rfl x _ rfl t _ rfl v? _ rfl dirs _ rfl s; rfl)
      moves_description) (name.seqLeft one)) (moves_typeRef hn)) (moves_defaultValue hn))
      (moves_directives hn)

theorem moves_fieldDefinition :
    Rule.Moves f b (Image (FieldDefinition.relocate f.start)) fieldDefinition :=
  located (by decide) <|
    seq (seq (seq (seq (map (by rintro d? _ rfl x _ rfl args _ rfl t _ rfl dirs _ rfl s; rfl)
      moves_description) name) (moves_inputValueDefinition hn).parenthesized)
      (one.seqRight (moves_typeRef hn))) (moves_directives hn)

omit hn in
theorem moves_enumValue : Rule.Moves f b (Image (EnumValue.relocate f.start)) enumValue :=
  located (by decide) (map (by rintro x _ rfl s; rfl) nameExcept)

theorem moves_enumValueDefinition :
    Rule.Moves f b (Image (EnumValueDefinition.relocate f.start)) enumValueDefinition :=
  located (by decide) <|
    seq (seq (map (by rintro d? _ rfl v _ rfl dirs _ rfl s; rfl) moves_description)
      moves_enumValue) (moves_directives hn)

omit hn in
theorem moves_interfaces :
    Rule.Moves f b (Image (List.map (NamedType.relocate f.start))) interfaces :=
  map (by rintro (_ | ts) _ rfl <;> rfl) <| optional <|
    (one.seqRight present).seqRight <|
      seq (map (by rintro t _ rfl ts _ rfl; rfl) moves_namedType)
        (present.seqRight moves_namedType).whileAt

omit hn in
theorem moves_alternatives {α : Type} {m : α → α} {item : Rule α}
    (h : Rule.Moves f b (Image m) item) :
    Rule.Moves f b (Image (List.map m)) (alternatives item) :=
  present.seqRight <|
    seq (map (by rintro a _ rfl as _ rfl; rfl) h) (one.seqRight h).whileAt

omit hn in
theorem moves_unionMembers :
    Rule.Moves f b (Image (List.map (NamedType.relocate f.start))) unionMembers :=
  map (by rintro (_ | ts) _ rfl <;> rfl)
    (one.seqRight (moves_alternatives moves_namedType)).optional

theorem moves_objectDeclaration {body : List NamedType → Option (List FieldDefinition) → TypeBody}
    (hb : ∀ is fs?, (body is fs?).relocate f.start =
      body (is.map (NamedType.relocate f.start))
        (fs?.map (List.map (FieldDefinition.relocate f.start)))) :
    Rule.Moves f b (Image (TypeDeclaration.relocate f.start)) (objectDeclaration body) :=
  seq (seq (seq (map (by
    rintro x _ rfl is _ rfl dirs _ rfl fs? _ rfl
    exact congrArg _ (hb is fs?).symm) name) moves_interfaces) (moves_directives hn))
    (moves_fieldDefinition hn).enclosed.optional

theorem moves_typeDeclaration (expected : List TokenKind) :
    Rule.Moves f b (Image (TypeDeclaration.relocate f.start)) (typeDeclaration expected) :=
  branch (one.seqRight <|
    seq (map (by rintro x _ rfl dirs _ rfl; rfl) name) (moves_directives hn)) <|
  branch (one.seqRight (moves_objectDeclaration hn fun _ _ => rfl)) <|
  branch (one.seqRight (moves_objectDeclaration hn fun _ _ => rfl)) <|
  branch (one.seqRight <|
    seq (seq (map (by rintro x _ rfl dirs _ rfl ts _ rfl; rfl) name) (moves_directives hn))
      moves_unionMembers) <|
  branch (one.seqRight <|
    seq (seq (map (by rintro x _ rfl dirs _ rfl vs? _ rfl; rfl) name) (moves_directives hn))
      (moves_enumValueDefinition hn).enclosed.optional) <|
  branch (one.seqRight <|
    seq (seq (map (by rintro x _ rfl dirs _ rfl fs? _ rfl; rfl) name) (moves_directives hn))
      (moves_inputValueDefinition hn).enclosed.optional) <|
  stuck

theorem moves_typeDefinition :
    Rule.Moves f b (Image (TypeDeclaration.relocate f.start)) typeDefinition :=
  typeDefinition_eq ▸ moves_typeDeclaration hn definitionKinds

theorem moves_typeExtension :
    Rule.Moves f b (Image (TypeDeclaration.relocate f.start)) typeExtension :=
  typeExtension_eq ▸ moves_typeDeclaration hn extensionKinds

omit hn in
theorem moves_rootOperationType :
    Rule.Moves f b (Image (RootOperationType.relocate f.start)) rootOperationType :=
  located (by decide) <|
    seq (map (by rintro t _ rfl x _ rfl s; rfl) (moves_operationType.seqLeft one)) moves_namedType

theorem moves_directiveDefinition :
    Rule.Moves f b (fun g g' => ∀ description? s,
      Definition.directive (g' description? (f.start s)) =
        (Definition.directive (g description? s)).relocate f.start) directiveDefinition :=
  seq (seq (seq (map (by rintro x _ rfl args _ rfl _ r rfl ls _ rfl d? s; rfl)
    (one.seqRight name)) (moves_inputValueDefinition hn).parenthesized) (present.seqLeft one))
    (moves_alternatives (place fun _ _ h => DirectiveLocation.ofToken?_of_moved h))

theorem moves_describedDefinition :
    Rule.Moves f b (fun g g' => ∀ description? s,
      g' description? (f.start s) = (g description? s).relocate f.start) describedDefinition :=
  branch
    (seq (map (by rintro dirs _ rfl roots _ rfl d? s; rfl)
      (one.seqRight (moves_directives hn))) moves_rootOperationType.enclosed) <|
  branch
    (map (fun _ _ h => h) (one.seqRight (moves_directiveDefinition hn))) <|
  map (by rintro t _ rfl d? s; rfl) (moves_typeDefinition hn)

theorem moves_typeSystemDefinition :
    Rule.Moves f b (Image (Definition.relocate f.start)) typeSystemDefinition :=
  located (by decide) <|
    seq (map (by rintro _ d? rfl g g' h s; exact h d? s) moves_description)
      (moves_describedDefinition hn)

theorem moves_typeSystemExtension :
    Rule.Moves f b (Image (Definition.relocate f.start)) typeSystemExtension :=
  located (by decide) <| one.seqRight <|
    branch
      (seq (map (by rintro dirs _ rfl (_ | roots) _ rfl s <;> rfl)
        (one.seqRight (moves_directives hn))) moves_rootOperationType.enclosed.optional)
      (map (by rintro t _ rfl s; rfl) (moves_typeExtension hn))

theorem moves_definition : Rule.Moves f b (Image (Definition.relocate f.start)) definition :=
  branch (map (by rintro g _ rfl; rfl) (moves_fragment hn)) <|
  branch (map (by rintro o _ rfl; rfl) (moves_operation hn)) <|
  branch (moves_typeSystemExtension hn) <|
  branch (moves_typeSystemDefinition hn) <|
  stuck

end

theorem readNest_moves (f : Move) (budget : Nat) (n : Nest) :
    (readNest Nest.body budget n).Moves f (Image (n.relocate f.start)) := by
  induction budget generalizing n with
  | zero =>
    refine ⟨fun _ hr => (nomatch hr), fun hts hr => ?_⟩
    cases hr
    rw [hts.eq_map]
    rfl
  | succ budget ih =>
    cases n with
    | selectionSet => exact moves_selectionSetBody ih
    | value => exact moves_valueBody ih
    | typeRef => exact moves_typeRefBody ih

theorem moves_definitions (f : Move) (budget : Nat) :
    Rule.Moves f budget (Image (List.map (Definition.relocate f.start))) definitions :=
  whileAt (moves_definition (readNest_moves f budget))

theorem firstStart_of_moved {f : Move} {ts us : List Token} (hts : Moved f ts us)
    (h : ts ≠ [] ∨ f.start 0 = 0) : firstStart us = f.start (firstStart ts) := by
  cases hts with
  | nil => simpa [firstStart, eq_comm] using h
  | cons ht _ => exact ht.start

/-- **Moved tokens are read as a moved document**, and fail to be one in the same way. -/
theorem readDocument_of_moved {f : Move} (budget : Nat) {ts us : List Token} (hts : Moved f ts us)
    (h : ts ≠ [] ∨ f.start 0 = 0) :
    readDocument budget us =
      match readDocument budget ts with
      | .ok d => .ok (d.relocate f.start)
      | .error e => .error (e.relocate f.offset) := by
  have hm := moves_definitions f budget
  rcases hr : definitions.readIn budget ts with e | ⟨ds, rest⟩
  · rw [readDocument_eq_error.2 hr, readDocument_eq_error.2 (hm.error hts hr)]
  · obtain ⟨_, rest', rfl, -, hr'⟩ := hm.ok hts hr
    have hd : readDocument budget ts = .ok ⟨ds, firstStart ts⟩ :=
      readDocument_eq_ok.2 ⟨(derivesDocument_of_read hr).1, rfl⟩
    rw [hd]
    exact readDocument_eq_ok.2
      ⟨(derivesDocument_of_read hr').1, (firstStart_of_moved hts h).symm⟩

/-- Tokens that are all moved to offset zero are read as the origin of a document. -/
theorem readDocument_toZero (budget : Nat) (ts : List Token) :
    readDocument budget (ts.map (Token.relocate toZero)) =
      match readDocument budget ts with
      | .ok d => .ok d.origin
      | .error e => .error (e.relocate toZero) :=
  readDocument_of_moved budget (moved_zero ts) (.inr rfl)

end GraphQL

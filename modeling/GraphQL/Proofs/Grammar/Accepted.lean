import GraphQL.Proofs.Grammar.Completeness.Document
import GraphQL.Proofs.Grammar.Soundness
import GraphQL.Proofs.Reading.Relocation

/-!
# The documents that are read

Genuine tokens are read as a document within a nesting budget if and only if they spell it and no
other, it is well formed, and it nests no deeper than the budget: `spelled_of_readDocument` and
`readDocument_of_spelled`.
-/

namespace GraphQL

open Language

/-! ### Blocks that could follow -/

/-- Braces with nothing between them. -/
def emptyBlock : List Lexeme := [.punctuator .braceOpen, .punctuator .braceClose]

theorem append_emptyBlock_mem {α : Type} {spelling : α → Spellings} {K : Spellings}
    {w : List Lexeme} (h : w ∈ K * Spellings.part (Spellings.braced spelling) none) :
    w ++ emptyBlock ∈ K * Spellings.part (Spellings.braced spelling) (some []) := by
  obtain ⟨u, hu, _, rfl, rfl⟩ := h
  have hblock : emptyBlock ∈ Spellings.braced spelling [] :=
    ⟨[.punctuator .braceOpen], ⟨[.punctuator .braceOpen], rfl, [], rfl, rfl⟩,
      [.punctuator .braceClose], rfl, rfl⟩
  beta_reduce
  rw [List.append_nil]
  exact append_mem_mul hu hblock

/-- A type without the block that it could have goes on with an empty one. -/
theorem TypeDeclaration.exists_fits_emptyBlock {b : Nat} {t : TypeDeclaration} {w : List Lexeme}
    (h : TypeDeclaration.form.Fits b t w) (hl : t.body.lacksBlock = true) :
    ∃ t', TypeDeclaration.form.Fits b t' (w ++ emptyBlock) := by
  obtain ⟨hs, ⟨hx, hdirs, hbody⟩, hd⟩ := h
  have hempty : ∀ {α : Type} {p : α → Prop}, ∀ as ∈ some ([] : List α), ∀ a ∈ as, p a := by
    rintro α p _ ⟨⟩ a ha
    cases ha
  obtain ⟨x, dirs, body⟩ := t
  match body with
  | .object ts none =>
    exact ⟨⟨x, dirs, .object ts (some [])⟩, append_emptyBlock_mem hs,
      ⟨hx, hdirs, hbody.1, hempty⟩, hd⟩
  | .interface ts none =>
    exact ⟨⟨x, dirs, .interface ts (some [])⟩, append_emptyBlock_mem hs,
      ⟨hx, hdirs, hbody.1, hempty⟩, hd⟩
  | .enum none =>
    exact ⟨⟨x, dirs, .enum (some [])⟩, append_emptyBlock_mem hs, ⟨hx, hdirs, hempty⟩, hd⟩
  | .inputObject none =>
    exact ⟨⟨x, dirs, .inputObject (some [])⟩, append_emptyBlock_mem hs, ⟨hx, hdirs, hempty⟩, hd⟩

/-- A definition without a block that it could go on with goes on with an empty one. -/
theorem Definition.exists_fits_emptyBlock {b : Nat} {d : Definition} {w : List Lexeme}
    (h : Definition.form.Fits b d w) (hw : w ∈ d.bareSpelling) :
    ∃ d', Definition.form.Fits b d' (w ++ emptyBlock) := by
  obtain ⟨hs, hwf, hd⟩ := h
  cases d with
  | operation o | fragment f | schema s | directive d => exact hw.elim
  | schemaExtension e =>
    rw [Definition.bareSpelling] at hw
    split at hw
    · rename_i hroots
      refine ⟨.schemaExtension e, ?_, hwf, hd⟩
      have hblock : emptyBlock ∈ (if e.roots = [] then (1 : Spellings) else 0) +
          Spellings.braced RootOperationType.spelling e.roots := by
        rw [hroots]
        exact .inr ⟨[.punctuator .braceOpen], ⟨[.punctuator .braceOpen], rfl, [], rfl, rfl⟩,
          [.punctuator .braceClose], rfl, rfl⟩
      exact append_mem_mul hw hblock
    · exact hw.elim
  | type t =>
    rw [Definition.bareSpelling] at hw
    split at hw
    · rename_i hl
      obtain ⟨u, hu, v, hv, rfl⟩ := hs
      obtain ⟨t', hs, hwf, hd⟩ := TypeDeclaration.exists_fits_emptyBlock ⟨hv, hwf, hd⟩ hl
      refine ⟨.type ⟨t.description?, t', 0⟩, ?_, hwf, hd⟩
      beta_reduce
      rw [List.append_assoc]
      exact append_mem_mul hu hs
    · exact hw.elim
  | typeExtension e =>
    rw [Definition.bareSpelling] at hw
    split at hw
    · rename_i hl
      obtain ⟨u, hu, v, hv, rfl⟩ := hs
      obtain ⟨t', hs, hwf, hd⟩ := TypeDeclaration.exists_fits_emptyBlock ⟨hv, hwf, hd⟩ hl
      refine ⟨.typeExtension ⟨t', 0⟩, ?_, hwf, hd⟩
      beta_reduce
      rw [List.append_assoc]
      exact append_mem_mul hu hs
    · exact hw.elim

/-- A definition that a block could continue is not derived before a brace. -/
theorem not_mem_bareSpelling_of_derives {b : Nat} {d : Definition} {next : Set TokenKind}
    {u : List Token} (hu : ∀ t ∈ u, t.lexeme.Genuine) (h : definition.DerivesIn b next d u)
    (hnext : .punctuator .braceOpen ∈ next) : u.map Token.lexeme ∉ d.bareSpelling := by
  intro hw
  obtain ⟨d', hd'⟩ :=
    Definition.exists_fits_emptyBlock (renders_definition (renders_nest b) hu h) hw
  have hlong : definition.Spells b (d'.relocate toZero) _ :=
    derives_of_fits (covers_nest b) hd' (Set.empty_subset _) fun _ h => h
  have hread := Rule.read_of_derives_end steady_definition clear_definition hlong
  have hshort : definition.readIn b (u ++ emptyBlock.map Lexeme.bare) = .ok (d, _) :=
    Rule.read_of_derives steady_definition clear_definition h (by
      rintro k ⟨_, ⟨⟩, rfl⟩
      exact hnext)
  obtain ⟨_, _, -, hrest, hmoved⟩ :=
    (moves_definition (readNest_moves .zero b)).ok (moved_zero _) hshort
  have htokens : (u ++ emptyBlock.map Lexeme.bare).map (Token.relocate toZero) =
      (u.map Token.lexeme ++ emptyBlock).map Lexeme.bare := by
    rw [List.map_append, map_relocate_toZero, List.map_append]
    rfl
  rw [htokens, hread] at hmoved
  cases hmoved
  cases hrest

/-! ### Documents -/

/-- An operation that is a bare selection set starts with a brace. -/
theorem headIs_of_isShorthand {d : Definition} (hd : d.isShorthand = true) {w : List Lexeme}
    (h : w ∈ d.spelling) : headIs (· == .punctuator .braceOpen) w := by
  cases d with
  | operation o =>
    obtain ⟨-, -, hw⟩ | ⟨hkeyword, -⟩ := Operation.mem_spelling.1 h
    · exact headIs_braceOpen hw
    · exact absurd hd (by simp [Definition.isShorthand, hkeyword])
  | _ => cases hd

theorem unambiguous_of_derivesDocument {b : Nat} {ds : List Definition} {ts : List Token}
    (hts : ∀ t ∈ ts, t.lexeme.Genuine) (h : DerivesDocument b ds ts) :
    ts.map Token.lexeme ∈ unambiguousSpelling ds := by
  induction ds generalizing ts with
  | nil =>
    obtain rfl := h
    rfl
  | cons d ds ih =>
    obtain ⟨u, v, rfl, hu, hv⟩ := h
    rw [List.forall_mem_append] at hts
    rw [List.map_append]
    have hs := (renders_definition (renders_nest b) hts.1 hu).spelled
    refine append_mem_mul ⟨hs, fun hbare e he => ?_⟩ (ih hts.2 hv)
    by_contra hshort
    obtain ⟨es, rfl⟩ : ∃ es, ds = e :: es := by
      cases ds with
      | nil => cases he
      | cons e' es => exact ⟨es, congrArg (· :: es) (Option.some.inj he)⟩
    obtain ⟨v, z, rfl, he', -⟩ := hv
    have hhead := headIs_of_isShorthand (Bool.eq_true_of_not_eq_false hshort)
      (renders_definition (renders_nest b)
        (fun t ht => hts.2 t (List.mem_append_left z ht)) he').spelled
    refine not_mem_bareSpelling_of_derives hts.1 hu ?_ hbare
    rcases v with _ | ⟨t, v⟩
    · cases hhead
    · rw [List.cons_append, upcoming_cons]
      exact (eq_of_beq hhead).symm

/-- What is read as a document spells it and no other; the document is well formed and within the
nesting budget. -/
theorem spelled_of_readDocument {b : Nat} {ts : List Token} {d : Document}
    (hts : ∀ t ∈ ts, t.lexeme.Genuine) (h : readDocument b ts = .ok d) :
    ts.map Token.lexeme ∈ d.unambiguousSpelling ∧ d.WellFormed ∧ d.depth ≤ b := by
  obtain ⟨h, -⟩ := readDocument_eq_ok.1 h
  obtain ⟨-, hwf, hd⟩ := fits_of_derivesDocument hts h
  exact ⟨unambiguous_of_derivesDocument hts h, hwf, hd⟩

/-- What spells a document and no other is read as it, up to offsets, within every nesting budget
that suffices. -/
theorem readDocument_of_spelled {b : Nat} {ts : List Token} {d : Document}
    (hs : ts.map Token.lexeme ∈ d.unambiguousSpelling) (hwf : d.WellFormed) (hd : d.depth ≤ b) :
    ∃ d', readDocument b ts = .ok d' ∧ d'.origin = d.origin := by
  have hbare : readDocument b (ts.map (Token.relocate toZero)) = .ok d.origin := by
    rw [map_relocate_toZero]
    refine readDocument_eq_ok.2 ⟨derivesDocument_of_fits hs hwf hd, ?_⟩
    cases ts <;> rfl
  rw [readDocument_toZero] at hbare
  rcases hr : readDocument b ts with e | d'
  · rw [hr] at hbare
    cases hbare
  · rw [hr] at hbare
    exact ⟨d', rfl, Except.ok.inj hbare⟩

end GraphQL

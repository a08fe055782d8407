import GraphQL.Proofs.Lexical.Number

/-!
# The longest name and the longest number

The lexer reads a name or a number as far as it can.  What it finds is the longest text of the
grammar at the start of the source text (`isLongest_name`, `numberParts?_isLongest`), and it finds
no number where none starts (`numberParts?_eq_none`).

For numbers this is not evident, since the integer part, the fraction and the exponent are each
taken as long as they can be, one after the other.  A number at the start of the source text decides
how far each part reaches at least: a part that is longer than in the number is longer by digits,
and these leave no room for further parts in the number (`numberParts?_append_of_mem`).
-/

namespace GraphQL

open Computability

/-- Whether a text is the longest one of a language that a source text starts with. -/
structure IsLongest (L : Language Char) (w source : List Char) : Prop where
  /-- It is a text of the language. -/
  mem : w ∈ L
  /-- The source text starts with it. -/
  starts : w <+: source
  /-- No other text of the language at the start is longer. -/
  length_le : ∀ v ∈ L, v <+: source → v.length ≤ w.length

theorem IsLongest.unique {L : Language Char} {v w source : List Char} (hv : IsLongest L v source)
    (hw : IsLongest L w source) : v = w := by
  have hlen : v.length = w.length :=
    Nat.le_antisymm (hw.length_le v hv.mem hv.starts) (hv.length_le w hw.mem hw.starts)
  exact (List.prefix_of_prefix_length_le hv.starts hw.starts hlen.le).eq_of_length hlen

/-! ### Names -/

theorem length_le_takeWhile {p : Char → Bool} {cs rest : List Char} (h : ∀ c ∈ cs, p c = true)
    (hpre : cs <+: rest) : cs.length ≤ (rest.takeWhile p).length := by
  obtain ⟨t, rfl⟩ := hpre
  rw [List.takeWhile_append_of_pos h, List.length_append]
  exact Nat.le_add_right _ _

/-- The longest name at the start of a text. -/
theorem isLongest_name {c : Char} (hc : isNameStart c = true) (rest : List Char) :
    IsLongest LexicalText.name (c :: rest.takeWhile isNamePart) (c :: rest) where
  mem := LexicalText.mem_name.2 ⟨c, _, hc, fun _ => List.mem_takeWhile_imp, rfl⟩
  starts := List.cons_prefix_cons.2 ⟨rfl, List.takeWhile_prefix _⟩
  length_le := by
    intro v hv hpre
    obtain ⟨d, ds, -, hds, rfl⟩ := LexicalText.mem_name.1 hv
    exact Nat.succ_le_succ (length_le_takeWhile hds (List.cons_prefix_cons.1 hpre).2)

/-! ### Numbers -/

/-- A number at the start of a text is found, or a longer one. -/
theorem numberParts?_append_of_mem {w : List Char} (h : w ∈ LexicalText.number)
    (rest : List Char) : ∃ n, numberParts? (w ++ rest) = some n ∧ w.length ≤ n.text.length := by
  obtain ⟨_, hif, e, he, rfl⟩ := Language.mem_mul.1 h
  obtain ⟨i, hi, f, hf, rfl⟩ := Language.mem_mul.1 hif
  rw [LexicalText.mem_one_add] at he hf
  obtain ⟨more, hint, hmore⟩ := integerPart?_append_of_mem hi (f ++ (e ++ rest))
  obtain ⟨n, hn, hni⟩ := exists_numberParts? hint
  refine ⟨n, by simpa using hn, ?_⟩
  suffices hfe : f.length + e.length ≤ n.fraction.length + n.exponent.length by
    simp only [NumberParts.text, List.length_append, hni]
    omega
  -- Further digits after the integer part leave no room for a fraction or an exponent.
  have hpart (hnone : NoneFirst Char.isDigit (f ++ (e ++ rest))) :
      n.fraction = fractionPart (f ++ (e ++ rest)) ∧
        n.exponent = exponentPart ((f ++ (e ++ rest)).drop n.fraction.length) := by
    obtain ⟨-, hfrac, hexp⟩ := numberParts?_eq_some hn
    have hnil : more = [] := hmore.elim id fun h => h.trans (digits_eq_nil hnone)
    rw [hni, hnil, List.append_nil, List.drop_left] at hfrac hexp
    exact ⟨hfrac, hexp⟩
  -- The number may lack a fraction or an exponent; what it has is reached.
  obtain rfl | hf := hf <;> obtain rfl | he := he
  · exact Nat.zero_le _
  · have hnone := noneFirst_of_mem_exponent he (p := Char.isDigit) rfl rfl rest
    obtain ⟨hfrac, hexp⟩ := hpart hnone
    rw [List.nil_append,
      fractionPart_of_noneFirst (noneFirst_of_mem_exponent he rfl rfl rest)] at hfrac
    rw [hfrac, List.nil_append, List.length_nil, List.drop_zero,
      exponentPart_append_of_mem he] at hexp
    simp only [hexp, List.length_append, List.length_nil]
    omega
  · obtain ⟨hfrac, -⟩ := hpart (noneFirst_of_mem_fraction hf rfl _)
    rw [fractionPart_append_of_mem hf] at hfrac
    simp only [hfrac, List.length_append, List.length_nil]
    omega
  · obtain ⟨hfrac, hexp⟩ := hpart (noneFirst_of_mem_fraction hf rfl _)
    rw [fractionPart_append_of_mem hf,
      digits_eq_nil (noneFirst_of_mem_exponent he rfl rfl rest), List.append_nil] at hfrac
    rw [hfrac, List.drop_left, exponentPart_append_of_mem he] at hexp
    simp only [hfrac, hexp, List.length_append]
    omega

theorem mem_number_of_numberParts {source : List Char} {n : NumberParts}
    (h : numberParts? source = some n) : n.text ∈ LexicalText.number := by
  rw [LexicalText.number_eq]
  cases hn : n.isInteger with
  | true => exact .inl (integer_of_numberParts h hn)
  | false => exact .inr (float_of_numberParts h hn)

/-- The number literal found at the start of a text is the longest one there. -/
theorem numberParts?_isLongest {source : List Char} {n : NumberParts}
    (h : numberParts? source = some n) : IsLongest LexicalText.number n.text source where
  mem := mem_number_of_numberParts h
  starts := (numberParts?_append h).imp fun _ => Eq.symm
  length_le := by
    rintro v hv ⟨rest, rfl⟩
    obtain ⟨m, hm, hlen⟩ := numberParts?_append_of_mem hv rest
    rw [h, Option.some.injEq] at hm
    rwa [hm]

/-- No number literal is found where none starts. -/
theorem numberParts?_eq_none {source : List Char} :
    numberParts? source = none ↔ ∀ w ∈ LexicalText.number, ¬ w <+: source := by
  constructor
  · rintro h w hw ⟨rest, rfl⟩
    obtain ⟨n, hn, -⟩ := numberParts?_append_of_mem hw rest
    rw [h] at hn
    cases hn
  · intro h
    cases hn : numberParts? source with
    | none => rfl
    | some n =>
      exact absurd (numberParts?_isLongest hn).starts (h _ (mem_number_of_numberParts hn))

end GraphQL

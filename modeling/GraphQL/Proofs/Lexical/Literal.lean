import GraphQL.Lexical.Lexeme
import Mathlib.Algebra.Group.Nat.Even
import Mathlib.Algebra.Ring.Parity

/-!
# Where string literals end

Where string literals end, without reference to how they are scanned.  A quoted string ends at the
first quote that an even number of backslashes precedes (`splitQuoted_eq_some`).  A block string
ends at the first triple quote that is met when its content is read in units, an escaped triple
quote being one of them (`splitBlock_eq_some`).

So where a literal ends does not depend on what comes after it (`splitQuoted_again`,
`splitBlock_again`).
-/

namespace GraphQL

/-! ### Quoted strings -/

/-- The number of backslashes at the end of a text. -/
def trailingBackslashes (cs : List Char) : Nat := (cs.reverse.takeWhile (· = '\\')).length

theorem trailingBackslashes_cons (c : Char) (cs : List Char) :
    trailingBackslashes (c :: cs) =
      if trailingBackslashes cs = cs.length then cs.length + (if c = '\\' then 1 else 0)
      else trailingBackslashes cs := by
  have happend : trailingBackslashes (c :: cs) =
      (if (cs.reverse.takeWhile (· = '\\')).length = cs.length then
        cs.reverse ++ [c].takeWhile (· = '\\')
      else cs.reverse.takeWhile (· = '\\')).length := by
    rw [trailingBackslashes, List.reverse_cons, List.takeWhile_append, List.length_reverse]
  rw [happend]
  by_cases hall : (cs.reverse.takeWhile (· = '\\')).length = cs.length
  · rw [if_pos hall, if_pos (show trailingBackslashes cs = cs.length from hall)]
    by_cases hc : c = '\\' <;> simp [hc]
  · rw [if_neg hall, if_neg (show trailingBackslashes cs ≠ cs.length from hall),
      trailingBackslashes]

theorem trailingBackslashes_le (cs : List Char) : trailingBackslashes cs ≤ cs.length := by
  simpa [trailingBackslashes] using (List.takeWhile_prefix (· = '\\') (l := cs.reverse)).length_le

/-- A character other than a backslash at the start does not count. -/
theorem trailingBackslashes_cons_of_ne {c : Char} (h : c ≠ '\\') (cs : List Char) :
    trailingBackslashes (c :: cs) = trailingBackslashes cs := by
  rw [trailingBackslashes_cons, if_neg h]
  split
  · rename_i hall
    exact hall.symm
  · rfl

/-- A backslash at the start and the character after it do not change the parity. -/
theorem even_trailingBackslashes_escape (c : Char) (cs : List Char) :
    Even (trailingBackslashes ('\\' :: c :: cs)) ↔ Even (trailingBackslashes cs) := by
  have hle := trailingBackslashes_le cs
  rw [trailingBackslashes_cons, trailingBackslashes_cons c, List.length_cons, if_pos rfl]
  by_cases hall : trailingBackslashes cs = cs.length
  · -- Only backslashes follow: the two count together, or neither counts.
    by_cases hc : c = '\\'
    · simp [hall, hc, Nat.even_add_one]
    · simp [hall, hc]
  · rw [if_neg hall, if_neg (by omega)]

/-- No quote in the text has an even number of backslashes before it. -/
def NoneCloses (text : List Char) : Prop :=
  ∀ pre post, text = pre ++ '"' :: post → ¬ Even (trailingBackslashes pre)

/-- A quote after the text has an even number of backslashes before it, and none in it does. -/
structure FirstCloses (content : List Char) : Prop where
  /-- The quote after the text. -/
  closes : Even (trailingBackslashes content)
  /-- The quotes in it. -/
  first : NoneCloses content

theorem noneCloses_nil : NoneCloses [] := by
  intro pre post h
  cases pre <;> cases h

theorem noneCloses_backslash : NoneCloses ['\\'] := by
  rintro (_ | ⟨d, pre⟩) post h <;> simp at h

theorem noneCloses_cons {c : Char} (hq : c ≠ '"') (hb : c ≠ '\\') {cs : List Char} :
    NoneCloses (c :: cs) ↔ NoneCloses cs := by
  constructor
  · rintro h pre post rfl
    rw [← trailingBackslashes_cons_of_ne hb]
    exact h (c :: pre) post rfl
  · rintro h (_ | ⟨d, pre⟩) post heq
    · exact absurd (List.cons.inj heq).1 hq
    · simp only [List.cons_append, List.cons.injEq] at heq
      obtain ⟨rfl, heq⟩ := heq
      rw [trailingBackslashes_cons_of_ne hb]
      exact h pre post heq

theorem noneCloses_escape {c : Char} {cs : List Char} :
    NoneCloses ('\\' :: c :: cs) ↔ NoneCloses cs := by
  constructor
  · rintro h pre post rfl
    rw [← even_trailingBackslashes_escape c]
    exact h ('\\' :: c :: pre) post rfl
  · rintro h (_ | ⟨d, _ | ⟨e, pre⟩⟩) post heq
    · exact absurd (List.cons.inj heq).1 (by decide)
    · -- The quote is the escaped character itself.
      simp only [List.cons_append, List.cons.injEq] at heq
      rw [← heq.1]
      decide
    · simp only [List.cons_append, List.cons.injEq] at heq
      obtain ⟨rfl, rfl, heq⟩ := heq
      rw [even_trailingBackslashes_escape]
      exact h pre post heq

theorem noneCloses_of_splitQuoted {source : List Char} (h : splitQuoted source = none) :
    NoneCloses source := by
  induction source using splitQuoted.induct with
  | case1 rest => cases h
  | case2 c rest ih =>
    rw [splitQuoted, Option.map_eq_none_iff] at h
    exact noneCloses_escape.2 (ih h)
  | case3 c rest h₁ h₂ ih =>
    rw [splitQuoted, Option.map_eq_none_iff] at h
    -- A backslash comes here only at the end, where it escapes nothing.
    · by_cases hb : c = '\\'
      · rcases rest with _ | ⟨d, rest⟩
        · subst hb
          exact noneCloses_backslash
        · exact absurd rfl (h₂ d rest hb)
      · exact (noneCloses_cons h₁ hb).2 (ih h)
    · exact h₁
    · exact h₂
  | case4 => exact noneCloses_nil

theorem splitQuoted_spec {source content after : List Char}
    (h : splitQuoted source = some (content, after)) :
    source = content ++ '"' :: after ∧ FirstCloses content := by
  induction source using splitQuoted.induct generalizing content with
  | case1 rest =>
    simp only [splitQuoted, Option.some.injEq, Prod.mk.injEq] at h
    obtain ⟨rfl, rfl⟩ := h
    exact ⟨rfl, ⟨0, rfl⟩, noneCloses_nil⟩
  | case2 c rest ih =>
    simp only [splitQuoted, Option.map_eq_some_iff, Prod.exists, Prod.mk.injEq] at h
    obtain ⟨content, _, h, rfl, rfl⟩ := h
    obtain ⟨rfl, hclose, hfirst⟩ := ih h
    exact ⟨rfl, (even_trailingBackslashes_escape c content).2 hclose,
      noneCloses_escape.2 hfirst⟩
  | case3 c rest h₁ h₂ ih =>
    rw [splitQuoted] at h
    · simp only [Option.map_eq_some_iff, Prod.exists, Prod.mk.injEq] at h
      obtain ⟨content, _, h, rfl, rfl⟩ := h
      -- A backslash comes here only if nothing comes after it.
      have hb : c ≠ '\\' := by
        rintro rfl
        rcases rest with _ | ⟨d, rest⟩
        · cases h
        · exact h₂ d rest rfl rfl
      obtain ⟨rfl, hclose, hfirst⟩ := ih h
      rw [← trailingBackslashes_cons_of_ne hb] at hclose
      exact ⟨rfl, hclose, (noneCloses_cons h₁ hb).2 hfirst⟩
    · exact h₁
    · exact h₂
  | case4 => cases h

theorem splitQuoted_append {source content after : List Char}
    (h : splitQuoted source = some (content, after)) : source = content ++ '"' :: after :=
  (splitQuoted_spec h).1

theorem FirstCloses.unique {c c' a a' : List Char} (h : FirstCloses c) (h' : FirstCloses c')
    (heq : c ++ '"' :: a = c' ++ '"' :: a') : c = c' ∧ a = a' := by
  -- The longer of the two would have a closing quote in it.
  obtain ⟨x, rfl, hx⟩ | ⟨x, rfl, hx⟩ := List.append_eq_append_iff.1 heq <;>
    rcases x with _ | ⟨d, x⟩
  · exact ⟨by simp, (List.cons.inj hx).2⟩
  · obtain ⟨rfl, -⟩ := List.cons.inj hx
    exact absurd h.closes (h'.first c x rfl)
  · exact ⟨by simp, (List.cons.inj hx).2.symm⟩
  · obtain ⟨rfl, -⟩ := List.cons.inj hx
    exact absurd h'.closes (h.first c' x rfl)

/-- A quoted string ends at the first quote that an even number of backslashes precedes. -/
theorem splitQuoted_eq_some {source content after : List Char} :
    splitQuoted source = some (content, after) ↔
      source = content ++ '"' :: after ∧ FirstCloses content := by
  refine ⟨splitQuoted_spec, ?_⟩
  rintro ⟨heq, hfirst⟩
  rcases hs : splitQuoted source with _ | ⟨content', after'⟩
  · exact absurd hfirst.closes (noneCloses_of_splitQuoted hs _ _ heq)
  · obtain ⟨heq', hfirst'⟩ := splitQuoted_spec hs
    obtain ⟨rfl, rfl⟩ := hfirst'.unique hfirst (heq'.symm.trans heq)
    rfl

theorem splitQuoted_eq_none {source : List Char} :
    splitQuoted source = none ↔ NoneCloses source := by
  refine ⟨noneCloses_of_splitQuoted, fun h => ?_⟩
  rcases hs : splitQuoted source with _ | ⟨content, after⟩
  · rfl
  · obtain ⟨heq, hfirst⟩ := splitQuoted_spec hs
    exact absurd hfirst.closes (h _ _ heq)

theorem splitQuoted_again {source content after : List Char}
    (h : splitQuoted source = some (content, after)) (after' : List Char) :
    splitQuoted (content ++ '"' :: after') = some (content, after') :=
  splitQuoted_eq_some.2 ⟨rfl, (splitQuoted_spec h).2⟩

/-! ### Block strings -/

/-- Some text is read in units, an escaped triple quote where one stands and a single character
elsewhere, and no triple quote is met before what comes after the text. -/
inductive BlockUnits : List Char → List Char → Prop where
  /-- Nothing is read. -/
  | nil {rest : List Char} : BlockUnits [] rest
  /-- An escaped triple quote. -/
  | escaped {text rest : List Char} (h : BlockUnits text rest) :
    BlockUnits ('\\' :: '"' :: '"' :: '"' :: text) rest
  /-- A character at which neither a triple quote nor an escaped one stands. -/
  | plain {c : Char} {text rest : List Char} (hq : ¬ ['"', '"', '"'] <+: c :: (text ++ rest))
    (he : ¬ ['\\', '"', '"', '"'] <+: c :: (text ++ rest)) (h : BlockUnits text rest) :
    BlockUnits (c :: text) rest

theorem not_startsWith_quotes {c : Char} {rest : List Char}
    (h : ∀ s, c = '"' → rest = '"' :: '"' :: s → False) : ¬ ['"', '"', '"'] <+: c :: rest := by
  rintro ⟨s, hs⟩
  obtain ⟨rfl, rfl⟩ := List.cons.inj hs
  exact h s rfl rfl

theorem not_startsWith_escaped {c : Char} {rest : List Char}
    (h : ∀ s, c = '\\' → rest = '"' :: '"' :: '"' :: s → False) :
    ¬ ['\\', '"', '"', '"'] <+: c :: rest := by
  rintro ⟨s, hs⟩
  obtain ⟨rfl, rfl⟩ := List.cons.inj hs
  exact h s rfl rfl

theorem splitBlock_units {text rest : List Char} (h : BlockUnits text rest) :
    splitBlock (text ++ rest) =
      (splitBlock rest).map fun (content, after) => (text ++ content, after) := by
  induction h with
  | nil => simp
  | escaped _ ih =>
    simp only [List.cons_append, splitBlock, ih, Option.map_map]
    rfl
  | plain hq he _ ih =>
    rw [List.cons_append, splitBlock, ih, Option.map_map]
    · rfl
    · rintro s rfl hs
      exact hq ⟨s, by rw [hs]; rfl⟩
    · rintro s rfl hs
      exact he ⟨s, by rw [hs]; rfl⟩

theorem blockUnits_of_splitBlock_eq_none {source : List Char} (h : splitBlock source = none) :
    BlockUnits source [] := by
  induction source using splitBlock.induct with
  | case1 rest => cases h
  | case2 rest ih =>
    rw [splitBlock, Option.map_eq_none_iff] at h
    exact .escaped (ih h)
  | case3 c rest h₁ h₂ ih =>
    rw [splitBlock, Option.map_eq_none_iff] at h
    · refine .plain ?_ ?_ (ih h) <;> rw [List.append_nil]
      · exact not_startsWith_quotes h₁
      · exact not_startsWith_escaped h₂
    · exact h₁
    · exact h₂
  | case4 => exact .nil

theorem splitBlock_spec {source content after : List Char}
    (h : splitBlock source = some (content, after)) :
    source = content ++ '"' :: '"' :: '"' :: after ∧
      BlockUnits content ('"' :: '"' :: '"' :: after) := by
  induction source using splitBlock.induct generalizing content with
  | case1 rest =>
    simp only [splitBlock, Option.some.injEq, Prod.mk.injEq] at h
    obtain ⟨rfl, rfl⟩ := h
    exact ⟨rfl, .nil⟩
  | case2 rest ih =>
    simp only [splitBlock, Option.map_eq_some_iff, Prod.exists, Prod.mk.injEq] at h
    obtain ⟨content, _, h, rfl, rfl⟩ := h
    obtain ⟨rfl, hunits⟩ := ih h
    exact ⟨rfl, .escaped hunits⟩
  | case3 c rest h₁ h₂ ih =>
    rw [splitBlock] at h
    · simp only [Option.map_eq_some_iff, Prod.exists, Prod.mk.injEq] at h
      obtain ⟨content, _, h, rfl, rfl⟩ := h
      obtain ⟨rfl, hunits⟩ := ih h
      exact ⟨rfl, .plain (not_startsWith_quotes h₁) (not_startsWith_escaped h₂) hunits⟩
    · exact h₁
    · exact h₂
  | case4 => cases h

theorem splitBlock_append {source content after : List Char}
    (h : splitBlock source = some (content, after)) :
    source = content ++ '"' :: '"' :: '"' :: after :=
  (splitBlock_spec h).1

/-- A block string ends at the first triple quote that is met when its content is read in units. -/
theorem splitBlock_eq_some {source content after : List Char} :
    splitBlock source = some (content, after) ↔ source = content ++ '"' :: '"' :: '"' :: after ∧
      BlockUnits content ('"' :: '"' :: '"' :: after) := by
  refine ⟨splitBlock_spec, ?_⟩
  rintro ⟨rfl, h⟩
  rw [splitBlock_units h]
  simp [splitBlock]

theorem splitBlock_eq_none {source : List Char} :
    splitBlock source = none ↔ BlockUnits source [] := by
  refine ⟨blockUnits_of_splitBlock_eq_none, fun h => ?_⟩
  have hs := splitBlock_units h
  rwa [List.append_nil] at hs

/-- The first three characters do not depend on what follows a closing triple quote. -/
theorem take_append_quotes (content after after' : List Char) :
    (content ++ '"' :: '"' :: '"' :: after).take 3 =
      (content ++ '"' :: '"' :: '"' :: after').take 3 := by
  rcases content with _ | ⟨a, _ | ⟨b, _ | ⟨c, content⟩⟩⟩ <;> rfl

theorem cons_prefix_cons_congr {c d : Char} {p xs ys : List Char} (hp : p.length ≤ 3)
    (h : xs.take 3 = ys.take 3) : d :: p <+: c :: xs ↔ d :: p <+: c :: ys := by
  have htake : xs.take p.length = ys.take p.length := by
    have h := congrArg (List.take p.length) h
    rwa [List.take_take, List.take_take, Nat.min_eq_left hp] at h
  rw [List.cons_prefix_cons, List.cons_prefix_cons, List.prefix_iff_eq_take,
    List.prefix_iff_eq_take, htake]

/-- The units before a closing triple quote are the same whatever comes after it. -/
theorem BlockUnits.before_quotes {text after : List Char}
    (h : BlockUnits text ('"' :: '"' :: '"' :: after)) (after' : List Char) :
    BlockUnits text ('"' :: '"' :: '"' :: after') := by
  generalize hrest : '"' :: '"' :: '"' :: after = rest at h
  induction h with
  | nil => exact .nil
  | escaped _ ih => exact .escaped (ih hrest)
  | @plain c text _ hq he _ ih =>
    subst hrest
    -- Whether a triple quote or an escaped one starts at `c` is seen on the next three characters.
    have htake := take_append_quotes text after after'
    refine .plain ?_ ?_ (ih rfl)
    · rwa [← cons_prefix_cons_congr (by decide) htake]
    · rwa [← cons_prefix_cons_congr (by decide) htake]

theorem splitBlock_again {source content after : List Char}
    (h : splitBlock source = some (content, after)) (after' : List Char) :
    splitBlock (content ++ '"' :: '"' :: '"' :: after') = some (content, after') :=
  splitBlock_eq_some.2 ⟨rfl, (splitBlock_spec h).2.before_quotes after'⟩

end GraphQL

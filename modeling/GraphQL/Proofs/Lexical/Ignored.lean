import GraphQL.Lexical.Ignored
import Mathlib.Data.List.TakeWhile
import Mathlib.Tactic.Common

/-!
# Ignored text as a sequence of units

What is skipped before a lexeme is a sequence of ignored units: blanks, and comments that end where
a line ends (`Gap`).  It is all of them: skipping stops at the first place where no ignored unit
starts (`exists_gap`, `ignored_of_gap`).
-/

namespace GraphQL

/-- Whether a character ends a line. -/
def IsLineEnd (c : Char) : Prop := c = '\n' ∨ c = '\r'

/-- Whether an ignored unit starts a text. -/
def StartsIgnored (text : List Char) : Prop := ∃ c ∈ text.head?, isBlank c = true ∨ c = '#'

/-- A sequence of ignored units, and the text after it. -/
inductive Gap : List Char → List Char → Prop where
  /-- No unit. -/
  | nil {rest : List Char} : Gap [] rest
  /-- A space, tab, line feed, carriage return, comma or byte order mark. -/
  | blank {c : Char} {gap rest : List Char} (hc : isBlank c = true) (h : Gap gap rest) :
    Gap (c :: gap) rest
  /-- A comment, up to the next end of a line or the end of the text. -/
  | comment {body gap rest : List Char} (hbody : ∀ c ∈ body, ¬ IsLineEnd c)
    (hend : ∀ c ∈ (gap ++ rest).head?, IsLineEnd c) (h : Gap gap rest) :
    Gap ('#' :: (body ++ gap)) rest

theorem not_startsIgnored_nil : ¬ StartsIgnored [] := by simp [StartsIgnored]

theorem startsIgnored_cons {c : Char} {rest : List Char} :
    StartsIgnored (c :: rest) ↔ isBlank c = true ∨ c = '#' := by
  simp [StartsIgnored]

theorem isBlank_of_isLineEnd {c : Char} (h : IsLineEnd c) : isBlank c = true := by
  rcases h with rfl | rfl <;> rfl

theorem ignored_blank {c : Char} (h : isBlank c = true) (rest : List Char) :
    ignored (c :: rest) = c :: ignored rest := by
  have hc : c ≠ '#' := by
    rintro rfl
    cases h
  rw [ignored, ignoredFrom, if_neg hc, if_pos h, ignored]

theorem ignored_of_not_startsIgnored {rest : List Char} (h : ¬ StartsIgnored rest) :
    ignored rest = [] := by
  cases rest with
  | nil => rfl
  | cons c rest =>
    rw [startsIgnored_cons, not_or] at h
    rw [ignored, ignoredFrom, if_neg h.2, if_neg h.1]

/-- Inside a comment all is ignored up to the end of the line. -/
theorem ignoredFrom_comment {body rest : List Char} (hbody : ∀ c ∈ body, ¬ IsLineEnd c)
    (hend : ∀ c ∈ rest.head?, IsLineEnd c) :
    ignoredFrom true (body ++ rest) = body ++ ignored rest := by
  induction body with
  | nil =>
    cases rest with
    | nil => rfl
    | cons c rest =>
      have hc : IsLineEnd c := hend c rfl
      rw [List.nil_append, List.nil_append, ignored_blank (isBlank_of_isLineEnd hc), ignoredFrom]
      rcases hc with rfl | rfl <;> rfl
  | cons c body ih =>
    obtain ⟨hc, hbody⟩ := List.forall_mem_cons.1 hbody
    rw [IsLineEnd, not_or] at hc
    rw [List.cons_append, ignoredFrom, bne_iff_ne.2 hc.1, bne_iff_ne.2 hc.2, Bool.and_self,
      ih hbody, List.cons_append]

theorem ignored_comment {body rest : List Char} (hbody : ∀ c ∈ body, ¬ IsLineEnd c)
    (hend : ∀ c ∈ rest.head?, IsLineEnd c) :
    ignored ('#' :: (body ++ rest)) = '#' :: (body ++ ignored rest) := by
  rw [ignored, ignoredFrom, if_pos rfl, ignoredFrom_comment hbody hend]

/-- The ignored units before a place where none starts are what is skipped. -/
theorem ignored_of_gap {gap rest : List Char} (h : Gap gap rest) (hrest : ¬ StartsIgnored rest) :
    ignored (gap ++ rest) = gap := by
  induction h with
  | nil => exact ignored_of_not_startsIgnored hrest
  | blank hc _ ih => rw [List.cons_append, ignored_blank hc, ih hrest]
  | comment hbody hend _ ih =>
    rw [List.cons_append, List.append_assoc, ignored_comment hbody hend, ih hrest]

theorem exists_lineEnd (source : List Char) : ∃ body rest, source = body ++ rest ∧
    (∀ c ∈ body, ¬ IsLineEnd c) ∧ ∀ c ∈ rest.head?, IsLineEnd c := by
  induction source with
  | nil => exact ⟨[], [], rfl, by simp, by simp⟩
  | cons c source ih =>
    by_cases hc : IsLineEnd c
    · exact ⟨[], c :: source, rfl, by simp, by simpa using hc⟩
    · obtain ⟨body, rest, rfl, hbody, hend⟩ := ih
      exact ⟨c :: body, rest, rfl, List.forall_mem_cons.2 ⟨hc, hbody⟩, hend⟩

/-- A text starts with a sequence of ignored units, up to a place where none starts. -/
theorem exists_gap (source : List Char) :
    ∃ gap rest, source = gap ++ rest ∧ Gap gap rest ∧ ¬ StartsIgnored rest := by
  induction hn : source.length using Nat.strong_induction_on generalizing source with
  | _ n ih =>
    subst hn
    rcases source with _ | ⟨c, source⟩
    · exact ⟨[], [], rfl, .nil, not_startsIgnored_nil⟩
    by_cases hc : c = '#'
    · -- The line end after a comment is not part of it, but a blank of its own.
      subst hc
      obtain ⟨body, rest, rfl, hbody, hend⟩ := exists_lineEnd source
      have hlt : rest.length < ('#' :: (body ++ rest)).length := by
        rw [List.length_cons, List.length_append]
        omega
      obtain ⟨gap, rest, rfl, hgap, hrest⟩ := ih _ hlt rest rfl
      exact ⟨'#' :: (body ++ gap), rest, by simp, .comment hbody hend hgap, hrest⟩
    by_cases hb : isBlank c = true
    · obtain ⟨gap, rest, rfl, hgap, hrest⟩ := ih _ (Nat.lt_succ_self _) source rfl
      exact ⟨c :: gap, rest, rfl, .blank hb hgap, hrest⟩
    · exact ⟨[], c :: source, rfl, .nil, by simp [startsIgnored_cons, hb, hc]⟩

end GraphQL

import GraphQL.Lexical.Lexeme
import Mathlib.Computability.Language
import Mathlib.Tactic.Abel

/-!
# The text of names and numbers

Names and number literals as languages over characters: a name is a letter or an underscore and
then letters, digits and underscores; a number is `-?(0|[1-9][0-9]*)`, then perhaps a fraction
`\.[0-9]+`, then perhaps an exponent `[eE][+-]?[0-9]+`.  No number is both an integer and a float
(`LexicalText.not_mem_float`).
-/

namespace GraphQL

/-! ### Digits -/

theorem toNat_lt_of_isDigit {c : Char} (h : c.isDigit = true) : c.toNat < 58 := by
  simp only [Char.isDigit, Bool.and_eq_true, decide_eq_true_eq, UInt32.le_iff_toNat_le] at h
  exact Nat.lt_succ_of_le h.2

/-- Digits are ASCII characters, so what holds of those among these holds of all. -/
theorem forall_isDigit {P : Char → Prop}
    (h : ∀ n < 58, (Char.ofNat n).isDigit = true → P (Char.ofNat n)) {c : Char}
    (hc : c.isDigit = true) : P c := by
  have hn := h c.toNat (toNat_lt_of_isDigit hc)
  rw [Char.ofNat_toNat] at hn
  exact hn hc

open Computability

namespace LexicalText

/-- One character of a class. -/
def oneOf (p : Char → Bool) : Language Char := {w | ∃ c, p c = true ∧ w = [c]}

theorem mem_star_oneOf {p : Char → Bool} {w : List Char} :
    w ∈ (oneOf p)∗ ↔ ∀ c ∈ w, p c = true := by
  rw [Language.mem_kstar]
  constructor
  · rintro ⟨ws, rfl, hws⟩ c hc
    obtain ⟨v, hv, hc⟩ := List.mem_flatten.1 hc
    obtain ⟨d, hd, rfl⟩ := hws v hv
    rwa [List.mem_singleton.1 hc]
  · intro hw
    have hjoin : (w.map ([·])).flatten = w := by
      clear hw
      induction w with
      | nil => rfl
      | cons c w ih => rw [List.map_cons, List.flatten_cons, ih, List.singleton_append]
    refine ⟨w.map ([·]), hjoin.symm, fun v hv => ?_⟩
    obtain ⟨c, hc, rfl⟩ := List.mem_map.1 hv
    exact ⟨c, hw c hc, rfl⟩

theorem cons_mem_oneOf_mul {p : Char → Bool} {l : Language Char} {c : Char} {w : List Char}
    (hc : p c = true) (hw : w ∈ l) : c :: w ∈ oneOf p * l :=
  Language.mem_mul.2 ⟨[c], ⟨c, hc, rfl⟩, w, hw, rfl⟩

/-- Names, keywords included. -/
def name : Language Char := oneOf isNameStart * (oneOf isNamePart)∗

/-- One or more digits. -/
def digits : Language Char := oneOf Char.isDigit * (oneOf Char.isDigit)∗

/-- Natural numbers without superfluous zeros. -/
def natural : Language Char :=
  {['0']} + oneOf (fun c => c.isDigit && c != '0') * (oneOf Char.isDigit)∗

/-- Integer literals. -/
def integer : Language Char := (1 + {['-']}) * natural

/-- The fraction of a number literal. -/
def fraction : Language Char := {['.']} * digits

/-- The exponent of a number literal. -/
def exponent : Language Char := oneOf (fun c => c == 'e' || c == 'E') *
  (1 + oneOf (fun c => c == '+' || c == '-')) * digits

/-- Number literals with a fraction, an exponent or both. -/
def float : Language Char := integer * (fraction + exponent + fraction * exponent)

/-- Number literals. -/
def number : Language Char := integer * (1 + fraction) * (1 + exponent)

/-! ### The texts of the languages -/

theorem mem_oneOf_mul {p : Char → Bool} {l : Language Char} {w : List Char} :
    w ∈ oneOf p * l ↔ ∃ c v, p c = true ∧ v ∈ l ∧ w = c :: v := by
  rw [Language.mem_mul]
  constructor
  · rintro ⟨_, ⟨c, hc, rfl⟩, v, hv, rfl⟩
    exact ⟨c, v, hc, hv, rfl⟩
  · rintro ⟨c, v, hc, hv, rfl⟩
    exact ⟨[c], ⟨c, hc, rfl⟩, v, hv, rfl⟩

theorem mem_singleton_mul {c : Char} {l : Language Char} {w : List Char} :
    w ∈ {[c]} * l ↔ ∃ v ∈ l, w = c :: v := by
  rw [Language.mem_mul]
  constructor
  · rintro ⟨_, rfl, v, hv, rfl⟩
    exact ⟨v, hv, rfl⟩
  · rintro ⟨v, hv, rfl⟩
    exact ⟨[c], rfl, v, hv, rfl⟩

theorem mem_one_add {l : Language Char} {w : List Char} : w ∈ 1 + l ↔ w = [] ∨ w ∈ l := by
  rw [Language.mem_add, Language.mem_one]

theorem mem_name {w : List Char} : w ∈ name ↔
    ∃ c cs, isNameStart c = true ∧ (∀ d ∈ cs, isNamePart d = true) ∧ w = c :: cs := by
  simp only [name, mem_oneOf_mul, mem_star_oneOf]

theorem mem_digits {w : List Char} :
    w ∈ digits ↔ ∃ c cs, c.isDigit = true ∧ (∀ d ∈ cs, d.isDigit = true) ∧ w = c :: cs := by
  simp only [digits, mem_oneOf_mul, mem_star_oneOf]

theorem mem_natural {w : List Char} : w ∈ natural ↔ w = ['0'] ∨
    ∃ c cs, (c.isDigit = true ∧ c ≠ '0') ∧ (∀ d ∈ cs, d.isDigit = true) ∧ w = c :: cs := by
  rw [natural, Language.mem_add, mem_oneOf_mul]
  simp only [mem_star_oneOf, Bool.and_eq_true, bne_iff_ne, ne_eq]
  rfl

theorem isDigit_of_mem_natural {w : List Char} (h : w ∈ natural) : ∀ c ∈ w, c.isDigit = true := by
  obtain rfl | ⟨c, cs, hc, hcs, rfl⟩ := mem_natural.1 h
  · exact List.forall_mem_singleton.2 rfl
  · exact List.forall_mem_cons.2 ⟨hc.1, hcs⟩

theorem mem_integer {w : List Char} :
    w ∈ integer ↔ w ∈ natural ∨ ∃ n ∈ natural, w = '-' :: n := by
  rw [integer, add_mul, one_mul, Language.mem_add, mem_singleton_mul]

theorem mem_fraction {w : List Char} : w ∈ fraction ↔ ∃ ds ∈ digits, w = '.' :: ds := by
  rw [fraction, mem_singleton_mul]

theorem mem_exponent {w : List Char} : w ∈ exponent ↔ ∃ c v, (c = 'e' ∨ c = 'E') ∧
    (v ∈ digits ∨ ∃ sign ds, (sign = '+' ∨ sign = '-') ∧ ds ∈ digits ∧ v = sign :: ds) ∧
      w = c :: v := by
  rw [exponent, mul_assoc, add_mul, one_mul, mem_oneOf_mul]
  simp only [Language.mem_add, mem_oneOf_mul, Bool.or_eq_true, beq_iff_eq]

/-- A number literal is an integer, or has a fraction or an exponent. -/
theorem number_eq : number = integer + float := by
  simp only [number, float, mul_add, add_mul, mul_one, mul_assoc]
  abel

/-- A number literal with a fraction or an exponent is no integer literal. -/
theorem not_mem_float {w : List Char} (h : w ∈ integer) : w ∉ float := by
  have hall : ∀ c ∈ w, c.isDigit = true ∨ c = '-' := by
    obtain hn | ⟨n, hn, rfl⟩ := mem_integer.1 h
    · exact fun c hc => .inl (isDigit_of_mem_natural hn c hc)
    · rintro c (_ | ⟨_, hc⟩)
      · exact .inr rfl
      · exact .inl (isDigit_of_mem_natural hn c hc)
  intro hw
  obtain ⟨i, -, v, hv, rfl⟩ := Language.mem_mul.1 hw
  -- What comes after the integer part starts with a character that is in no integer.
  have hfirst : ∃ c u, v = c :: u ∧ (c = '.' ∨ c = 'e' ∨ c = 'E') := by
    obtain (hf | he) | ⟨f, hf, e, -, rfl⟩ := hv
    · obtain ⟨ds, -, rfl⟩ := mem_fraction.1 hf
      exact ⟨_, _, rfl, .inl rfl⟩
    · obtain ⟨c, u, hc, -, rfl⟩ := mem_exponent.1 he
      exact ⟨_, _, rfl, .inr hc⟩
    · obtain ⟨ds, -, rfl⟩ := mem_fraction.1 hf
      exact ⟨_, _, rfl, .inl rfl⟩
  obtain ⟨c, u, rfl, hc⟩ := hfirst
  have hcall := hall c (by simp)
  rcases hc with rfl | rfl | rfl <;> revert hcall <;> decide

end LexicalText

end GraphQL

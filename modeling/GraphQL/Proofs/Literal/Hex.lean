import GraphQL.Literal.Escape
import Mathlib.Data.List.Forall2
import Mathlib.Data.Nat.Digits.Defs
import Mathlib.Tactic.Ring

/-!
# Hexadecimal numbers

The digits that `hexNumber?` reads, as a relation: `IsHexDigit` is a digit of either case and its
value, and `HexNumber` digits and the number that they denote, the most significant first.
-/

namespace GraphQL

/-- A hexadecimal digit of either case and its value. -/
def IsHexDigit (c : Char) (d : Nat) : Prop :=
  "0123456789abcdef".toList[d]? = some c ∨ "0123456789ABCDEF".toList[d]? = some c

/-- Hexadecimal digits and the number that they denote. -/
def HexNumber (h : List Char) (n : Nat) : Prop :=
  ∃ ds, List.Forall₂ IsHexDigit h ds ∧ n = Nat.ofDigits 16 ds.reverse

instance (c : Char) (d : Nat) : Decidable (IsHexDigit c d) :=
  inferInstanceAs (Decidable (_ ∨ _))

theorem toNat_lt_of_hexDigit? {c : Char} {d : Nat} (h : hexDigit? c = some d) : c.toNat < 128 := by
  have hle : ∀ e : Char, c ≤ e → c.toNat ≤ e.toNat := fun e he => by
    simpa [Char.le_def, UInt32.le_iff_toNat_le] using he
  unfold hexDigit? at h
  split at h
  · rename_i hc
    exact (hle '9' hc.2).trans_lt (by decide)
  · split at h
    · rename_i hc
      exact (hle 'f' hc.2).trans_lt (by decide)
    · split at h
      · rename_i hc
        exact (hle 'F' hc.2).trans_lt (by decide)
      · cases h

theorem IsHexDigit.lt {c : Char} {d : Nat} (h : IsHexDigit c d) : d < 16 := by
  rcases h with h | h <;> exact (List.getElem?_eq_some_iff.1 h).1

theorem hexDigit?_eq_some {c : Char} {d : Nat} : hexDigit? c = some d ↔ IsHexDigit c d := by
  constructor
  · intro h
    -- Digits are ASCII characters, so it suffices to look at those.
    have hall : ∀ n < 128, ∀ d ∈ hexDigit? (Char.ofNat n), IsHexDigit (Char.ofNat n) d := by decide
    have hc := hall c.toNat (toNat_lt_of_hexDigit? h)
    rw [Char.ofNat_toNat] at hc
    exact hc d h
  · intro h
    have hall : ∀ d < 16, "0123456789abcdef".toList[d]?.bind hexDigit? = some d ∧
        "0123456789ABCDEF".toList[d]?.bind hexDigit? = some d := by decide
    obtain ⟨hlower, hupper⟩ := hall d h.lt
    rcases h with h | h
    · rwa [h] at hlower
    · rwa [h] at hupper

theorem hexNumberFrom?_eq_some {value n : Nat} {h : List Char} :
    hexNumberFrom? value h = some n ↔ ∃ ds, List.Forall₂ IsHexDigit h ds ∧
      n = Nat.ofDigits 16 ds.reverse + 16 ^ h.length * value := by
  induction h generalizing value with
  | nil => simp [hexNumberFrom?, List.forall₂_nil_left_iff, eq_comm]
  | cons c h ih =>
    -- The first digit counts once for each place to the right of it.
    have hplace : ∀ {d : Nat} {ds : List Nat}, List.Forall₂ IsHexDigit h ds →
        Nat.ofDigits 16 (d :: ds).reverse + 16 ^ (c :: h).length * value =
          Nat.ofDigits 16 ds.reverse + 16 ^ h.length * (16 * value + d) := by
      intro d ds hds
      rw [List.reverse_cons, Nat.ofDigits_append, List.length_reverse, ← hds.length_eq,
        Nat.ofDigits_singleton, List.length_cons]
      ring
    simp only [hexNumberFrom?, Option.bind_eq_bind, Option.bind_eq_some_iff, ih,
      List.forall₂_cons_left_iff, hexDigit?_eq_some]
    constructor
    · rintro ⟨d, hd, ds, hds, rfl⟩
      exact ⟨d :: ds, ⟨d, ds, hd, hds, rfl⟩, (hplace hds).symm⟩
    · rintro ⟨_, ⟨d, ds, hd, hds, rfl⟩, rfl⟩
      exact ⟨d, hd, ds, hds, hplace hds⟩

theorem hexNumber?_eq_some {n : Nat} {h : List Char} : hexNumber? h = some n ↔ HexNumber h n := by
  simp [hexNumber?, hexNumberFrom?_eq_some, HexNumber]

theorem HexNumber.exists_isHexDigit {h : List Char} {n : Nat} (hn : HexNumber h n) {c : Char}
    (hc : c ∈ h) : ∃ d, IsHexDigit c d := by
  obtain ⟨ds, hds, -⟩ := hn
  induction hds with
  | nil => cases hc
  | cons hd _ ih =>
    rcases List.mem_cons.1 hc with rfl | hc
    · exact ⟨_, hd⟩
    · exact ih hc

theorem HexNumber.lt {h : List Char} {n : Nat} (hn : HexNumber h n) : n < 16 ^ h.length := by
  obtain ⟨ds, hds, rfl⟩ := hn
  have hall : ∀ d ∈ ds, d < 16 := by
    induction hds with
    | nil => simp
    | cons hd _ ih => exact List.forall_mem_cons.2 ⟨hd.lt, ih⟩
  have hlt := Nat.ofDigits_lt_base_pow_length (b := 16) (l := ds.reverse) (by decide)
    (fun d hd => hall d (List.mem_reverse.1 hd))
  rwa [List.length_reverse, ← hds.length_eq] at hlt

/-- Braces are no hexadecimal digits. -/
theorem HexNumber.ne_brace {h : List Char} {n : Nat} (hn : HexNumber h n) {c : Char} (hc : c ∈ h) :
    c ≠ '\x7b' ∧ c ≠ '\x7d' := by
  obtain ⟨d, hd⟩ := hn.exists_isHexDigit hc
  rw [← hexDigit?_eq_some] at hd
  constructor <;> rintro rfl <;> cases hd

end GraphQL
